/-
# Charge assignments

A surface is a charge assignment of a layout's cells with the local potentials and the energy that
belong to it. Assigning a charge updates both; nothing is computed anew.

For an enumeration the cells fall into three groups: fixed cells, which are negative in every valid
assignment; at most one dependent cell, whose charge follows from its potential; and independent
cells, whose charges are the digits of the charge index.
-/
import DanglingBonds.Environment

namespace DanglingBonds

/-- A charge assignment of `n` cells. -/
structure Surface (α : Type) (n : Nat) where
  env : Environment α n
  charges : Vector Charge n
  /-- Potential on each cell, in volts, external potentials included. -/
  potentials : Vector α n
  /-- Electrostatic energy, in electronvolts. -/
  energy : α
  base : Nat
  dependent : Option (Fin n)
  fixed : Vector Bool n
  /-- Cells that are neither fixed nor dependent, ascending. The operations that fix cells or choose
  the dependent one list them anew. -/
  independent : List (Fin n)

variable {α : Type} [Scalar α] {n : Nat}

namespace Environment

/-- Local potentials of an assignment, from the charges of all cells. -/
def potentialsOf (env : Environment α n) (charges : Vector Charge n) : Vector α n :=
  Vector.ofFn fun i =>
    (List.finRange n).foldl (fun sum j => sum + env.between i j * (charges.get j).value) 0
      + env.external.get i

/-- Energy of an assignment, from given local potentials. -/
def energyOf (env : Environment α n) (charges : Vector Charge n) (potentials : Vector α n) : α :=
  (List.finRange n).foldl
    (fun sum i =>
      sum + (0.5 : α) * (charges.get i).value * (potentials.get i + env.external.get i))
    0

end Environment

namespace Surface

/-- Computes the local potentials anew. -/
def refreshPotentials (s : Surface α n) : Surface α n :=
  { s with potentials := s.env.potentialsOf s.charges }

/-- Computes the energy anew from the local potentials. -/
def refreshEnergy (s : Surface α n) : Surface α n :=
  { s with energy := s.env.energyOf s.charges s.potentials }

/-- Gives every cell the same charge. -/
def assignAll (s : Surface α n) (c : Charge) : Surface α n :=
  ({ s with charges := Vector.replicate n c } : Surface α n).refreshPotentials.refreshEnergy

/-- The surface of an environment with every cell negative. -/
def ofEnvironment (env : Environment α n) : Surface α n :=
  ({ env
     charges := Vector.replicate n .negative
     potentials := Vector.replicate n 0
     energy := 0
     base := env.parameters.base
     dependent := none
     fixed := Vector.replicate n false
     independent := List.finRange n } : Surface α n).refreshPotentials.refreshEnergy

/-- The surface of a layout with every cell negative. -/
def ofLayout (l : Layout α) (p : Parameters α) : Surface α l.size :=
  ofEnvironment (.ofLayout l p)

/-- Gives cell `i` a charge and carries the change to all local potentials and the energy. A cell's
own potential does not depend on its charge. -/
def assign (s : Surface α n) (i : Fin n) (c : Charge) : Surface α n :=
  let old := s.charges.get i
  if old = c then s
  else
    let delta : α := c.value - old.value
    { s with
      energy := s.energy + delta * s.potentials.get i
      potentials := s.potentials.zipWith (fun v p => v + p * delta) (s.env.pair.get i)
      charges := s.charges.set i c }

/-- Lists the independent cells anew. -/
def refreshIndependent (s : Surface α n) : Surface α n :=
  { s with
    independent := (List.finRange n).filter fun i => !s.fixed.get i && some i != s.dependent }

/-- Numbers of cells that are not fixed, ascending. -/
def free (s : Surface α n) : List (Fin n) :=
  (List.finRange n).filter fun i => !s.fixed.get i

/-- Number of cells that are fixed. -/
def fixedCount (s : Surface α n) : Nat :=
  s.fixed.toList.countP id

/-- Fixes one cell as negative. -/
def fixNegative (s : Surface α n) (i : Fin n) : Surface α n :=
  ({ s with fixed := s.fixed.set i true } : Surface α n).assign i .negative

/-- Fixes every cell that is negative in all valid assignments. -/
def fixCells (s : Surface α n) : Surface α n :=
  let s := (List.finRange n).foldl
    (fun s i => if s.env.mustBeNegative i then s.fixNegative i else s) s
  ({ s with
     dependent := s.dependent.filter fun d => !s.fixed.get d } : Surface α n).refreshIndependent

/-- Makes a cell the dependent one, or none. A fixed cell cannot be dependent. -/
def setDependent (s : Surface α n) (i : Option (Fin n)) : Surface α n :=
  ({ s with
     dependent := i.filter fun d => !s.fixed.get d } : Surface α n).refreshIndependent

def setBase (s : Surface α n) (base : Nat) : Surface α n :=
  { s with base }

/-- Gives the dependent cell the charge that its local potential settles on. -/
def settleDependent (s : Surface α n) : Surface α n :=
  match s.dependent with
  | none => s
  | some d => s.assign d (settledCharge (s.potentials.get d) s.env.parameters s.base)

/-- The charges of the independent cells as digits, the first cell most significant. -/
def chargeIndex (s : Surface α n) : Nat :=
  s.independent.foldl (fun acc i => acc * s.base + (s.charges.get i).digit) 0

/-- The greatest charge index, at most `2 ^ 64 - 1`. -/
def lastIndex (s : Surface α n) : Nat :=
  min (Nat.pow s.base s.independent.length) (Nat.pow 2 64) - 1

/-- Assigns the digits of `index`, least significant first, to cells; digits that are no charge
leave their cell as it is. -/
def assignDigits (base : Nat) : List (Fin n) → Nat → Surface α n → Surface α n
  | [], _, s => s
  | i :: is, index, s =>
    let s :=
      match Charge.ofDigit? (index % base) with
      | some c => s.assign i c
      | none => s
    assignDigits base is (index / base) s

/-- Assigns the digits of `index` to the independent cells and settles the dependent cell. -/
def assignIndex (s : Surface α n) (index : Nat) : Surface α n :=
  (assignDigits s.base s.independent.reverse index s).settleDependent

/-- Whether every charge agrees with its local potential. -/
def isPopulationStable (s : Surface α n) : Bool :=
  (List.finRange n).all fun i =>
    DanglingBonds.isPopulationStable (s.charges.get i) (s.potentials.get i) s.env.parameters

/-- Energy gained when an electron moves from cell `i` to cell `j`. -/
def hopEnergy (s : Surface α n) (i j : Fin n) : α :=
  s.potentials.get i - s.potentials.get j - s.env.between i j

/-- Whether no electron can lower the energy by moving from one cell to another. -/
def isConfigurationStable (s : Surface α n) : Bool :=
  (List.finRange n).all fun i => (List.finRange n).all fun j =>
    !((s.charges.get i).sign < (s.charges.get j).sign && s.hopEnergy i j < -stabilityTolerance)

/-- Whether the assignment is stable in both ways. -/
def isValid (s : Surface α n) : Bool :=
  s.isPopulationStable && s.isConfigurationStable

/-- The charge at a site, if a cell is there. -/
def chargeAt? (s : Surface α n) (site : Site) : Option Charge :=
  (s.env.index? site).map fun i => s.charges.get i

/-- The local potential at a site, if a cell is there. -/
def potentialAt? (s : Surface α n) (site : Site) : Option α :=
  (s.env.index? site).map fun i => s.potentials.get i

/-- Number of cells with a charge. -/
def count (s : Surface α n) (c : Charge) : Nat :=
  s.charges.toList.count c

end Surface

end DanglingBonds
