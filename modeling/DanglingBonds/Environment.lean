/-
# The electrostatic environment of a layout

What every charge assignment of a layout has in common: the unit potential between any two cells and
the potential that defects and applied fields put on each cell. Cells are numbered in the order of
their sites.
-/
import DanglingBonds.Charge
import DanglingBonds.Layout
import DanglingBonds.Potential

namespace DanglingBonds

/-- Cells, parameters and fixed potentials of a layout with `n` cells. -/
structure Environment (α : Type) (n : Nat) where
  sites : Vector Site n
  parameters : Parameters α
  /-- Unit potentials between cells, in volts, zero on the diagonal. The matrix is symmetric, so
  its rows are its columns. -/
  pair : Vector (Vector α n) n
  /-- Potential of defects and applied fields on each cell, in volts. -/
  external : Vector α n

variable {α : Type} [Scalar α]

/-- The potential in volts that the defects of a layout put on a site. -/
def Layout.defectPotential (l : Layout α) (s : Site) : α :=
  l.defects.entries.foldl
    (fun sum (site, d) =>
      sum + pointPotential d.charge (l.lattice.distance s site) d.epsilonR d.lambdaTF)
    0

namespace Environment

/-- The environment that a layout makes under given parameters. -/
def ofLayout (l : Layout α) (p : Parameters α) : Environment α l.size :=
  let sites : Vector Site l.size :=
    ⟨l.sites.toArray, by simp [Layout.sites, Layout.size, Table.keys, Table.size]⟩
  { sites
    parameters := p
    pair := Vector.ofFn fun i => Vector.ofFn fun j =>
      if i = j then 0
      else screenedPotential (l.lattice.distance (sites.get i) (sites.get j)) p.epsilonR p.lambdaTF
    external := sites.map fun s => l.defectPotential s + l.localPotential s + l.globalPotential }

variable {n : Nat}

/-- The unit potential between two cells, in volts. -/
def between (env : Environment α n) (i j : Fin n) : α :=
  (env.pair.get i).get j

/-- The number of the cell at a site. -/
def index? (env : Environment α n) (s : Site) : Option (Fin n) :=
  (List.finRange n).find? fun i => (env.sites.get i).sameRank s

/-- Potential of cell `i` when every other cell is negative: the lowest it can be. -/
def lowestPotential (env : Environment α n) (i : Fin n) : α :=
  env.external.get i - (env.pair.get i).foldl (· + ·) 0

/-- Whether cell `i` is negative in every population-stable assignment. -/
def mustBeNegative (env : Environment α n) (i : Fin n) : Bool :=
  -env.lowestPotential i + env.parameters.muMinus < -stabilityTolerance

/-- Whether cell `i` is positive in some population-stable assignment. -/
def canBePositive (env : Environment α n) (i : Fin n) : Bool :=
  -env.lowestPotential i + env.parameters.muPlus > -stabilityTolerance

end Environment

/-- Whether a charge state agrees with a local potential. -/
def isPopulationStable (c : Charge) (v : α) (p : Parameters α) : Bool :=
  let toMinus := -v + p.muMinus
  let toPlus := -v + p.muPlus
  match c with
  | .negative => toMinus < stabilityTolerance
  | .positive => toPlus > -stabilityTolerance
  | .neutral => toMinus > -stabilityTolerance && toPlus < stabilityTolerance

/-- The charge state that a local potential settles on. -/
def settledCharge (v : α) (p : Parameters α) (base : Nat) : Charge :=
  if -v + p.muMinus < stabilityTolerance then .negative
  else if base = 3 ∧ -v + p.muPlus > -stabilityTolerance then .positive
  else .neutral

/-- Whether some cell of a layout can be positive in a population-stable assignment. -/
def Layout.admitsPositive (l : Layout α) (p : Parameters α) : Bool :=
  let env := Environment.ofLayout l p
  (List.finRange l.size).any env.canBePositive

end DanglingBonds
