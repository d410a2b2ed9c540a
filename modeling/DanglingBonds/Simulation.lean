/-
# Simulation results

All physically valid charge assignments of one layout under one set of parameters, and the energy
levels they fill.
-/
import DanglingBonds.Surface
import DanglingBonds.Sorting

namespace DanglingBonds

variable {α : Type} [Scalar α] {n : Nat}

/-- Adds one state to the levels, the highest level first. -/
def addToLevels (levels : List (α × Nat)) (e : α) : List (α × Nat) :=
  match levels with
  | (top, count) :: lower => if top == e then (top, count + 1) :: lower else (e, 1) :: levels
  | [] => [(e, 1)]

/-- Energy levels, ascending, with the number of states on each. -/
structure Spectrum (α : Type) where
  levels : List (α × Nat)

namespace Spectrum

/-- The levels of a list of energies that are equal when they compare as equal. -/
def ofRounded (energies : List α) : Spectrum α :=
  ⟨((sortBy (fun a b => decide (a < b)) energies).foldl addToLevels []).reverse⟩

/-- The levels of a list of energies. -/
def ofEnergies (energies : List α) : Spectrum α :=
  ofRounded (energies.map roundEnergy)

def isEmpty (s : Spectrum α) : Bool :=
  s.levels.isEmpty

/-- The lowest level. -/
def ground? (s : Spectrum α) : Option α :=
  s.levels.head?.map (·.1)

/-- Number of states on the lowest level. -/
def degeneracy (s : Spectrum α) : Nat :=
  match s.levels with
  | [] => 0
  | (_, count) :: _ => count

/-- Whether more than one state is on the lowest level. -/
def isDegenerate (s : Spectrum α) : Bool :=
  1 < s.degeneracy

end Spectrum

/-- Ways to enumerate the valid charge assignments. -/
inductive Engine where
  /-- Fixed cells, a dependent cell and a Gray walk over the others. -/
  | quickExact
  /-- Every assignment, one after the other. -/
  | exhaustive
  deriving DecidableEq, Repr, Inhabited

/-- The name shown to the user. -/
def Engine.name : Engine → String
  | quickExact => "QuickExact"
  | exhaustive => "ExGS"

/-- The valid charge assignments of a layout of `n` cells, in the order of enumeration. -/
structure Simulation (α : Type) (n : Nat) where
  engine : Engine
  parameters : Parameters α
  /-- The number of charge states the enumeration ran over. -/
  base : Nat
  distributions : List (Surface α n)

namespace Simulation

def energies (r : Simulation α n) : List α :=
  r.distributions.map (·.energy)

/-- The energy levels of the assignments. -/
def spectrum (r : Simulation α n) : Spectrum α :=
  .ofEnergies r.energies

/-- The assignments on the lowest energy level. -/
def groundStates (r : Simulation α n) : List (Surface α n) :=
  match r.spectrum.ground? with
  | none => []
  | some e => r.distributions.filter fun s => roundEnergy s.energy == e

/-- The first assignment of lowest rounded energy. -/
def groundState? (r : Simulation α n) : Option (Surface α n) :=
  firstMin (fun a b => decide (roundEnergy a.energy < roundEnergy b.energy)) r.distributions

/-- The same assignments by ascending energy. -/
def sortByEnergy (r : Simulation α n) : Simulation α n :=
  { r with distributions := sortBy (fun a b => decide (a.energy < b.energy)) r.distributions }

end Simulation

end DanglingBonds
