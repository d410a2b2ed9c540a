/-
# Stability margins

How far each valid charge assignment is from a change of some cell's charge.
-/
import DanglingBonds.Enumeration

namespace DanglingBonds

/-- A change of one cell's charge. -/
inductive Transition where
  | negativeToNeutral
  | neutralToNegative
  | neutralToPositive
  | positiveToNeutral
  deriving DecidableEq, Repr

/-- The text shown to the user. -/
def Transition.text : Transition → String
  | negativeToNeutral => "- -> 0"
  | neutralToNegative => "0 -> -"
  | neutralToPositive => "0 -> +"
  | positiveToNeutral => "+ -> 0"

/-- The nearest transition of one cell, and the change of its potential that brings it about. -/
structure Threshold (α : Type) (n : Nat) where
  cell : Fin n
  transition : Transition
  difference : α

/-- The margin of a charge assignment. -/
structure StabilityMargin (α : Type) where
  /-- The site whose charge changes first. -/
  site : Site
  transition : Transition
  /-- The change of potential, in volts, that makes it change. -/
  difference : α
  /-- The distance, in nanometres, at which a unit charge brings that change about. -/
  distance : Option α
  /-- Energy of the assignment. -/
  energy : α

variable {α : Type} [Scalar α] {n : Nat}

/-- The transition nearest to a cell's potential. -/
def Surface.threshold (s : Surface α n) (i : Fin n) : Threshold α n :=
  let v := s.potentials.get i
  let toNegative := Scalar.abs (-v + s.env.parameters.muMinus)
  let toPositive := Scalar.abs (-v + s.env.parameters.muPlus)
  match s.charges.get i with
  | .negative => ⟨i, .negativeToNeutral, toNegative⟩
  | .positive => ⟨i, .positiveToNeutral, toPositive⟩
  | .neutral =>
    if toPositive < toNegative then ⟨i, .neutralToPositive, toPositive⟩
    else ⟨i, .neutralToNegative, toNegative⟩

/-- The cell that changes first; without cells there is none. -/
def Surface.critical? (s : Surface α n) : Option (Threshold α n) :=
  firstMin (fun a b => decide (a.difference < b.difference)) ((List.finRange n).map s.threshold)

/-- The margin of an assignment, its distance on a grid with `places` decimals. -/
def Surface.margin? (s : Surface α n) (places : Nat) : Option (StabilityMargin α) :=
  s.critical?.map fun t =>
    let p := s.env.parameters
    { site := s.env.sites.get t.cell
      transition := t.transition
      difference := t.difference
      distance := distanceForPotential t.difference p.epsilonR p.lambdaTF places
      energy := s.energy }

/-- The margins of all valid assignments, by ascending energy. -/
def Layout.stabilityMargins (l : Layout α) (p : Parameters α) (places : Nat) :
    Except (AnalysisError α) (List (StabilityMargin α)) :=
  (l.enumeratePruned p .on).map fun r =>
    r.sortByEnergy.distributions.filterMap fun s => s.margin? places

end DanglingBonds
