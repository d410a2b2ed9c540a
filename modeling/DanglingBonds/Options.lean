/-
# Options with defaults

Options of the larger analyses, put together from what is given; what is left out has a default or
is missing.
-/
import DanglingBonds.DefectInfluence
import DanglingBonds.Domain.Exploration
import DanglingBonds.RandomLayout

namespace DanglingBonds

variable {α : Type} [Scalar α]

/-- A value that has no default. -/
def required {β : Type} (name : String) : Option β → Except (SetupError α) β
  | some b => .ok b
  | none => .error (.missing name)

/-- What may be given about a domain. -/
structure DomainOptions.Given (α : Type) where
  parameters : Option (Parameters α) := none
  engine : Option Engine := none
  window : Option (PairWindow α) := none
  xAxis : Option (SweepAxis α) := none
  yAxis : Option (SweepAxis α) := none

/-- Domain options; the axes have no default. -/
def DomainOptions.ofGiven (g : Given α) : Except (SetupError α) (DomainOptions α) := do
  let xAxis ← required "x_axis" g.xAxis
  let yAxis ← required "y_axis" g.yAxis
  let o : DomainOptions α :=
    { gate :=
        { parameters := g.parameters.getD default
          engine := g.engine.getD default
          window := g.window.getD default }
      xAxis
      yAxis }
  o.check
  return o

/-- What may be given about a defect scan. -/
structure ScanOptions.Given (α : Type) where
  parameters : Option (Parameters α) := none
  defect : Option (Defect α) := none
  area : Option ScanningArea := none

/-- Scan options; the defect has no default. -/
def ScanOptions.ofGiven (g : Given α) : Except (SetupError α) (ScanOptions α) := do
  let defect ← required "defect" g.defect
  return ⟨g.parameters.getD default, defect, g.area.getD default⟩

/-- What may be given about random layouts. -/
structure RandomLayoutOptions.Given (α : Type) where
  area : Option (Site × Site) := none
  cells : Option Nat := none
  positiveCharges : Option PositiveCharges := none
  parameters : Option (Parameters α) := none
  attempts : Option Nat := none

/-- Options of a random layout; the area and the number of cells have no default. -/
def RandomLayoutOptions.ofGiven (g : Given α) :
    Except (SetupError α) (RandomLayoutOptions α) := do
  let (northWest, southEast) ← required "area" g.area
  let cells ← required "number_of_sidbs" g.cells
  return {
    northWest
    southEast
    cells
    positiveCharges := g.positiveCharges.getD .allowed
    parameters := g.parameters.getD default
    attempts := g.attempts.getD 10000 }

end DanglingBonds
