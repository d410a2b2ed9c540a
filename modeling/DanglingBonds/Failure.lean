/-
# Why an analysis is refused

The causes for which a configuration is refused, and those for which an analysis ends without a
result.
-/
import DanglingBonds.Site
import DanglingBonds.Sweep

namespace DanglingBonds

/-- Why a configuration is refused. -/
inductive SetupError (α : Type) where
  | missing (name : String)
  | axis (parameter : SweepParameter) (fault : AxisFault)
  | sameAxes (parameter : SweepParameter)
  | temperature (value : α)
  | noSeeds

/-- The text shown to the user. -/
def SetupError.message : SetupError Float → String
  | missing name => s!"Missing required parameter: {name}"
  | axis p f => s!"Invalid {p.name} sweep: {f.message}"
  | sameAxes p => s!"Both sweep axes vary {p.name}"
  | temperature v =>
    s!"Invalid value for 'temperature': {Decimal.shortest v} K is not a non-negative finite " ++
      "temperature"
  | noSeeds => "Invalid value for 'num_seeds': at least one seed is required"

/-- Why an analysis ends without a result. -/
inductive AnalysisError (α : Type) where
  | parameters (cause : ParameterError α)
  | setup (cause : SetupError α)
  | inputArity (tableInputs inputPairs : Nat)
  | outputArity (tables outputPairs : Nat)
  | invertedArea (northWest southEast : Site)
  | crowdedArea (requested sites : Nat)
  | exhausted (attempts : Nat)

/-- The text shown to the user. -/
def AnalysisError.message : AnalysisError Float → String
  | parameters e => s!"Invalid simulation parameters: {e.message}"
  | setup e => s!"Invalid configuration: {e.message}"
  | inputArity t p =>
    s!"Truth table expects {Decimal.natText t} input(s) but the layout has " ++
      s!"{Decimal.natText p} input BDL pair(s)"
  | outputArity t p =>
    s!"{Decimal.natText t} truth table(s) given for {Decimal.natText p} output BDL pair(s)"
  | invertedArea nw se =>
    s!"Invalid layout area: north-west corner {nw.text} lies south or east of {se.text}"
  | crowdedArea n sites =>
    s!"Invalid layout area: {Decimal.natText n} SiDB(s) requested but the area holds " ++
      s!"{Decimal.natText sites} site(s)"
  | exhausted n => s!"Random layout generation gave up after {Decimal.natText n} attempts"

end DanglingBonds
