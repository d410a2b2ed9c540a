/-
# Operational domains

The region of a parameter grid in which a gate works, explored by one of four strategies: every grid
point, a random sample of them, a flood fill from random seeds, or the contour of one region.
-/
import DanglingBonds.Domain.Contour
import DanglingBonds.Domain.FloodFill

namespace DanglingBonds

/-- How a domain is explored. -/
inductive Strategy where
  | gridSearch
  | randomSampling (samples : Nat)
  | floodFill (seeds : Nat) (neighborhood : Neighborhood)
  | contourTracing (samples : Nat)
  deriving DecidableEq, Repr

/-- The gate check to repeat, and the two parameters to vary. -/
structure DomainOptions (α : Type) where
  gate : GateOptions α
  xAxis : SweepAxis α
  yAxis : SweepAxis α

variable {α : Type} [Scalar α]

/-- An axis without a fault. -/
def SweepAxis.check (a : SweepAxis α) : Except (SetupError α) Unit :=
  match a.fault? with
  | some f => .error (.axis a.parameter f)
  | none => .ok ()

namespace DomainOptions

/-- Each axis has to be without a fault, and the two vary different parameters. -/
def check (o : DomainOptions α) : Except (SetupError α) Unit := do
  o.xAxis.check
  o.yAxis.check
  if o.xAxis.parameter = o.yAxis.parameter then throw (.sameAxes o.xAxis.parameter)

/-- The grid that the axes span. -/
def grid (o : DomainOptions α) : Grid :=
  ⟨o.xAxis.points, o.yAxis.points⟩

/-- The gate check at a grid point. -/
def gateAt (o : DomainOptions α) (p : GridIndex) : GateOptions α :=
  let y := o.yAxis.parameter.apply o.gate.parameters (o.yAxis.value p.y)
  { o.gate with parameters := o.xAxis.parameter.apply y (o.xAxis.value p.x) }

end DomainOptions

/-- Carries out a strategy on a grid. The draw, if the strategy needs one, is draw number zero. -/
def Strategy.explore {ε : Type} (s : Strategy) (g : Grid) (oracle : Oracle ε)
    (draws : DrawSource) : Explore ε Unit :=
  match s with
  | gridSearch => .evaluateAll oracle g.points
  | randomSampling n => .evaluateAll oracle (g.sample draws 0 n)
  | floodFill n nb => .floodFill oracle g nb (g.sample draws 0 n)
  | contourTracing n => .contourTracing oracle g (g.sample draws 0 n)

/-- The name of the phase a strategy reports. -/
def Strategy.phase : Strategy → String
  | gridSearch => "Grid search"
  | randomSampling _ => "Random sampling"
  | floodFill .. => "Flood fill"
  | contourTracing _ => "Contour tracing"

/-- The number of points a strategy announces: those it will ask about if they are known,
otherwise all that are counted. -/
def Strategy.announced (s : Strategy) (g : Grid) (draws : DrawSource) : Nat :=
  match s with
  | gridSearch => g.points.length
  | randomSampling n => (g.sample draws 0 n).length
  | floodFill .. | contourTracing _ => g.total

/-- A flood fill needs a seed. -/
def Strategy.check (s : Strategy) : Except (SetupError α) Unit :=
  match s with
  | floodFill 0 _ => .error .noSeeds
  | _ => .ok ()

/-- The operational domain of a layout for truth tables, as far as a strategy explores it. -/
def Layout.exploreDomain (l : Layout α) (tables : List TruthTable) (s : Strategy)
    (o : DomainOptions α) (draws : DrawSource) : Reported (AnalysisError α) Survey :=
  match o.check *> s.check with
  | .error e => .refused (.setup e)
  | .ok () =>
    let oracle : Oracle (AnalysisError α) := fun p => l.assess tables (o.gateAt p)
    let exploration : Explore (AnalysisError α) Survey := do
      task s.phase (s.announced o.grid draws) (s.explore o.grid oracle draws)
      return (← get).toSurvey
    .ofResult (exploration.run {})

end DanglingBonds
