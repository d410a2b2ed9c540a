/-
# Settings

What a command needs for its analysis, put together from the job file and the command line. A value
on the command line comes before one in the file, and that before a default.
-/
import DanglingBonds.Command.Arguments
import DanglingBonds.Options

namespace DanglingBonds

/-! ## Errors -/

/-- Why a job file, though it can be read, does not say enough. -/
inductive ConfigError where
  | noLayout
  | missing (key : String)
  | truthTable (text : String) (cause : TruthTableError)

/-- The text shown to the user. -/
def ConfigError.message : ConfigError → String
  | noLayout => "The job file has no [layout] section."
  | missing key =>
    s!"A value for '{key}' is required either in the config file or via CLI argument."
  | truthTable text e => s!"Invalid truth table '{text}': {e.message}"

/-- Why a command ends without success. -/
inductive CommandError where
  | unreadable (path : String)
  | malformed (path : String)
  | unwritable (path : String)
  | config (cause : ConfigError)
  | analysis (cause : AnalysisError Float)

/-- The text shown to the user. -/
def CommandError.message : CommandError → String
  | unreadable path => s!"I/O error: cannot read '{path}'"
  | malformed path => s!"Failed to parse file '{path}'"
  | unwritable path => s!"Failed to write CSV output: cannot write '{path}'"
  | config e => s!"Configuration error: {e.message}"
  | analysis e => e.message

/-- A value that has to be given somewhere. -/
def needed {β : Type} (key : String) : Option β → Except CommandError β
  | some b => .ok b
  | none => .error (.config (.missing key))

/-- The error of an analysis as that of a command. -/
def ofAnalysis {β : Type} : Except (AnalysisError Float) β → Except CommandError β :=
  Except.mapError .analysis

/-- The error of a configuration as that of a command. -/
def ofSetup {β : Type} : Except (SetupError Float) β → Except CommandError β :=
  Except.mapError fun e => .analysis (.setup e)

/-- The error of parameters as that of a command. -/
def ofParameters {β : Type} : Except (ParameterError Float) β → Except CommandError β :=
  Except.mapError fun e => .analysis (.parameters e)

/-! ## Settings of the commands -/

/-- An exploration of an operational domain. -/
structure DomainSettings where
  options : DomainOptions Float
  strategy : Strategy

/-- An assessment of stability margins. -/
structure StabilitySettings where
  parameters : Parameters Float
  /-- Decimal places of distances. -/
  places : Nat

namespace Job.File

/-- The job file of a command from its text, if there is one. -/
def load (path : String) : Option String → Except CommandError File
  | none => .error (.unreadable path)
  | some text =>
    match File.parse text with
    | none => .error (.malformed path)
    | some f => .ok f

/-- The layout: its cells, then its defects, each in the order of the file. -/
def buildLayout (f : File) : Except CommandError (Layout Float) :=
  match f.layout with
  | none => .error (.config .noLayout)
  | some s =>
    let bare := Layout.ofCells (s.lattice.getD .si100) s.cells
    let l := s.defects.foldl (fun l (site, d) => l.placeDefect site d.complete) bare
    .ok ((s.globalPotential.map l.setGlobalPotential).getD l)

/-- The truth tables, up to the first that cannot be read. -/
def tables (f : File) : Except CommandError (List TruthTable) := do
  let texts ← needed "operational.truth-tables" (f.gate.bind (·.truthTables))
  texts.mapM fun s => (TruthTable.parse s).mapError fun e => .config (.truthTable s e)

/-- The physical parameters, checked. -/
def parameters (f : File) (a : JobArguments) : Except CommandError (Parameters Float) := do
  let p := f.simulation.getD default
  let p : Parameters Float :=
    { base := a.base.getD p.base
      epsilonR := a.epsilonR.getD p.epsilonR
      lambdaTF := a.lambdaTF.getD p.lambdaTF
      muMinus := a.muMinus.getD p.muMinus }
  ofParameters p.check
  return p

/-- The options of a gate check. -/
def gateOptions (f : File) (a : JobArguments) (engine : Option Engine) :
    Except CommandError (GateOptions Float) := do
  let window : PairWindow Float := default
  return {
    parameters := ← f.parameters a
    engine := (engine.or (f.gate.bind (·.engine))).getD default
    window :=
      ⟨(f.gate.bind (·.minimumDistance)).getD window.minimum,
        (f.gate.bind (·.maximumDistance)).getD window.maximum⟩ }

/-- The settings of a gate check. -/
def operational (f : File) (a : OperationalArguments) : Except CommandError (GateOptions Float) :=
  f.gateOptions a.job a.engine

/-- The strategy of an exploration, with the numbers it needs. -/
def strategy (f : File) (a : DomainArguments) : Except CommandError Strategy :=
  let samples := needed "samples" (a.samples.or (f.domain.bind (·.samples)))
  match (a.strategy.or (f.domain.bind (·.strategy))).getD .gridSearch with
  | .gridSearch => .ok .gridSearch
  | .randomSampling => samples.map .randomSampling
  | .contourTracing => samples.map .contourTracing
  | .floodFill => do
    let seeds ← needed "seeds" (a.seeds.or (f.domain.bind (·.seeds)))
    return .floodFill seeds ((a.neighborhood.or (f.domain.bind (·.neighborhood))).getD .moore)

/-- The settings of an exploration; the engine is that of the file. -/
def exploration (f : File) (a : DomainArguments) : Except CommandError DomainSettings := do
  let gate ← f.gateOptions a.job none
  let xAxis ← needed "domain.x-axis" (f.domain.bind (·.xAxis))
  let yAxis ← needed "domain.y-axis" (f.domain.bind (·.yAxis))
  let options ← ofSetup <| DomainOptions.ofGiven
    { parameters := some gate.parameters
      engine := some gate.engine
      window := some gate.window
      xAxis := some xAxis
      yAxis := some yAxis }
  return ⟨options, ← f.strategy a⟩

/-- The settings of a defect scan, its defect checked. -/
def defectScan (f : File) (a : JobArguments) : Except CommandError (ScanOptions Float) := do
  let given : PartialDefect := ((f.scan.bind (·.defect)).getD ⟨none, none, none⟩)
  let options ← ofSetup <| ScanOptions.ofGiven
    { parameters := some (← f.parameters a)
      defect := some given.complete
      area := f.scan.bind (·.area) }
  ofParameters options.defect.check
  return options

/-- The settings of stability margins. -/
def margins (f : File) (a : StabilityArguments) : Except CommandError StabilitySettings := do
  return ⟨← f.parameters a.job, (a.places.or (f.stability.bind (·.places))).getD 2⟩

end Job.File

end DanglingBonds
