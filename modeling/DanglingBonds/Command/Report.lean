/-
# Reports

What each command prints and writes about its analysis.

* `Command.report` : the transcript of a command, given the text of its job file.
-/
import DanglingBonds.Command.Transcript
import DanglingBonds.Occupation
import DanglingBonds.StabilityMargin
import DanglingBonds.Text.Columns

namespace DanglingBonds

/-! ## Texts of values -/

/-- Energies, distances and probabilities are printed with six decimals. -/
def sixPlaces (x : Float) : String :=
  Decimal.fixed 6 x

/-- An input combination in binary digits. -/
def combinationText (index : Nat) : String :=
  "0b" ++ String.ofList (Nat.toDigits 2 index)

/-- The reason as it is printed. -/
def FailureReason.text : FailureReason → String
  | positiveCharges => "PositiveCharges"
  | noValidDistribution => "NoValidDistribution"
  | degenerateGroundState => "DegenerateGroundState"
  | undefinedOutput i => s!"UndefinedOutput \x7b output: {Decimal.natText i} \x7d"
  | wrongOutput i => s!"WrongOutput \x7b output: {Decimal.natText i} \x7d"

/-- A distance; none is infinitely far. -/
def distanceText (places : Nat) : Option Float → String
  | some d => Decimal.fixed places d
  | none => Decimal.infinityText false

/-- A time of `ns` nanoseconds in the largest unit that keeps it at least one. -/
def timeText (ns : Nat) : String :=
  let decimals (unit : Nat) := Decimal.pointed (Decimal.roundDiv (ns * 1000) unit) 3
  if 1000000000 ≤ ns then decimals 1000000000 ++ "s"
  else if 1000000 ≤ ns then decimals 1000000 ++ "ms"
  else if 1000 ≤ ns then decimals 1000 ++ "µs"
  else decimals 1 ++ "ns"

/-! ## Enumeration of charge assignments -/

namespace Simulation

variable {n : Nat}

/-- The number of assignments, and if there are any the ground state and the levels. -/
def summarize (r : Simulation Float n) : Script Unit := do
  let found := Decimal.natText r.distributions.length
  .printTimed s!"{r.engine.name} found {found} valid charge distribution(s) in " "."
  .print s!"  base_number: {Decimal.natText r.base}"
  match r.groundState? with
  | none => return
  | some ground =>
    let suffix := if r.spectrum.isDegenerate then " (degenerate)" else ""
    .print
      s!"Ground state: {chargeText ground.charges.toList} at {sixPlaces ground.energy} eV{suffix}"
    for (energy, count) in r.spectrum.levels do
      .print s!"  {alignRight 12 (sixPlaces energy)} eV  x{Decimal.natText count}"

/-- A record for each assignment: its energy, its charges, and the sign of each cell. The header
names the cells if there is an assignment. -/
def records (r : Simulation Float n) : List (List String) :=
  let sites := (r.distributions.head?.map fun s => s.env.sites.toList.map Site.text).getD []
  (["energy", "charges"] ++ sites) ::
    r.distributions.map fun s =>
      let charges := s.charges.toList
      [sixPlaces s.energy, chargeText charges] ++ charges.map fun c => Decimal.intText c.sign

end Simulation

namespace SimulateArguments

/-- All valid charge assignments by ascending energy. -/
def simulation (a : SimulateArguments) (l : Layout Float) (p : Parameters Float) :
    Except (AnalysisError Float) (Simulation Float l.size) :=
  (match a.engine with
    | .quickExact => l.enumeratePruned p a.detection
    | .exhaustive => l.enumerateAll p).map Simulation.sortByEnergy

/-- The charge assignments, and on request the probability of excited ones and a file of all. -/
def report (a : SimulateArguments) (f : Job.File) : Script Unit := do
  let l ← .need f.buildLayout
  let p ← .need (f.parameters a.job)
  let r ← .need (ofAnalysis (a.simulation l p))
  r.summarize
  if let some t := a.temperature then
    let probability ← .need (ofSetup (excitedProbability r.spectrum t))
    .print
      s!"Probability of an excited state at {Decimal.shortest t} K: {sixPlaces probability}"
  if let some path := a.output then
    .write path r.records
    .print s!"✓ Charge distributions written to: {path}"

end SimulateArguments

/-! ## Gates -/

/-- The probability of an erroneous output for every input combination. -/
def Layout.reportErroneous (l : Layout Float) (tables : List TruthTable) (o : GateOptions Float)
    (t : Float) : Script Unit := do
  let outputs := l.pairs (some .output) o.window
  .print s!"Probability of an erroneous output at {Decimal.shortest t} K:"
  for (index, input) in (InputTerminals.ofLayout l o.window).all do
    let r ← .need (ofAnalysis (input.simulate o.engine o.parameters))
    let states ← .need (ofAnalysis (r.stateEnergies outputs tables index))
    let probability ← .need (ofSetup (erroneousProbability states t))
    .print s!"  input {combinationText index}: {sixPlaces probability}"

/-- The verdict on a gate, and on request the probability of errors. -/
def OperationalArguments.report (a : OperationalArguments) (f : Job.File) : Script Unit := do
  let l ← .need f.buildLayout
  let tables ← .need f.tables
  let o ← .need (f.operational a)
  let verdict ← .need (ofAnalysis (l.assess tables o))
  let simulations := Decimal.natText verdict.simulations
  .print s!"Layout is {verdict.status.name} ({simulations} simulator invocation(s))."
  if let some (index, reason) := verdict.failure then
    .print s!"  First failing input combination {combinationText index}: {reason.text}"
  if let some t := a.temperature then
    l.reportErroneous tables o t

/-! ## Operational domains -/

/-- How many points were evaluated, and how many of them are operational. -/
def Survey.summarize (s : Survey) : Script Unit := do
  .printTimed s!"Evaluated {Decimal.natText s.statuses.size} parameter point(s) in "
    s!" with {Decimal.natText s.simulations} simulator invocation(s)."
  let operational := Decimal.natText (s.count .operational)
  let nonOperational := Decimal.natText (s.count .nonOperational)
  .print s!"  operational: {operational}, non-operational: {nonOperational}"

/-- A record for each evaluated point: the two swept values and the status. -/
def DomainOptions.records (o : DomainOptions Float) (s : Survey) : List (List String) :=
  [o.xAxis.parameter.name, o.yAxis.parameter.name, "status"] ::
    s.statuses.entries.map fun (p, status) =>
      [Decimal.shortest (o.xAxis.value p.x), Decimal.shortest (o.yAxis.value p.y), status.name]

/-- The size of a domain, and on request a file of its points. -/
def DomainArguments.report (a : DomainArguments) (f : Job.File) (draws : DrawSource) :
    Script Unit := do
  let l ← .need f.buildLayout
  let tables ← .need f.tables
  let e ← .need (f.exploration a)
  let survey ← .need (ofAnalysis (l.exploreDomain tables e.strategy e.options draws).outcome)
  survey.summarize
  if let some path := a.output then
    .write path (e.options.records survey)
    .print s!"✓ Operational domain written to: {path}"

/-! ## Defects and stability -/

/-- The farthest position of a defect that influences the layout. -/
def reportDefectInfluence (a : JobArguments) (f : Job.File) : Script Unit := do
  let l ← .need f.buildLayout
  let o ← .need (f.defectScan a)
  let scan ← .need (ofAnalysis (l.scanDefect o).outcome)
  .printTimed s!"Evaluated {Decimal.natText scan.positions} defect position(s) in "
    s!" with {Decimal.natText scan.simulations} simulator invocation(s)."
  let farthest := scan.farthest
  .print <|
    if 0 < farthest.distance then
      s!"Farthest influential defect position: {farthest.position.text} at " ++
        s!"{sixPlaces farthest.distance} nm"
    else "No defect position within the scanning area influences the layout."

/-- A line of the table of margins. -/
def marginLine (rank energy site transition difference distance : String) : String :=
  s!"{alignRight 4 rank}  {alignRight 12 energy}  {alignLeft 14 site} {alignLeft 7 transition}  " ++
    s!"{alignRight 12 difference}  {alignRight 10 distance}"

/-- A table of the stability margins. -/
def StabilityArguments.report (a : StabilityArguments) (f : Job.File) : Script Unit := do
  let l ← .need f.buildLayout
  let o ← .need (f.margins a)
  let margins ← .need (ofAnalysis (l.stabilityMargins o.parameters o.places))
  if margins.isEmpty then
    .print "No physically valid charge distribution found."
  else
    .print (marginLine "#" "energy (eV)" "critical cell" "change" "margin (eV)" "dist (nm)")
    for (m, rank) in margins.zipIdx do
      .print (marginLine (Decimal.natText rank) (sixPlaces m.energy) m.site.text m.transition.text
        (sixPlaces m.difference) (distanceText o.places m.distance))

/-! ## All commands -/

/-- The transcript of a command, from the text of its job file, if there is one, and the draws that
are made. -/
def Command.report (c : Command) (text : Option String) (draws : DrawSource) : Transcript :=
  Script.transcript do
    let f ← .need (Job.File.load c.job.config text)
    match c with
    | .simulate a => a.report f
    | .operational a => a.report f
    | .domain a => a.report f draws
    | .defectInfluence a => reportDefectInfluence a f
    | .stability a => a.report f

end DanglingBonds
