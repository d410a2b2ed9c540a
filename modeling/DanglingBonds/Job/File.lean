/-
# Job files

A job file describes a layout and options for the analyses of it, in TOML. Each section is optional
until an analysis needs it. A section may also be written as an array of its values in order; then
only values at the end that have defaults may be left out.
-/
import DanglingBonds.DefectInfluence
import DanglingBonds.Domain.FloodFill
import DanglingBonds.Toml.Parser

namespace DanglingBonds.Job

open DanglingBonds.Toml (Value)

/-! ## Sections -/

/-- A defect whose parameters may be left out. -/
structure PartialDefect where
  charge : Option Float
  epsilonR : Option Float
  lambdaTF : Option Float

/-- The defect with defaults for what is left out. -/
def PartialDefect.complete (p : PartialDefect) : Defect Float :=
  let d : Defect Float := default
  ⟨p.charge.getD d.charge, p.epsilonR.getD d.epsilonR, p.lambdaTF.getD d.lambdaTF⟩

/-- The cells and defects of a job. -/
structure LayoutSection where
  lattice : Option Lattice
  cells : List (Site × Option Role)
  defects : List (Site × PartialDefect)
  globalPotential : Option Float

/-- The truth tables of a gate and how it is checked. -/
structure GateSection where
  engine : Option Engine
  truthTables : Option (List String)
  minimumDistance : Option Float
  maximumDistance : Option Float

/-- The name of an exploration strategy, without its numbers. -/
inductive StrategyName where
  | gridSearch
  | randomSampling
  | floodFill
  | contourTracing
  deriving DecidableEq, Repr

/-- The axes of a domain and how it is explored. -/
structure DomainSection where
  strategy : Option StrategyName
  samples : Option Nat
  seeds : Option Nat
  neighborhood : Option Neighborhood
  xAxis : Option (SweepAxis Float)
  yAxis : Option (SweepAxis Float)

/-- A defect and the area in which it is tried. -/
structure ScanSection where
  defect : Option PartialDefect
  area : Option ScanningArea

/-- How stability margins are shown. -/
structure StabilitySection where
  places : Option Nat

/-- The contents of a job file. -/
structure File where
  layout : Option LayoutSection := none
  simulation : Option (Parameters Float) := none
  gate : Option GateSection := none
  domain : Option DomainSection := none
  scan : Option ScanSection := none
  stability : Option StabilitySection := none

/-! ## Values of fields -/

/-- Reads a TOML value as a field; nothing if the value has the wrong type or is out of range. -/
abbrev FieldReader (β : Type) := Value → Option β

/-- An integer within bounds. -/
def readIntWithin (lo hi : Int) : FieldReader Int
  | .integer i => if lo ≤ i ∧ i ≤ hi then some i else none
  | _ => none

/-- A coordinate has 64 bits. -/
def readInt : FieldReader Int :=
  readIntWithin (-Int.pow 2 63) (Int.pow 2 63 - 1)

/-- A natural number up to a bound. -/
def readNat (hi : Nat) : FieldReader Nat := fun v =>
  (readIntWithin 0 hi v).map Int.toNat

/-- The largest natural numbers of 8, 32 and 64 bits. -/
def max8 : Nat := Nat.pow 2 8 - 1

def max32 : Nat := Nat.pow 2 32 - 1

def max64 : Nat := Nat.pow 2 64 - 1

/-- A float; an integer of 64 bits, with or without a sign, stands for one. -/
def readFloat : FieldReader Float
  | .float x => some x
  | v => (readIntWithin (-Int.pow 2 63) (Int.pow 2 64 - 1) v).map Float.ofInt

def readText : FieldReader String
  | .string s => some s
  | _ => none

/-- A list of values of one kind. -/
def readList {β : Type} (item : FieldReader β) : FieldReader (List β)
  | .array vs => vs.mapM item
  | _ => none

/-- A name out of a list. A name may also be the only key of a table without contents. -/
def readName {β : Type} (names : List (String × β)) : FieldReader β
  | .string s => Toml.lookup? s names
  | .table [(s, .table [])] => Toml.lookup? s names
  | .table [(s, .array [])] => Toml.lookup? s names
  | _ => none

def latticeNames : List (String × Lattice) :=
  [("si100", .si100), ("si111", .si111)]

def roleNames : List (String × Option Role) :=
  [("normal", some .normal), ("input", some .input), ("output", some .output), ("empty", none)]

def engineNames : List (String × Engine) :=
  [("quick-exact", .quickExact), ("exhaustive", .exhaustive)]

def strategyNames : List (String × StrategyName) :=
  [("grid-search", .gridSearch), ("random-sampling", .randomSampling),
    ("flood-fill", .floodFill), ("contour-tracing", .contourTracing)]

def neighborhoodNames : List (String × Neighborhood) :=
  [("von-neumann", .vonNeumann), ("moore", .moore)]

def sweepParameterNames : List (String × SweepParameter) :=
  [("epsilon-r", .epsilonR), ("lambda-tf", .lambdaTF), ("mu-minus", .muMinus)]

/-! ## Records -/

/-- The fields given for a record. -/
structure Record where
  get? : String → Option Value
  /-- Whether the fields are given by position. -/
  positional : Bool

/-- The record that a table or an array stands for. `names` are its keys in order; a strict record
has no others. -/
def readRecord (names : List String) (strict : Bool) : FieldReader Record
  | .table entries =>
    if strict && entries.any fun e => !names.contains e.1 then none
    else some ⟨fun k => Toml.lookup? k entries, false⟩
  | .array vs => some ⟨fun k => Toml.lookup? k (names.zip vs), true⟩
  | _ => none

namespace Record

variable {β : Type}

/-- A field that has to be given. -/
def required (r : Record) (key : String) (read : FieldReader β) : Option β :=
  (r.get? key).bind read

/-- A field that may be left out, unless fields are given by position. -/
def optional (r : Record) (key : String) (read : FieldReader β) : Option (Option β) :=
  match r.get? key with
  | some v => (read v).map some
  | none => if r.positional then none else some none

/-- A field with a default. -/
def withDefault (r : Record) (key : String) (d : β) (read : FieldReader β) : Option β :=
  match r.get? key with
  | some v => read v
  | none => some d

end Record

/-! ## Reading sections -/

/-- The coordinates of a site, which belong to a larger record. -/
def readSite (r : Record) : Option Site := do
  return ⟨← r.required "x" readInt, ← r.required "y" readInt, ← r.required "z" (readNat max8)⟩

def readCell : FieldReader (Site × Option Role) := fun v => do
  let r ← readRecord ["x", "y", "z", "role"] true v
  return (← readSite r, ← r.withDefault "role" (some .normal) (readName roleNames))

/-- The parameters of a defect, which may belong to a larger record. -/
def readPartialDefect (r : Record) : Option PartialDefect := do
  return ⟨← r.optional "charge" readFloat, ← r.optional "epsilon-r" readFloat,
    ← r.optional "lambda-tf" readFloat⟩

def readPlacedDefect : FieldReader (Site × PartialDefect) := fun v => do
  let r ← readRecord ["x", "y", "z", "charge", "epsilon-r", "lambda-tf"] true v
  return (← readSite r, ← readPartialDefect r)

def readLayoutSection : FieldReader LayoutSection := fun v => do
  let r ← readRecord ["lattice", "cells", "defects", "global-external-potential"] true v
  return {
    lattice := ← r.optional "lattice" (readName latticeNames)
    cells := ← r.withDefault "cells" [] (readList readCell)
    defects := ← r.withDefault "defects" [] (readList readPlacedDefect)
    globalPotential := ← r.optional "global-external-potential" readFloat }

/-- Physical parameters; each has a default. -/
def readParameters : FieldReader (Parameters Float) := fun v => do
  let r ← readRecord ["base", "epsilon-r", "lambda-tf", "mu-minus"] true v
  let d : Parameters Float := default
  return {
    base := ← r.withDefault "base" d.base (readNat max8)
    epsilonR := ← r.withDefault "epsilon-r" d.epsilonR readFloat
    lambdaTF := ← r.withDefault "lambda-tf" d.lambdaTF readFloat
    muMinus := ← r.withDefault "mu-minus" d.muMinus readFloat }

def readGateSection : FieldReader GateSection := fun v => do
  let r ← readRecord ["engine", "truth-tables", "bdl-minimum-distance", "bdl-maximum-distance"]
    true v
  return {
    engine := ← r.optional "engine" (readName engineNames)
    truthTables := ← r.optional "truth-tables" (readList readText)
    minimumDistance := ← r.optional "bdl-minimum-distance" readFloat
    maximumDistance := ← r.optional "bdl-maximum-distance" readFloat }

def readAxis : FieldReader (SweepAxis Float) := fun v => do
  let r ← readRecord ["parameter", "min", "max", "step"] false v
  return {
    parameter := ← r.required "parameter" (readName sweepParameterNames)
    min := ← r.required "min" readFloat
    max := ← r.required "max" readFloat
    step := ← r.required "step" readFloat }

def readDomainSection : FieldReader DomainSection := fun v => do
  let r ← readRecord ["strategy", "samples", "seeds", "neighborhood", "x-axis", "y-axis"] true v
  return {
    strategy := ← r.optional "strategy" (readName strategyNames)
    samples := ← r.optional "samples" (readNat max64)
    seeds := ← r.optional "seeds" (readNat max64)
    neighborhood := ← r.optional "neighborhood" (readName neighborhoodNames)
    xAxis := ← r.optional "x-axis" readAxis
    yAxis := ← r.optional "y-axis" readAxis }

def readArea : FieldReader ScanningArea := fun v => do
  let r ← readRecord ["columns", "dimer-rows"] false v
  return ⟨← r.required "columns" readInt, ← r.required "dimer-rows" readInt⟩

def readScanSection : FieldReader ScanSection := fun v => do
  let r ← readRecord ["defect", "scanning-area"] true v
  let defect : FieldReader PartialDefect := fun v => do
    readPartialDefect (← readRecord ["charge", "epsilon-r", "lambda-tf"] true v)
  return ⟨← r.optional "defect" defect, ← r.optional "scanning-area" readArea⟩

def readStabilitySection : FieldReader StabilitySection := fun v => do
  let r ← readRecord ["precision"] true v
  return ⟨← r.optional "precision" (readNat max32)⟩

/-- A whole file: a table of its sections. -/
def readFile : FieldReader File := fun v => do
  let r ← readRecord
    ["layout", "simulation", "operational", "domain", "defect-influence", "stability"] true v
  return {
    layout := ← r.optional "layout" readLayoutSection
    simulation := ← r.optional "simulation" readParameters
    gate := ← r.optional "operational" readGateSection
    domain := ← r.optional "domain" readDomainSection
    scan := ← r.optional "defect-influence" readScanSection
    stability := ← r.optional "stability" readStabilitySection }

/-- The job file that a text stands for. -/
def File.parse (s : String) : Option File := do
  readFile (.table (← Toml.parse s))

end DanglingBonds.Job

namespace DanglingBonds

/-- Why a file of parameters cannot be used. -/
inductive ParameterFileError where
  | unreadable
  | malformed
  | refused (cause : ParameterError Float)

/-- Checked parameters from the text of a file, if there is one. -/
def Parameters.ofFile (text : Option String) : Except ParameterFileError (Parameters Float) :=
  match text with
  | none => .error .unreadable
  | some s =>
    match (Toml.parse s).bind fun entries => Job.readParameters (.table entries) with
    | none => .error .malformed
    | some p => (p.check.mapError .refused).map fun _ => p

end DanglingBonds
