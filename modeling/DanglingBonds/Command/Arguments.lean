/-
# Arguments

The commands of the program and their options, read from the command line.
-/
import DanglingBonds.Command.Usage
import DanglingBonds.Enumeration
import DanglingBonds.Job.File

namespace DanglingBonds

open Usage

/-- The job file, and the physical parameters that replace those of the file. -/
structure JobArguments where
  config : String
  base : Option Nat := none
  epsilonR : Option Float := none
  lambdaTF : Option Float := none
  muMinus : Option Float := none

/-- Arguments of the enumeration of charge assignments. -/
structure SimulateArguments where
  job : JobArguments
  engine : Engine
  /-- Whether the pruned enumeration chooses its base. -/
  detection : BaseDetection
  temperature : Option Float
  output : Option String

/-- Arguments of a gate check. -/
structure OperationalArguments where
  job : JobArguments
  engine : Option Engine
  temperature : Option Float

/-- Arguments of an exploration. -/
structure DomainArguments where
  job : JobArguments
  strategy : Option Job.StrategyName
  samples : Option Nat
  seeds : Option Nat
  neighborhood : Option Neighborhood
  output : Option String

/-- Arguments of the stability margins. -/
structure StabilityArguments where
  job : JobArguments
  places : Option Nat

/-- What the program is asked to do. -/
inductive Command where
  | simulate (args : SimulateArguments)
  | operational (args : OperationalArguments)
  | domain (args : DomainArguments)
  | defectInfluence (args : JobArguments)
  | stability (args : StabilityArguments)

/-- What every command takes. -/
def Command.job : Command → JobArguments
  | simulate a => a.job
  | operational a => a.job
  | domain a => a.job
  | defectInfluence a => a
  | stability a => a.job

/-- A whole command line. -/
structure Arguments where
  command : Command
  verbosity : Nat
  quiet : Bool
  logFile : Option String
  threads : Option Nat

/-- The least severe messages that are logged. -/
inductive LogLevel where
  | off
  | warn
  | info
  | debug
  | trace
  deriving DecidableEq, Repr

/-- Being quiet switches logging off; each mention of verbosity adds a level to warnings. -/
def Arguments.logLevel (a : Arguments) : LogLevel :=
  if a.quiet then .off
  else
    match a.verbosity with
    | 0 => .warn
    | 1 => .info
    | 2 => .debug
    | _ => .trace

/-! ## Options -/

/-- Options that every part of the command line takes. -/
def globalOptions : List OptionSpec :=
  [⟨"verbose", some 'v', .count⟩, ⟨"quiet", some 'q', .flag⟩,
    ⟨"log-file", none, .value .path false⟩, ⟨"threads", some 'j', .value .size false⟩,
    ⟨"help", some 'h', .help⟩, ⟨"version", some 'V', .version⟩]

/-- Options that every command takes. -/
def jobOptions : List OptionSpec :=
  [⟨"config", some 'c', .value .path false⟩, ⟨"base", none, .value (.bounded Job.max8) false⟩,
    ⟨"epsilon-r", none, .value .real false⟩, ⟨"lambda-tf", none, .value .real false⟩,
    ⟨"mu-minus", none, .value .real true⟩]

/-- The names of a list of choices. -/
def choices {β : Type} (names : List (String × β)) : ValueKind :=
  .choice (names.map (·.1))

/-- Options of a command besides those of the job. -/
def commandOptions : List (String × List OptionSpec) :=
  let engine : OptionSpec := ⟨"engine", some 'e', .value (choices Job.engineNames) false⟩
  let temperature : OptionSpec := ⟨"temperature", some 't', .value .real false⟩
  let output : OptionSpec := ⟨"output", some 'o', .value .path false⟩
  [("simulate", [engine, ⟨"no-base-detection", none, .flag⟩, temperature, output]),
    ("operational", [engine, temperature]),
    ("domain",
      [⟨"strategy", some 's', .value (choices Job.strategyNames) false⟩,
        ⟨"samples", none, .value .size false⟩, ⟨"seeds", none, .value .size false⟩,
        ⟨"neighborhood", none, .value (choices Job.neighborhoodNames) false⟩, output]),
    ("defect-influence", []),
    ("stability", [⟨"precision", none, .value (.bounded Job.max32) false⟩])]

/-- The part of the command line before the command. -/
def programLevel : Level :=
  ⟨globalOptions, commandOptions.map (·.1) ++ ["help"]⟩

/-- The options of a command. -/
def commandLevel (options : List OptionSpec) : Level :=
  ⟨globalOptions ++ jobOptions ++ options, []⟩

/-! ## Values -/

/-- What was given on a part of the command line. -/
abbrev Given := List (String × String)

/-- The value of an option. -/
def Given.text? (g : Given) (name : String) : Option String :=
  Toml.lookup? name g

/-- The number that is the value of an option. -/
def Given.real? (g : Given) (name : String) : Option Float :=
  (g.text? name).bind Decimal.readFloat?

/-- The natural number up to a bound that is the value of an option. -/
def Given.bounded? (g : Given) (name : String) (hi : Nat) : Option Nat :=
  (g.text? name).bind (readBounded? hi)

/-- The size that is the value of an option. -/
def Given.size? (g : Given) (name : String) : Option Nat :=
  (g.text? name).bind readSize?

/-- What the name given as the value of an option stands for. -/
def Given.choice? {β : Type} (g : Given) (name : String) (names : List (String × β)) : Option β :=
  (g.text? name).bind fun s => Toml.lookup? s names

/-- Whether an option was given. -/
def Given.has (g : Given) (name : String) : Bool :=
  (g.text? name).isSome

/-- How often an option was given, at most 255 times. -/
def Given.count (g : Given) (name : String) : Nat :=
  min (g.countP (·.1 == name)) Job.max8

/-- The arguments of a command by name. -/
def commandOfGiven (name : String) (config : String) (g : Given) : Option Command :=
  let job : JobArguments :=
    { config
      base := g.bounded? "base" Job.max8
      epsilonR := g.real? "epsilon-r"
      lambdaTF := g.real? "lambda-tf"
      muMinus := g.real? "mu-minus" }
  match name with
  | "simulate" => some <| .simulate
      { job
        engine := (g.choice? "engine" Job.engineNames).getD .quickExact
        detection := if g.has "no-base-detection" then .off else .on
        temperature := g.real? "temperature"
        output := g.text? "output" }
  | "operational" => some <| .operational
      { job
        engine := g.choice? "engine" Job.engineNames
        temperature := g.real? "temperature" }
  | "domain" => some <| .domain
      { job
        strategy := g.choice? "strategy" Job.strategyNames
        samples := g.size? "samples"
        seeds := g.size? "seeds"
        neighborhood := g.choice? "neighborhood" Job.neighborhoodNames
        output := g.text? "output" }
  | "defect-influence" => some (.defectInfluence job)
  | "stability" => some (.stability { job, places := g.bounded? "precision" Job.max32 })
  | _ => none

/-! ## Reading -/

/-- Being quiet and being verbose exclude each other on one part of the command line. -/
def checkConflicts (g : Given) : Except UsageError Unit :=
  if g.has "quiet" && g.has "verbose" then .error .argumentConflict else .ok ()

/-- A part of the command line that has been read to its end. -/
def finish (s : State) : Except UsageError Given := do
  return (← s.settle).given

/-- The answer to the subcommand for help: its arguments have to name one command at most. -/
def helpError (args : List String) : UsageError :=
  match args with
  | [] => .displayHelp
  | [name] => if programLevel.subcommands.contains name then .displayHelp else .invalidSubcommand
  | _ => .invalidSubcommand

/-- Reads the arguments of a command. -/
def readCommand (name : String) (args : List String) : Except UsageError (Command × Given) := do
  match Toml.lookup? name commandOptions with
  | none => throw (helpError args)
  | some options =>
    let (s, _) ← (commandLevel options).scan {} args
    let g ← finish s
    checkConflicts g
    match g.text? "config" with
    | none => throw .missingRequiredArgument
    | some config =>
      match commandOfGiven name config g with
      | some c => return (c, g)
      | none => throw .invalidSubcommand

/-- Reads a command line, without the program's name. What is given behind the command's name
overrides what is given before it. -/
def Arguments.read (args : List String) : Except UsageError Arguments := do
  let (s, sub) ← programLevel.scan {} args
  match sub with
  | none =>
    let g ← finish s
    throw (if g.isEmpty then .displayHelpOnMissingArgument else .missingSubcommand)
  | some (name, rest) =>
    let (command, inner) ← readCommand name rest
    let outer ← finish s
    checkConflicts outer
    return {
      command
      verbosity := if inner.has "verbose" then inner.count "verbose" else outer.count "verbose"
      quiet := inner.has "quiet" || outer.has "quiet"
      logFile := (inner.text? "log-file").or (outer.text? "log-file")
      threads := (inner.size? "threads").or (outer.size? "threads") }

end DanglingBonds
