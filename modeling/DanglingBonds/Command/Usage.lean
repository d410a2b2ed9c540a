/-
# The syntax of command lines

Options with long and short names, flags that may stand together behind one hyphen, values attached
or apart, and one subcommand. A value that stands apart is only checked when the next option or the
end of its part of the command line is reached, so an unknown option in between is reported first.
-/
import DanglingBonds.Decimal.Reading

namespace DanglingBonds

/-- What is wrong with a command line, or that it asks for a help text instead of a job. -/
inductive UsageError where
  | unknownArgument
  | missingRequiredArgument
  | invalidValue
  | valueValidation
  | argumentConflict
  | tooManyValues
  | invalidSubcommand
  | missingSubcommand
  | displayHelp
  | displayVersion
  | displayHelpOnMissingArgument
  deriving DecidableEq, Repr

/-- The text shown to the user. -/
def UsageError.message : UsageError → String
  | unknownArgument => "unexpected argument"
  | missingRequiredArgument => "a required argument is missing"
  | invalidValue => "an option has no value, or one it does not take"
  | valueValidation => "the value of an option cannot be read or is out of range"
  | argumentConflict => "an argument is repeated or excludes another one"
  | tooManyValues => "a value is given to an option that takes none"
  | invalidSubcommand => "unrecognized subcommand"
  | missingSubcommand => "a subcommand is required"
  | displayHelp | displayHelpOnMissingArgument =>
    "commands: simulate, operational, domain, defect-influence, stability"
  | displayVersion => "exact simulation of dangling bond logic"

namespace Usage

/-- What an option's value has to be. -/
inductive ValueKind where
  | path
  /-- An integer from zero to a bound. -/
  | bounded (hi : Nat)
  /-- A natural number of 64 bits, without a minus sign. -/
  | size
  | real
  | choice (names : List String)

/-- What an option does. -/
inductive Action where
  /-- Given once at most. -/
  | flag
  /-- Counts how often it is given. -/
  | count
  /-- Takes a value; with `hyphens` the value may start with a hyphen. -/
  | value (kind : ValueKind) (hyphens : Bool)
  | help
  | version

/-- An option with its names. -/
structure OptionSpec where
  long : String
  short : Option Char
  action : Action

/-- The value of an integer option, if it is one up to `hi`. -/
def readBounded? (hi : Nat) (s : String) : Option Nat :=
  match Decimal.readInt? s.toList with
  | some i => if 0 ≤ i ∧ i ≤ hi then some i.toNat else none
  | none => none

/-- The value of a size option. -/
def readSize? (s : String) : Option Nat :=
  if s.toList.head? = some '-' then none else readBounded? (Nat.pow 2 64 - 1) s

/-- Whether a text is a value of a kind. -/
def ValueKind.check (kind : ValueKind) (s : String) : Except UsageError Unit :=
  let ok (b : Bool) (e : UsageError) : Except UsageError Unit := if b then .ok () else .error e
  match kind with
  | path => ok (!s.isEmpty) .invalidValue
  | bounded hi => ok (readBounded? hi s).isSome .valueValidation
  | size => ok (readSize? s).isSome .valueValidation
  | real => ok (Decimal.readFloat? s).isSome .valueValidation
  | choice names => ok (names.contains s) .invalidValue

/-- How far a part of the command line has been read. -/
structure State where
  /-- Names and values of the options accepted, in order. -/
  given : List (String × String) := []
  /-- An option whose value stands apart, and the value once it has been read. -/
  pending : Option (OptionSpec × Option String) := none
  /-- Whether only positional arguments may follow. -/
  trailing : Bool := false

namespace State

/-- Whether an option has been accepted before. -/
def isGiven (s : State) (name : String) : Bool :=
  s.given.any (·.1 == name)

/-- The option that waits for its value. -/
def awaiting? (s : State) : Option OptionSpec :=
  match s.pending with
  | some (spec, none) => some spec
  | _ => none

/-- Accepts the value of an option. -/
def accept (s : State) (spec : OptionSpec) (v : String) : Except UsageError State := do
  if s.isGiven spec.long then throw .argumentConflict
  match spec.action with
  | .value kind _ => kind.check v
  | _ => pure ()
  return { s with given := s.given ++ [(spec.long, v)] }

/-- Accepts the pending value, if there is one. -/
def settle (s : State) : Except UsageError State :=
  match s.pending with
  | none => .ok s
  | some (_, none) => .error .invalidValue
  | some (spec, some v) => ({ s with pending := none } : State).accept spec v

/-- Takes up an option, with the value attached to it. -/
def take (s : State) (spec : OptionSpec) (attached : Option String) : Except UsageError State :=
  match spec.action, attached with
  | .value .., some v => do (← s.settle).accept spec v
  | .value .., none => do return { ← s.settle with pending := some (spec, none) }
  | _, some _ => .error .tooManyValues
  | .flag, none => do (← s.settle).accept spec ""
  | .count, none => do
    let s ← s.settle
    return { s with given := s.given ++ [(spec.long, "")] }
  | .help, none => do let _ ← s.settle; throw .displayHelp
  | .version, none => do let _ ← s.settle; throw .displayVersion

/-- Takes up an option by its long name, with an equals sign before an attached value. -/
def takeLong (s : State) (specs : List OptionSpec) (cs : List Char) : Except UsageError State :=
  let name := String.ofList (cs.takeWhile (· != '='))
  match specs.find? (·.long == name) with
  | none => .error .unknownArgument
  | some spec =>
    match cs.dropWhile (· != '=') with
    | _ :: v => s.take spec (some (String.ofList v))
    | [] => s.take spec none

/-- Takes up the options of a cluster of short names. What stands behind the name of an option with
a value is its value, with or without an equals sign. -/
def takeShort (specs : List OptionSpec) : State → List Char → Except UsageError State
  | s, [] => .ok s
  | s, c :: cs =>
    match specs.find? (·.short == some c) with
    | none => .error .unknownArgument
    | some spec =>
      match spec.action, cs with
      | .value .., [] => s.take spec none
      | .value .., '=' :: v => s.take spec (some (String.ofList v))
      | .value .., v => s.take spec (some (String.ofList v))
      | _, _ => do takeShort specs (← s.take spec none) cs

end State

/-- A part of the command line: the program's own options, or those of a subcommand. -/
structure Level where
  specs : List OptionSpec
  subcommands : List String

/-- What an argument may be. -/
inductive Shape where
  | escape
  | long (cs : List Char)
  | short (cs : List Char)
  | plain

/-- A hyphen alone is a value, two of them end the options. -/
def shape (arg : String) : Shape :=
  match arg.toList with
  | ['-', '-'] => .escape
  | '-' :: '-' :: cs => .long cs
  | ['-'] => .plain
  | '-' :: cs => .short cs
  | _ => .plain

/-- The error for an argument that is no option and no value. -/
def Level.unexpected (l : Level) (trailing : Bool) (arg : String) : UsageError :=
  if l.subcommands.isEmpty then .unknownArgument
  else if trailing && l.subcommands.contains arg then .unknownArgument
  else .invalidSubcommand

/-- Reads one part of the command line, up to the name of a subcommand. Returns what was read, and
the subcommand with the arguments behind it. -/
def Level.scan (l : Level) : State → List String →
    Except UsageError (State × Option (String × List String))
  | s, [] => .ok (s, none)
  | s, arg :: rest =>
    if s.trailing then .error (l.unexpected true arg)
    else
      match s.awaiting? with
      | some spec =>
        let value : State := { s with pending := some (spec, some arg) }
        let hyphens :=
          match spec.action with
          | .value _ h => h
          | _ => false
        match shape arg with
        | .plain => l.scan value rest
        | .escape => if hyphens then l.scan value rest else l.scan { s with trailing := true } rest
        | .long cs =>
          if hyphens then l.scan value rest
          else do l.scan (← s.takeLong l.specs cs) rest
        | .short cs =>
          if hyphens then l.scan value rest
          else do l.scan (← State.takeShort l.specs s cs) rest
      | none =>
        if l.subcommands.contains arg then .ok (s, some (arg, rest))
        else
          match shape arg with
          | .plain => .error (l.unexpected false arg)
          | .escape => l.scan { s with trailing := true } rest
          | .long cs => do l.scan (← s.takeLong l.specs cs) rest
          | .short cs => do l.scan (← State.takeShort l.specs s cs) rest

end Usage

end DanglingBonds
