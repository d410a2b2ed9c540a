/-
# Transcripts

What a command does besides computing: it prints lines and writes files. A transcript is the list of
these effects and how the command ended, and it can be performed on any console.

* `Transcript.perform` : the effects in order, up to the first file that cannot be written.
-/
import DanglingBonds.Command.Settings
import DanglingBonds.Text.Records

namespace DanglingBonds

/-- Something a command does. -/
inductive Effect where
  | print (line : String)
  /-- Prints a line with the time that the analysis took between two texts. -/
  | printTimed (before after : String)
  | write (path : String) (records : List (List String))

/-- The effects of a command, and the error that ends it, if there is one. -/
structure Transcript where
  effects : List Effect
  outcome : Except CommandError Unit

/-- A part of a command that adds to the effects before it. -/
abbrev Script := EStateM CommandError (Array Effect)

namespace Script

/-- Adds an effect. -/
def perform (e : Effect) : Script Unit :=
  modify (·.push e)

def print (line : String) : Script Unit :=
  perform (.print line)

def printTimed (before after : String) : Script Unit :=
  perform (.printTimed before after)

def write (path : String) (records : List (List String)) : Script Unit :=
  perform (.write path records)

/-- A result that a command needs to go on. -/
def need {β : Type} : Except CommandError β → Script β
  | .ok b => pure b
  | .error e => throw e

/-- The transcript of a whole command. -/
def transcript (s : Script Unit) : Transcript :=
  match s.run #[] with
  | .ok () effects => ⟨effects.toList, .ok ()⟩
  | .error e effects => ⟨effects.toList, .error e⟩

end Script

/-- Where a transcript takes effect. -/
structure Console (m : Type → Type) where
  printLine : String → m Unit
  /-- Writes a file and says whether that was possible. -/
  writeFile : (path text : String) → m Bool
  /-- The text of the time that the analysis took. -/
  elapsed : String

/-- Performs effects in order, up to a file that cannot be written. -/
def Effect.performAll {m : Type → Type} [Monad m] (c : Console m)
    (outcome : Except CommandError Unit) : List Effect → m (Except CommandError Unit)
  | [] => pure outcome
  | .print line :: rest => do
    c.printLine line
    performAll c outcome rest
  | .printTimed before after :: rest => do
    c.printLine (before ++ c.elapsed ++ after)
    performAll c outcome rest
  | .write path records :: rest => do
    if ← c.writeFile path (Records.text records) then performAll c outcome rest
    else pure (.error (.unwritable path))

/-- Performs a transcript and says how it ended. -/
def Transcript.perform {m : Type → Type} [Monad m] (t : Transcript) (c : Console m) :
    m (Except CommandError Unit) :=
  Effect.performAll c t.outcome t.effects

end DanglingBonds
