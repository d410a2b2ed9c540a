/-
# Progress events

What a long analysis reports while it runs: one phase with one task, and a tick for each step done.
The events are part of the state of the analysis, so they outlive a failure.
-/
namespace DanglingBonds

/-- A report of a running analysis. -/
inductive Event where
  | phaseStart (name : String)
  | taskStart (total : Nat)
  | taskIncrement
  | taskFinish
  | phaseFinish
  deriving DecidableEq, Repr

/-- A state that keeps the events reported so far, in order. -/
class EventLog (σ : Type) where
  events : σ → List Event
  report : σ → Event → σ
  events_report : ∀ s e, events (report s e) = events s ++ [e]

/-- A list of events, each put at the end. -/
instance : EventLog (List Event) where
  events s := s
  report s e := s ++ [e]
  events_report _ _ := rfl

section Steps

variable {ε σ β : Type} [EventLog σ]

/-- Reports an event. -/
def report (e : Event) : EStateM ε σ Unit :=
  modify fun s => EventLog.report s e

/-- Reports that one step is done. -/
def tick : EStateM ε σ Unit :=
  report .taskIncrement

/-- Opens a phase with one task, carries out the task and closes both, also when the task fails. -/
def task (name : String) (total : Nat) (body : EStateM ε σ β) : EStateM ε σ β := do
  report (.phaseStart name)
  report (.taskStart total)
  tryFinally body do
    report .taskFinish
    report .phaseFinish

end Steps

/-- The outcome of an analysis and what it reported, in order. -/
structure Reported (ε β : Type) where
  outcome : Except ε β
  events : List Event

/-- What a run of an analysis came to. -/
def Reported.ofResult {ε σ β : Type} [EventLog σ] : EStateM.Result ε σ β → Reported ε β
  | .ok b s => ⟨.ok b, EventLog.events s⟩
  | .error e s => ⟨.error e, EventLog.events s⟩

/-- An analysis that is refused before it starts reports nothing. -/
def Reported.refused {ε β : Type} (e : ε) : Reported ε β :=
  ⟨.error e, []⟩

/-- An analysis that ends before it has anything to report. -/
def Reported.immediate {ε β : Type} (b : β) : Reported ε β :=
  ⟨.ok b, []⟩

end DanglingBonds
