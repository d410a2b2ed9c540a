/-
# Phases

A task opens a phase, carries out its body and closes the phase, whether the body gets through or
not. What it reports is therefore what the body reports, between the events that open and close.

* `run_task` : a task is its body between two stretches of events.
* `Reported.IsBracketed` : the events of a phase, in order.
* `isBracketed_task` : what a task reports whose body ticks and reports nothing else.
-/
import Mathlib
import DanglingBonds.Progress

namespace DanglingBonds

variable {ε σ β γ : Type}

/-- The state at the end of a run, whether it gets through or not. -/
def reached : EStateM.Result ε σ β → σ
  | .ok _ s => s
  | .error _ s => s

theorem reached_map (f : β → γ) (r : EStateM.Result ε σ β) : reached (r.map f) = reached r := by
  cases r <;> rfl

/-- The events of a phase that is opened, gets through `done` steps, and is closed. -/
structure Reported.IsBracketed (r : Reported ε β) (name : String) (total done : ℕ) : Prop where
  events : r.events = .phaseStart name :: .taskStart total ::
    (List.replicate done .taskIncrement ++ [.taskFinish, .phaseFinish])

section Steps

variable [EventLog σ]

/-- The state after several events have been reported. -/
def EventLog.reportAll (s : σ) (es : List Event) : σ :=
  es.foldl EventLog.report s

theorem EventLog.events_reportAll (s : σ) (es : List Event) :
    EventLog.events (EventLog.reportAll s es) = EventLog.events s ++ es := by
  induction es generalizing s with
  | nil => exact (List.append_nil _).symm
  | cons e es ih =>
    rw [reportAll, List.foldl_cons, ← reportAll, ih, events_report, List.append_assoc,
      List.singleton_append]

theorem run_tick (s : σ) :
    (tick : EStateM ε σ Unit).run s = .ok () (EventLog.report s .taskIncrement) := rfl

/-- **A task is its body in a phase**: the body begins when the phase is open, and the phase is
closed where the body ends, also if it fails there. -/
theorem run_task (name : String) (total : ℕ) (body : EStateM ε σ β) (s : σ) :
    (task name total body).run s =
      match body.run (EventLog.reportAll s [.phaseStart name, .taskStart total]) with
      | .ok b s' => .ok b (EventLog.reportAll s' [.taskFinish, .phaseFinish])
      | .error e s' => .error e (EventLog.reportAll s' [.taskFinish, .phaseFinish]) := by
  have hopen : (task name total body).run s = (tryFinally body do
      report .taskFinish
      report .phaseFinish).run (EventLog.reportAll s [.phaseStart name, .taskStart total]) := rfl
  rw [hopen, tryFinally, EStateM.run_map, EStateM.run_tryFinally']
  cases body.run (EventLog.reportAll s [.phaseStart name, .taskStart total]) with
  | ok b s' => rfl
  | error e s' => rfl

/-- What a task reports ends with the end of the phase, whether the body gets through or not. -/
theorem events_task (name : String) (total : ℕ) (body : EStateM ε σ β) (s : σ) :
    EventLog.events (reached ((task name total body).run s))
      = EventLog.events
          (reached (body.run (EventLog.reportAll s [.phaseStart name, .taskStart total])))
        ++ [.taskFinish, .phaseFinish] := by
  rw [run_task]
  cases body.run (EventLog.reportAll s [.phaseStart name, .taskStart total]) with
  | ok b s' => exact EventLog.events_reportAll s' _
  | error e s' => exact EventLog.events_reportAll s' _

/-- Steps that report nothing may follow. -/
theorem events_bind {x : EStateM ε σ β} {f : β → EStateM ε σ γ}
    (hf : ∀ b s', EventLog.events (reached ((f b).run s')) = EventLog.events s') (s : σ) :
    EventLog.events (reached ((x >>= f).run s)) = EventLog.events (reached (x.run s)) := by
  rw [EStateM.run_bind]
  cases x.run s with
  | ok b s' => exact hf b s'
  | error e s' => rfl

theorem Reported.events_ofResult (r : EStateM.Result ε σ β) :
    (ofResult r).events = EventLog.events (reached r) := by
  cases r <;> rfl

/-- **The reports of a task.** If the body reports ticks and nothing else, and what follows reports
nothing, the phase is bracketed. -/
theorem isBracketed_task {name : String} {total done : ℕ} {body : EStateM ε σ β}
    {f : β → EStateM ε σ γ} {s : σ}
    (hbody : EventLog.events
        (reached (body.run (EventLog.reportAll s [.phaseStart name, .taskStart total])))
      = [.phaseStart name, .taskStart total] ++ List.replicate done .taskIncrement)
    (hf : ∀ b s', EventLog.events (reached ((f b).run s')) = EventLog.events s') :
    (Reported.ofResult ((task name total body >>= f).run s)).IsBracketed name total done where
  events := by
    rw [Reported.events_ofResult, events_bind hf, events_task, hbody, List.append_assoc]
    rfl

/-- A task whose result is only read afterwards returns what its body leads to. -/
theorem outcome_task (name : String) (total : ℕ) (body : EStateM ε σ β) (h : β → γ) (s : σ) :
    (Reported.ofResult ((task name total body >>= fun b => pure (h b)).run s)).outcome
      = match body.run (EventLog.reportAll s [.phaseStart name, .taskStart total]) with
        | .ok b _ => .ok (h b)
        | .error e _ => .error e := by
  rw [EStateM.run_bind, run_task]
  cases body.run (EventLog.reportAll s [.phaseStart name, .taskStart total]) <;> rfl

end Steps

end DanglingBonds
