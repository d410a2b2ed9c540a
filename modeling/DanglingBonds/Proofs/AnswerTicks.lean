/-
# Ticks of an exploration

An exploration ticks when the oracle has answered and reports nothing else. Where it comes to does
not depend on what has been reported before. Both are shown for the question about one point and
carried through the steps that explorations are made of.

* `Explore.TicksPerAnswer` : an exploration that ticks once for each answer.
* `Explore.TicksPerAnswer.bind` : explorations one after the other.
* `Explore.ticks_evaluate` : the question about one point.
* `Strategy.ticks_explore` : all strategies.
-/
import Mathlib
import DanglingBonds.Domain.Exploration
import DanglingBonds.Proofs.ReportedPhases

namespace DanglingBonds

variable {ε β γ : Type}

namespace Explore

/-- The end of an exploration that has come to a survey and reported some events. -/
def withEvents (events : List Event) : EStateM.Result ε Survey β → EStateM.Result ε Exploration β
  | .ok b survey => .ok b ⟨survey, events⟩
  | .error e survey => .error e ⟨survey, events⟩

/-- What an exploration returns that has no value of its own: the survey. -/
def returned : EStateM.Result ε Exploration Unit → Except ε Survey
  | .ok () e => .ok e.toSurvey
  | .error e _ => .error e

theorem returned_eq_ok_iff {outcome : EStateM.Result ε Exploration Unit} {survey : Survey} :
    returned outcome = .ok survey ↔ ∃ e : Exploration, outcome = .ok () e ∧ e.toSurvey = survey := by
  cases outcome with
  | ok u e =>
    constructor
    · intro h
      exact ⟨e, rfl, Except.ok.inj h⟩
    · rintro ⟨_, ⟨⟩, rfl⟩
      rfl
  | error e e' =>
    constructor
    · rintro ⟨⟩
    · rintro ⟨_, ⟨⟩, -⟩

theorem returned_eq_error_iff {outcome : EStateM.Result ε Exploration Unit} {e : ε} :
    returned outcome = .error e ↔ ∃ last : Exploration, outcome = .error e last := by
  cases outcome with
  | ok u e' =>
    constructor
    · rintro ⟨⟩
    · rintro ⟨_, ⟨⟩⟩
  | error e' last =>
    constructor
    · rintro ⟨⟩
      exact ⟨last, rfl⟩
    · rintro ⟨_, ⟨⟩⟩
      rfl

/-- From every survey an exploration comes to the same end, whatever has been reported before, and
reports as many ticks as it gets answers. -/
def TicksPerAnswer (x : Explore ε β) : Prop :=
  ∀ survey : Survey, ∃ (outcome : EStateM.Result ε Survey β) (answers : ℕ),
    (reached outcome).evaluations = survey.evaluations + answers ∧
      ∀ events, x.run ⟨survey, events⟩
        = withEvents (events ++ List.replicate answers .taskIncrement) outcome

/-! ## Rules -/

section Rules

variable {x : Explore ε β} {f : β → Explore ε γ}

theorem TicksPerAnswer.pure (b : β) : TicksPerAnswer (pure b : Explore ε β) := by
  intro survey
  refine ⟨.ok b survey, 0, rfl, fun events => ?_⟩
  rw [List.replicate_zero, List.append_nil]
  rfl

/-- Explorations one after the other. -/
theorem TicksPerAnswer.bind (hx : TicksPerAnswer x) (hf : ∀ b, TicksPerAnswer (f b)) :
    TicksPerAnswer (x >>= f) := by
  intro survey
  obtain ⟨outcome, answers, hanswers, hrun⟩ := hx survey
  cases outcome with
  | error e survey' =>
    refine ⟨.error e survey', answers, hanswers, fun events => ?_⟩
    rw [EStateM.run_bind, hrun]
    rfl
  | ok b survey' =>
    obtain ⟨outcome', answers', hanswers', hrun'⟩ := hf b survey'
    refine ⟨outcome', answers + answers', ?_, fun events => ?_⟩
    · rw [hanswers', ← Nat.add_assoc]
      exact congrArg (· + answers') hanswers
    · rw [EStateM.run_bind, hrun, List.replicate_add, ← List.append_assoc]
      exact hrun' _

/-- An exploration may go on as the survey has it. -/
theorem TicksPerAnswer.get_bind {f : Survey → Explore ε γ} (hf : ∀ s, TicksPerAnswer (f s)) :
    TicksPerAnswer (get >>= fun s => f s.toSurvey) := by
  intro survey
  obtain ⟨outcome, answers, hanswers, hrun⟩ := hf survey survey
  exact ⟨outcome, answers, hanswers, hrun⟩

end Rules

/-! ## Steps -/

section Steps

variable (oracle : Oracle ε) (g : Grid)

/-- **A question ticks once** if it is answered. -/
theorem ticks_evaluate (p : GridIndex) : TicksPerAnswer (evaluate oracle p) := by
  intro survey
  cases ha : oracle p with
  | error e =>
    refine ⟨.error e survey, 0, rfl, fun events => ?_⟩
    rw [evaluate, ha, List.replicate_zero, List.append_nil]
    rfl
  | ok a =>
    refine ⟨.ok a.status (survey.add p a), 1, rfl, fun events => ?_⟩
    rw [evaluate, ha]
    rfl

theorem ticks_evaluateAll (ps : List GridIndex) : TicksPerAnswer (evaluateAll oracle ps) := by
  induction ps with
  | nil => exact .pure ()
  | cons p ps ih => exact (ticks_evaluate oracle p).bind fun _ => ih

theorem ticks_status (p : GridIndex) : TicksPerAnswer (status oracle p) := by
  have hstatus : status oracle p
      = get >>= fun s => (s.statuses.get? p).elim (evaluate oracle p) pure := by
    refine congrArg (get >>= ·) (funext fun s => ?_)
    cases s.statuses.get? p with
    | some s => rfl
    | none => rfl
  rw [hstatus]
  refine .get_bind (f := fun s => (s.statuses.get? p).elim (evaluate oracle p) pure) fun s => ?_
  cases s.statuses.get? p with
  | some s => exact .pure s
  | none => exact ticks_evaluate oracle p

theorem ticks_isOperational (x y : ℤ) : TicksPerAnswer (isOperational oracle g x y) := by
  rw [isOperational]
  split
  · exact (ticks_status oracle _).bind fun s => .pure _
  · exact .pure false

theorem ticks_operational (ps : List GridIndex) : TicksPerAnswer (operational oracle ps) := by
  induction ps with
  | nil => exact .pure []
  | cons p ps ih => exact (ticks_status oracle p).bind fun _ => ih.bind fun _ => .pure _

end Steps

/-! ## Flood fills -/

section Fill

variable (oracle : Oracle ε) (g : Grid)

theorem ticks_expand (p : GridIndex) (queue : List GridIndex) (offsets : List (ℤ × ℤ)) :
    TicksPerAnswer (expand oracle g p queue offsets) := by
  induction offsets generalizing queue with
  | nil => exact .pure queue
  | cons o offsets ih =>
    obtain ⟨dx, dy⟩ := o
    refine .get_bind (f := fun s =>
      if !g.contains (p.x + dx) (p.y + dy)
        || s.statuses.contains ⟨(p.x + dx).toNat, (p.y + dy).toNat⟩ then
        expand oracle g p queue offsets
      else do
        let s ← evaluate oracle ⟨(p.x + dx).toNat, (p.y + dy).toNat⟩
        expand oracle g p
          (if s == .operational then queue ++ [⟨(p.x + dx).toNat, (p.y + dy).toNat⟩] else queue)
          offsets) fun s => ?_
    split
    · exact ih queue
    · exact (ticks_evaluate oracle _).bind fun _ => ih _

theorem ticks_drain (nb : Neighborhood) (turns : ℕ) (queue : List GridIndex) :
    TicksPerAnswer (drain oracle g nb queue turns) := by
  induction turns generalizing queue with
  | zero =>
    cases queue with
    | nil => exact .pure ()
    | cons p queue => exact .pure ()
  | succ turns ih =>
    cases queue with
    | nil => exact .pure ()
    | cons p queue => exact (ticks_expand oracle g p queue nb.offsets).bind ih

theorem ticks_floodFill (nb : Neighborhood) (seeds : List GridIndex) :
    TicksPerAnswer (floodFill oracle g nb seeds) :=
  (ticks_operational oracle seeds).bind (ticks_drain oracle g nb g.size)

end Fill

/-! ## Contours -/

section Contour

variable (oracle : Oracle ε) (g : Grid)

theorem ticks_firstInside (steps : List ContourStep) :
    TicksPerAnswer (firstInside oracle g steps) := by
  induction steps with
  | nil => exact .pure none
  | cons s rest ih =>
    refine (ticks_isOperational oracle g _ _).bind fun b => ?_
    cases b with
    | true => exact .pure (some s)
    | false => exact ih

theorem ticks_followContour (turns : ℕ) (s : ContourStep) (made : List ContourStep) :
    TicksPerAnswer (followContour oracle g s made turns) := by
  induction turns generalizing s made with
  | zero => exact .pure made
  | succ turns ih =>
    refine (ticks_firstInside oracle g s.successors).bind fun next? => ?_
    cases next? with
    | none => exact .pure made
    | some next =>
      dsimp only
      split
      · exact .pure made
      · exact ih next (next :: made)

theorem ticks_walkWest (y x : ℕ) : TicksPerAnswer (walkWest oracle g y x) := by
  induction x with
  | zero => exact .pure 0
  | succ x ih =>
    refine (ticks_isOperational oracle g x y).bind fun b => ?_
    cases b with
    | true => exact ih
    | false => exact .pure (x + 1)

theorem ticks_traceContour (p : GridIndex) : TicksPerAnswer (traceContour oracle g p) :=
  (ticks_walkWest oracle g p.y p.x).bind fun _ => ticks_followContour oracle g _ _ _

theorem ticks_contourTracing (samples : List GridIndex) :
    TicksPerAnswer (contourTracing oracle g samples) := by
  refine (ticks_operational oracle samples).bind fun working => ?_
  cases working with
  | nil => exact .pure ()
  | cons p rest => exact (ticks_traceContour oracle g p).bind fun _ => .pure ()

end Contour

end Explore

/-- **Every strategy ticks once for each answer.** -/
theorem Strategy.ticks_explore (s : Strategy) (g : Grid) (oracle : Oracle ε) (draws : DrawSource) :
    Explore.TicksPerAnswer (s.explore g oracle draws) := by
  cases s with
  | gridSearch => exact Explore.ticks_evaluateAll oracle g.points
  | randomSampling n => exact Explore.ticks_evaluateAll oracle (g.sample draws 0 n)
  | floodFill n nb => exact Explore.ticks_floodFill oracle g nb (g.sample draws 0 n)
  | contourTracing n => exact Explore.ticks_contourTracing oracle g (g.sample draws 0 n)

/-- **An exploration in a phase** returns what it returns without one, and brackets one tick for each
answer. -/
theorem Explore.TicksPerAnswer.phase {x : Explore ε Unit} (hx : TicksPerAnswer x) (name : String)
    (total : ℕ) :
    let r := Reported.ofResult ((do
      task name total x
      return (← get).toSurvey : Explore ε Survey).run {})
    r.outcome = returned (x.run {}) ∧
      r.IsBracketed name total (reached (x.run {})).evaluations := by
  intro r
  obtain ⟨outcome, answers, hanswers, hrun⟩ := hx {}
  have hopen : x.run (EventLog.reportAll {} [.phaseStart name, .taskStart total])
      = withEvents ([.phaseStart name, .taskStart total] ++ List.replicate answers .taskIncrement)
          outcome := hrun _
  constructor
  · show (Reported.ofResult ((task name total x >>= fun _ => _).run {})).outcome = _
    rw [EStateM.run_bind, run_task, hopen, hrun []]
    cases outcome <;> rfl
  · have hreached : (reached (x.run {})).evaluations = answers := by
      rw [hrun []]
      cases outcome <;> exact hanswers.trans (Nat.zero_add answers)
    rw [hreached]
    refine isBracketed_task ?_ fun _ _ => rfl
    rw [hopen]
    cases outcome <;> rfl

end DanglingBonds
