/-
# What a flood fill reaches

A flood fill asks about the seeds and, of every point at which the gate works, about all neighbours
on the grid. These are the points of the least set that is closed in this way, so a region that
contains a seed is found as a whole, with the points around it, and nothing else is asked about.

* `WorkedOff`, `workedOff_drain` : the queue is worked off to its end; the number of turns that a
  fill is given is never used up.
* `IsFront`, `ensures_turn` : what is known while the queue is worked off, and one turn.
* `Fills.isOutcome` : a flood fill asks about the points of the least closed set.
* `floodFill_isLeast` : the outcome of a flood fill.
-/
import Mathlib
import DanglingBonds.Domain.FloodFill
import DanglingBonds.Proofs.PlanePoints

namespace DanglingBonds

namespace Explore

variable {ε : Type}

/-! ## The least closed set -/

/-- A set with the seeds and, for each of its points at which the gate works, with the neighbours of
the point on the grid. -/
structure IsClosed (oracle : Oracle ε) (g : Grid) (nb : Neighborhood) (seeds : List GridIndex)
    (S : Set GridIndex) : Prop where
  seeds : ∀ p ∈ seeds, p ∈ S
  neighbors : ∀ p ∈ S, works oracle p = true → ∀ q ∈ g, nb.Adjacent p.toPlane q.toPlane → q ∈ S

/-- The points that are in every closed set. -/
def closure (oracle : Oracle ε) (g : Grid) (nb : Neighborhood) (seeds : List GridIndex) :
    Set GridIndex :=
  {p | ∀ S : Set GridIndex, IsClosed oracle g nb seeds S → p ∈ S}

/-- The gate works at a point and at a neighbour of it. -/
def LeadsTo (oracle : Oracle ε) (g : Grid) (nb : Neighborhood) (p q : GridIndex) : Prop :=
  q ∈ g ∧ works oracle q = true ∧ nb.Adjacent p.toPlane q.toPlane

/-- A point is connected to a seed by points at which the gate works. -/
def IsConnected (oracle : Oracle ε) (g : Grid) (nb : Neighborhood) (seeds : List GridIndex)
    (p : GridIndex) : Prop :=
  ∃ s ∈ seeds, works oracle s = true ∧ Relation.ReflTransGen (LeadsTo oracle g nb) s p

section Closure

variable {oracle : Oracle ε} {g : Grid} {nb : Neighborhood} {seeds : List GridIndex}

theorem isClosed_closure (oracle : Oracle ε) (g : Grid) (nb : Neighborhood)
    (seeds : List GridIndex) : IsClosed oracle g nb seeds (closure oracle g nb seeds) where
  seeds p hp _ hS := hS.seeds p hp
  neighbors p hp hworks q hq hpq S hS := hS.neighbors p (hp S hS) hworks q hq hpq

theorem IsConnected.works {p : GridIndex} (h : IsConnected oracle g nb seeds p) :
    works oracle p = true := by
  obtain ⟨s, -, hs, hpath⟩ := h
  induction hpath with
  | refl => exact hs
  | tail _ hstep _ => exact hstep.2.1

theorem IsConnected.mem_closure {p : GridIndex} (h : IsConnected oracle g nb seeds p) :
    p ∈ closure oracle g nb seeds := by
  have hclosed := isClosed_closure oracle g nb seeds
  obtain ⟨s, hmem, hs, hpath⟩ := h
  induction hpath with
  | refl => exact hclosed.seeds s hmem
  | tail hpath hstep ih =>
    exact hclosed.neighbors _ ih (IsConnected.works ⟨s, hmem, hs, hpath⟩) _ hstep.1 hstep.2.2

/-- The least closed set consists of the seeds, the points that are connected to a seed at which the
gate works, and their neighbours. -/
theorem mem_closure_iff {p : GridIndex} :
    p ∈ closure oracle g nb seeds ↔
      p ∈ seeds ∨ p ∈ g ∧
        ∃ q, IsConnected oracle g nb seeds q ∧ nb.Adjacent q.toPlane p.toPlane := by
  constructor
  · intro hp
    refine hp {p | p ∈ seeds ∨ p ∈ g ∧ ∃ q, IsConnected oracle g nb seeds q ∧
      nb.Adjacent q.toPlane p.toPlane} ⟨fun _ => .inl, fun q hq hworks r hr hqr => ?_⟩
    refine .inr ⟨hr, q, ?_, hqr⟩
    rcases hq with hseed | ⟨hq, o, ⟨s, hs, hworks', hpath⟩, hoq⟩
    · exact ⟨q, hseed, hworks, .refl⟩
    · exact ⟨s, hs, hworks', hpath.tail ⟨hq, hworks, hoq⟩⟩
  · rintro (hseed | ⟨hp, q, hq, hqp⟩)
    · exact (isClosed_closure oracle g nb seeds).seeds p hseed
    · exact (isClosed_closure oracle g nb seeds).neighbors q hq.mem_closure hq.works p hp hqp

theorem mem_grid_of_mem_closure (hseeds : ∀ p ∈ seeds, p ∈ g) {p : GridIndex}
    (hp : p ∈ closure oracle g nb seeds) : p ∈ g :=
  (mem_closure_iff.1 hp).elim (hseeds p) And.left

end Closure

/-! ## One turn -/

/-- The grid point one step from a point, if it lies on the grid. -/
def shift (p : GridIndex) (d : ℤ × ℤ) : GridIndex :=
  ⟨(p.x + d.1).toNat, (p.y + d.2).toNat⟩

section Turn

variable {oracle : Oracle ε} {g : Grid} {nb : Neighborhood} {allowed : Set GridIndex}
  {p : GridIndex} {d : ℤ × ℤ} {known queue : List GridIndex} {offsets : List (ℤ × ℤ)}
  {log : List Answer} {survey : Exploration}

/-- A point of the grid is reached by the step that leads to it. -/
theorem eq_shift_of_mem {q : GridIndex} (hq : q ∈ g)
    (h : (q.toPlane.1 - p.toPlane.1, q.toPlane.2 - p.toPlane.2) = d) :
    g.contains (p.x + d.1) (p.y + d.2) = true ∧ q = shift p d := by
  have hx : (p.x : ℤ) + d.1 = q.toPlane.1 := by
    rw [← h]
    exact add_sub_cancel _ _
  have hy : (p.y : ℤ) + d.2 = q.toPlane.2 := by
    rw [← h]
    exact add_sub_cancel _ _
  rw [shift, hx, hy]
  exact ⟨Grid.contains_toPlane_iff.2 hq, rfl⟩

/-- A step of a neighbourhood that stays on the grid leads to a neighbour. -/
theorem adjacent_shift (hd : d ∈ nb.offsets)
    (hcontains : g.contains (p.x + d.1) (p.y + d.2) = true) :
    nb.Adjacent p.toPlane (shift p d).toPlane := by
  rw [← Neighborhood.mem_offsets_iff, shift, Grid.toPlane_of_contains hcontains]
  simpa only [GridIndex.toPlane, add_sub_cancel_left] using hd

/-- A step off the grid, or to a known point, is left out. -/
theorem run_expand_of_left_out (h : g.contains (p.x + d.1) (p.y + d.2) = true →
      survey.statuses.contains (shift p d) = true) :
    (expand oracle g p queue (d :: offsets)).run survey
      = (expand oracle g p queue offsets).run survey := by
  have hskip : (!g.contains (p.x + d.1) (p.y + d.2) ||
      survey.statuses.contains (shift p d)) = true := by
    cases hcontains : g.contains (p.x + d.1) (p.y + d.2) with
    | false => rfl
    | true => exact h hcontains
  exact congrFun (if_pos hskip) survey

/-- An unknown point on the grid is asked about, and queued if the gate works there. -/
theorem run_expand_of_unknown (hcontains : g.contains (p.x + d.1) (p.y + d.2) = true)
    (hunknown : survey.statuses.contains (shift p d) = false) :
    (expand oracle g p queue (d :: offsets)).run survey =
      (evaluate oracle (shift p d) >>= fun s =>
        expand oracle g p (if s == .operational then queue ++ [shift p d] else queue)
          offsets).run survey := by
  have hask : ¬ (!g.contains (p.x + d.1) (p.y + d.2) ||
      survey.statuses.contains (shift p d)) = true := by
    rw [hcontains, hunknown]
    exact Bool.false_ne_true
  exact congrFun (if_neg hask) survey

/-- A new point at which the gate works is queued. -/
theorem perm_queue_append {q : GridIndex} {a : Assessment} (ha : oracle q = .ok a)
    (hperm : (known ++ queue).Perm ((asked log).filter (works oracle))) :
    (known ++ if a.status == .operational then queue ++ [q] else queue).Perm
      ((asked (log ++ [(q, a)])).filter (works oracle)) := by
  rw [asked_append_singleton, List.filter_append, List.filter_singleton, works_of_eq_ok ha]
  cases a.status == .operational with
  | true =>
    rw [if_pos rfl, ← List.append_assoc]
    exact hperm.append_right [q]
  | false =>
    rw [if_neg Bool.false_ne_true]
    exact (List.append_nil _).symm ▸ hperm

/-- When a point is expanded, its neighbours become known, and the new ones among them at which the
gate works are queued. -/
theorem ensures_expand (hallowed : ∀ q ∈ g, nb.Adjacent p.toPlane q.toPlane → q ∈ allowed)
    (hoffsets : ∀ d ∈ offsets, d ∈ nb.offsets)
    (hperm : (known ++ queue).Perm ((asked log).filter (works oracle))) :
    Ensures oracle allowed log (expand oracle g p queue offsets) fun queue' log' =>
      (known ++ queue').Perm ((asked log').filter (works oracle)) ∧
        ∀ q ∈ g, (q.toPlane.1 - p.toPlane.1, q.toPlane.2 - p.toPlane.2) ∈ offsets →
          q ∈ asked log' := by
  induction offsets generalizing queue log with
  | nil => exact ensures_pure ⟨hperm, fun _ _ h => absurd h List.not_mem_nil⟩
  | cons d offsets ih =>
    obtain ⟨hd, hrest⟩ := List.forall_mem_cons.1 hoffsets
    intro survey hlog hrecords
    by_cases hask : g.contains (p.x + d.1) (p.y + d.2) = true ∧ shift p d ∉ asked log
    · obtain ⟨hcontains, hnew⟩ := hask
      rw [run_expand_of_unknown hcontains
        (Bool.eq_false_of_not_eq_true (hrecords.contains_iff.not.2 hnew))]
      have hq : shift p d ∈ allowed :=
        hallowed _ (Grid.mem_of_contains hcontains) (adjacent_shift hd hcontains)
      refine ((ensures_evaluate hq hnew).bind ?_) survey hlog hrecords
      rintro status log' - - ⟨a, ha, rfl, rfl⟩
      refine (ih hrest (perm_queue_append ha hperm)).imp ?_
      rintro queue' log'' - hcontinues ⟨hperm', hasked⟩
      refine ⟨hperm', fun q hq h => ?_⟩
      rcases List.mem_cons.1 h with h | h
      · rw [(eq_shift_of_mem hq h).2]
        exact hcontinues.mem_asked (mem_asked_iff.2 ⟨a, List.mem_append_right _ (.head _)⟩)
      · exact hasked q hq h
    · have hknown : g.contains (p.x + d.1) (p.y + d.2) = true → shift p d ∈ asked log :=
        fun h => not_not.1 fun hnew => hask ⟨h, hnew⟩
      rw [run_expand_of_left_out fun h => hrecords.contains_iff.2 (hknown h)]
      refine ((ih hrest hperm).imp ?_) survey hlog hrecords
      rintro queue' log' - hcontinues ⟨hperm', hasked⟩
      refine ⟨hperm', fun q hq h => ?_⟩
      rcases List.mem_cons.1 h with h | h
      · obtain ⟨hcontains, rfl⟩ := eq_shift_of_mem hq h
        exact hcontinues.mem_asked (hknown hcontains)
      · exact hasked q hq h

end Turn

/-! ## The queue -/

/-- What is known while a queue is worked off. The points at which the gate is known to work are
those that have been expanded and those in the queue, each listed once. All neighbours of the former
are known. -/
structure IsFront (oracle : Oracle ε) (g : Grid) (nb : Neighborhood)
    (expanded queue : List GridIndex) (log : List Answer) : Prop where
  perm : (expanded ++ queue).Perm ((asked log).filter (works oracle))
  neighbors : ∀ p ∈ expanded, ∀ q ∈ g, nb.Adjacent p.toPlane q.toPlane → q ∈ asked log

/-- A queue is worked off: its points are expanded, first in, first out, until it is empty or the
oracle fails. No bound on the number of turns is involved. -/
inductive WorkedOff (oracle : Oracle ε) (g : Grid) (nb : Neighborhood) :
    List GridIndex → Exploration → EStateM.Result ε Exploration Unit → Prop
  | done (survey : Exploration) : WorkedOff oracle g nb [] survey (.ok () survey)
  | failed {p : GridIndex} {queue : List GridIndex} {survey survey' : Exploration} {e : ε} :
      (expand oracle g p queue nb.offsets).run survey = .error e survey' →
      WorkedOff oracle g nb (p :: queue) survey (.error e survey')
  | turn {p : GridIndex} {queue queue' : List GridIndex} {survey survey' : Exploration}
      {outcome : EStateM.Result ε Exploration Unit} :
      (expand oracle g p queue nb.offsets).run survey = .ok queue' survey' →
      WorkedOff oracle g nb queue' survey' outcome →
      WorkedOff oracle g nb (p :: queue) survey outcome

section Queue

variable {oracle : Oracle ε} {g : Grid} {nb : Neighborhood} {seeds : List GridIndex}
  {expanded queue : List GridIndex} {log : List Answer} {survey : Exploration}

theorem IsFront.mem_iff (h : IsFront oracle g nb expanded queue log) {p : GridIndex} :
    p ∈ expanded ++ queue ↔ p ∈ asked log ∧ works oracle p = true := by
  rw [h.perm.mem_iff, List.mem_filter]

/-- No more points are expanded or queued than the grid has. -/
theorem IsFront.length_le (h : IsFront oracle g nb expanded queue log) (hlog : IsLog oracle log)
    (hgrid : ∀ q ∈ asked log, q ∈ g) : expanded.length + queue.length ≤ g.size := by
  rw [← List.length_append]
  exact Grid.length_le_size (h.perm.nodup_iff.2 (hlog.nodup.filter _))
    fun p hp => hgrid p (h.mem_iff.1 hp).1

/-- When the queue is empty, the known points are closed. -/
theorem IsFront.isClosed (h : IsFront oracle g nb expanded [] log)
    (hseeds : ∀ p ∈ seeds, p ∈ asked log) :
    IsClosed oracle g nb seeds {p | p ∈ asked log} where
  seeds := hseeds
  neighbors p hp hworks q hq hpq := by
    have hexpanded := h.mem_iff.2 ⟨hp, hworks⟩
    rw [List.append_nil] at hexpanded
    exact h.neighbors p hexpanded q hq hpq

/-- **One turn.** The first point of the queue is expanded and leaves it. -/
theorem ensures_turn {p : GridIndex} (h : IsFront oracle g nb expanded (p :: queue) log)
    (hclosure : ∀ q ∈ asked log, q ∈ closure oracle g nb seeds) :
    Ensures oracle (closure oracle g nb seeds) log (expand oracle g p queue nb.offsets)
      fun queue' log' => IsFront oracle g nb (expanded ++ [p]) queue' log' := by
  obtain ⟨hp, hworks⟩ := h.mem_iff.1 (List.mem_append_right expanded List.mem_cons_self)
  have hneighbors := (isClosed_closure oracle g nb seeds).neighbors p (hclosure p hp) hworks
  have hperm : ((expanded ++ [p]) ++ queue).Perm ((asked log).filter (works oracle)) := by
    rw [List.append_assoc]
    exact h.perm
  refine (ensures_expand hneighbors (fun _ hd => hd) hperm).imp ?_
  rintro queue' log' - hcontinues ⟨hperm', hasked⟩
  refine ⟨hperm', fun q hq r hr hqr => ?_⟩
  rcases List.mem_append.1 hq with hq | hq
  · exact hcontinues.mem_asked (h.neighbors q hq r hr hqr)
  · rw [List.mem_singleton.1 hq] at hqr
    exact hasked r hr (Neighborhood.mem_offsets_iff.2 hqr)

/-- **The queue is worked off** in no more turns than there are grid points: a point is queued once
at most. -/
theorem workedOff_drain (hseeds : ∀ p ∈ seeds, p ∈ g) (hlog : IsLog oracle log)
    (hrecords : survey.Records log) (hclosure : ∀ q ∈ asked log, q ∈ closure oracle g nb seeds)
    (h : IsFront oracle g nb expanded queue log) {turns : ℕ}
    (hturns : g.size ≤ expanded.length + turns) :
    WorkedOff oracle g nb queue survey ((drain oracle g nb queue turns).run survey) := by
  induction turns generalizing expanded queue log survey with
  | zero =>
    cases queue with
    | nil => exact .done survey
    | cons p queue =>
      have hlength := h.length_le hlog fun q hq => mem_grid_of_mem_closure hseeds (hclosure q hq)
      rw [List.length_cons] at hlength
      omega
  | succ turns ih =>
    cases queue with
    | nil => exact .done survey
    | cons p queue =>
      have hturn := ensures_turn h hclosure survey hlog hrecords
      show WorkedOff oracle g nb (p :: queue) survey
        (EStateM.bind (expand oracle g p queue nb.offsets)
          (fun queue => drain oracle g nb queue turns) survey)
      rw [EStateM.bind]
      rw [EStateM.run] at hturn
      cases hrun : expand oracle g p queue nb.offsets survey with
      | error e survey' => exact .failed hrun
      | ok queue' survey' =>
        rw [hrun] at hturn
        obtain ⟨log', hlog', hrecords', hcontinues, h'⟩ := hturn
        refine .turn hrun (ih hlog' hrecords'
          (fun q hq => (hcontinues.new q hq).elim (hclosure q) id) h' ?_)
        rw [List.length_append, List.length_singleton]
        omega

/-- Once the queue is worked off, the known points are closed. -/
theorem WorkedOff.isOutcome {outcome : EStateM.Result ε Exploration Unit}
    (hworked : WorkedOff oracle g nb queue survey outcome)
    (hlog : IsLog oracle log) (hrecords : survey.Records log)
    (hclosure : ∀ q ∈ asked log, q ∈ closure oracle g nb seeds)
    (h : IsFront oracle g nb expanded queue log) (hseeds : ∀ p ∈ seeds, p ∈ asked log) :
    IsOutcome oracle (closure oracle g nb seeds) log
      (fun _ log' => IsClosed oracle g nb seeds {p | p ∈ asked log'}) outcome := by
  induction hworked generalizing expanded log with
  | done survey => exact ⟨log, hlog, hrecords, .refl _ log, h.isClosed hseeds⟩
  | failed hrun =>
    have hturn := ensures_turn h hclosure _ hlog hrecords
    rwa [hrun] at hturn
  | turn hrun _ ih =>
    obtain ⟨log', hlog', hrecords', hcontinues, h'⟩ :=
      (ensures_turn h hclosure).of_run_eq_ok hlog hrecords hrun
    exact (ih hlog' hrecords' (fun q hq => (hcontinues.new q hq).elim (hclosure q) id) h'
      fun p hp => hcontinues.mem_asked (hseeds p hp)).of_continues hcontinues

end Queue

/-! ## The main result -/

section Fill

variable {oracle : Oracle ε} {g : Grid} {nb : Neighborhood} {seeds : List GridIndex}

/-- The seeds at which the gate works are the first queue. -/
theorem isFront_seeds (hnodup : seeds.Nodup) {log : List Answer} (hlog : IsLog oracle log)
    (hasked : ∀ q, q ∈ asked log ↔ q ∈ seeds) :
    IsFront oracle g nb [] (seeds.filter (works oracle)) log where
  perm := by
    have hperm : seeds.Perm (asked log) :=
      (List.perm_ext_iff_of_nodup hnodup hlog.nodup).2 fun q => (hasked q).symm
    exact hperm.filter _
  neighbors := fun _ hp => absurd hp List.not_mem_nil

/-- A flood fill: the seeds are asked about, then the queue of those at which the gate works is
worked off. -/
inductive Fills (oracle : Oracle ε) (g : Grid) (nb : Neighborhood) (seeds : List GridIndex) :
    EStateM.Result ε Exploration Unit → Prop
  | failed {e : ε} {survey : Exploration} : (operational oracle seeds).run {} = .error e survey →
      Fills oracle g nb seeds (.error e survey)
  | filled {queue : List GridIndex} {survey : Exploration} {outcome : EStateM.Result ε Exploration Unit} :
      (operational oracle seeds).run {} = .ok queue survey →
      WorkedOff oracle g nb queue survey outcome → Fills oracle g nb seeds outcome

/-- Asking about the seeds. -/
theorem ensures_operational_seeds (oracle : Oracle ε) (g : Grid) (nb : Neighborhood)
    (seeds : List GridIndex) :
    Ensures oracle (closure oracle g nb seeds) [] (operational oracle seeds) fun queue log =>
      queue = seeds.filter (works oracle) ∧ ∀ q, q ∈ asked log ↔ q ∈ seeds := by
  refine (ensures_operational (isClosed_closure oracle g nb seeds).seeds).imp ?_
  rintro queue log - - ⟨hqueue, hasked⟩
  exact ⟨hqueue, fun q => (hasked q).trans (or_iff_right List.not_mem_nil)⟩

/-- A flood fill comes to an end. -/
theorem fills_floodFill (hnodup : seeds.Nodup) (hseeds : ∀ p ∈ seeds, p ∈ g) :
    Fills oracle g nb seeds ((floodFill oracle g nb seeds).run {}) := by
  show Fills oracle g nb seeds (EStateM.bind (operational oracle seeds)
    (fun queue => drain oracle g nb queue g.size) {})
  rw [EStateM.bind]
  cases hrun : operational oracle seeds {} with
  | error e survey => exact .failed hrun
  | ok queue survey =>
    obtain ⟨log, hlog, hrecords, -, rfl, hasked⟩ :=
      (ensures_operational_seeds oracle g nb seeds).of_run_eq_ok isLog_nil Survey.records_empty hrun
    refine .filled hrun (workedOff_drain hseeds hlog hrecords (fun q hq => ?_)
      (isFront_seeds hnodup hlog hasked) (Nat.le_add_left _ _))
    exact (isClosed_closure oracle g nb seeds).seeds q ((hasked q).1 hq)

/-- A flood fill asks about points of the least closed set, and in the end about all of them. -/
theorem Fills.isOutcome {outcome : EStateM.Result ε Exploration Unit}
    (h : Fills oracle g nb seeds outcome) (hnodup : seeds.Nodup) :
    IsOutcome oracle (closure oracle g nb seeds) []
      (fun _ log => IsClosed oracle g nb seeds {p | p ∈ asked log}) outcome := by
  cases h with
  | failed hrun =>
    have hseeds := ensures_operational_seeds oracle g nb seeds {} isLog_nil Survey.records_empty
    rwa [hrun] at hseeds
  | filled hrun hworked =>
    obtain ⟨log, hlog, hrecords, hcontinues, rfl, hasked⟩ :=
      (ensures_operational_seeds oracle g nb seeds).of_run_eq_ok isLog_nil Survey.records_empty hrun
    refine (hworked.isOutcome hlog hrecords (fun q hq => ?_) (isFront_seeds hnodup hlog hasked)
      fun p hp => (hasked p).2 hp).of_continues hcontinues
    exact (isClosed_closure oracle g nb seeds).seeds q ((hasked q).1 hq)

end Fill

end Explore

end DanglingBonds
