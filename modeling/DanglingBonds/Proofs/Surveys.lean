/-
# What an exploration has learnt

An exploration asks an oracle about points and enters the answers into a survey. It is followed here
by the log of the answers it has got: a survey records a log in which every point occurs once. For
each step of an exploration it is said which points it may ask about, and what its result tells.

* `Survey.Records` : a survey holds what is in a log, and nothing else.
* `Survey.Records.eq_of_asked` : what has been asked about determines the survey.
* `Explore.IsOutcome`, `Explore.Ensures` : what an exploration asks about and what it returns.
* `Explore.Ensures.bind` : explorations one after the other.
* `Explore.ensures_status`, `Explore.ensures_isOperational`, `Explore.ensures_operational`,
  `Explore.ensures_evaluateAll` : the steps that explorations are made of.
-/
import Mathlib
import DanglingBonds.Domain.Grid
import DanglingBonds.Proofs.OrderedTables

namespace DanglingBonds

variable {ε β γ : Type}

/-! ## Grid points -/

/-- The points of a grid. -/
instance : Membership GridIndex Grid where
  mem g p := p.x < g.width ∧ p.y < g.height

namespace Grid

variable {g : Grid}

theorem mem_iff {p : GridIndex} : p ∈ g ↔ p.x < g.width ∧ p.y < g.height := Iff.rfl

theorem contains_iff {x y : ℤ} :
    g.contains x y = true ↔ 0 ≤ x ∧ 0 ≤ y ∧ x < g.width ∧ y < g.height := by
  simp only [Grid.contains, Bool.and_eq_true, decide_eq_true_eq, and_assoc]

/-- A point of the plane that lies on the grid is one of its points. -/
theorem mem_of_contains {x y : ℤ} (h : g.contains x y = true) :
    (⟨x.toNat, y.toNat⟩ : GridIndex) ∈ g := by
  obtain ⟨hx, hy, hx', hy'⟩ := contains_iff.1 h
  show x.toNat < g.width ∧ y.toNat < g.height
  omega

/-- The points with running numbers below the size are those of the grid. -/
theorem point_mem {i : ℕ} (hi : i < g.size) : g.point i ∈ g := by
  have hwidth : 0 < g.width := Nat.pos_of_mul_pos_right (Nat.zero_lt_of_lt hi)
  exact ⟨Nat.mod_lt i hwidth, Nat.div_lt_of_lt_mul hi⟩

/-- Different running numbers are those of different points. -/
theorem point_injective : Function.Injective g.point := by
  intro i j hij
  rw [Grid.point, Grid.point, GridIndex.mk.injEq] at hij
  rw [← Nat.div_add_mod i g.width, ← Nat.div_add_mod j g.width, hij.1, hij.2]

/-- Every point has a running number. -/
theorem exists_point_eq {p : GridIndex} (hp : p ∈ g) : ∃ i < g.size, g.point i = p := by
  obtain ⟨hx, hy⟩ := mem_iff.1 hp
  refine ⟨p.x + g.width * p.y, ?_, ?_⟩
  · calc p.x + g.width * p.y < g.width + g.width * p.y := by omega
      _ = g.width * (p.y + 1) := by ring
      _ ≤ g.width * g.height := Nat.mul_le_mul_left _ hy
  · rw [Grid.point, Nat.add_mul_mod_self_left, Nat.mod_eq_of_lt hx, Nat.add_mul_div_left _ _
      (Nat.zero_lt_of_lt hx), Nat.div_eq_of_lt hx, Nat.zero_add]

/-- All points of a grid, also those that are not counted. -/
def allPoints (g : Grid) : List GridIndex :=
  (List.range g.size).map g.point

theorem mem_allPoints_iff {p : GridIndex} : p ∈ g.allPoints ↔ p ∈ g := by
  rw [allPoints, List.mem_map]
  simp only [List.mem_range]
  constructor
  · rintro ⟨i, hi, rfl⟩
    exact point_mem hi
  · exact exists_point_eq

theorem length_allPoints : g.allPoints.length = g.size := by
  rw [allPoints, List.length_map, List.length_range]

/-- A list of different points of the grid is no longer than the grid. -/
theorem length_le_size {ps : List GridIndex} (hnodup : ps.Nodup) (hps : ∀ p ∈ ps, p ∈ g) :
    ps.length ≤ g.size := by
  rw [← length_allPoints]
  exact (List.subperm_of_subset hnodup fun p hp => mem_allPoints_iff.2 (hps p hp)).length_le

theorem total_le_size : g.total ≤ g.size := Nat.mod_le _ _

/-- The count is right if it fits 64 bits. -/
theorem total_eq_size (h : g.size < 2 ^ 64) : g.total = g.size := Nat.mod_eq_of_lt h

theorem points_eq_allPoints (h : g.size < 2 ^ 64) : g.points = g.allPoints := by
  rw [points, total_eq_size h, allPoints]

/-- What is counted are points of the grid. -/
theorem mem_of_mem_points {p : GridIndex} (hp : p ∈ g.points) : p ∈ g := by
  obtain ⟨i, hi, rfl⟩ := List.mem_map.1 hp
  exact point_mem ((List.mem_range.1 hi).trans_le total_le_size)

theorem mem_points_iff (h : g.size < 2 ^ 64) {p : GridIndex} : p ∈ g.points ↔ p ∈ g := by
  rw [points_eq_allPoints h, mem_allPoints_iff]

theorem nodup_points : g.points.Nodup := List.nodup_range.map point_injective

theorem length_points : g.points.length = g.total := by
  rw [points, List.length_map, List.length_range]

end Grid

/-- Points are told apart by their ranks. -/
theorem GridIndex.rank_eq_iff {p q : GridIndex} : Ranked.rank p = Ranked.rank q ↔ p = q := by
  rcases p with ⟨x, y⟩
  rcases q with ⟨x', y'⟩
  show ((x : ℤ), (y : ℤ)) = ((x' : ℤ), (y' : ℤ)) ↔ _
  simp only [Prod.mk.injEq, Nat.cast_inj, GridIndex.mk.injEq]

/-! ## Logs -/

/-- The oracle's answer about a point. -/
abbrev Answer := GridIndex × Assessment

/-- The points that the answers are about. -/
def asked (log : List Answer) : List GridIndex :=
  log.map Prod.fst

/-- A log of answers of an oracle, one about each point. -/
structure IsLog (oracle : Oracle ε) (log : List Answer) : Prop where
  answered : ∀ e ∈ log, oracle e.1 = .ok e.2
  nodup : (asked log).Nodup

/-- What a survey holds once the answers of a log have been entered. -/
structure Survey.Records (s : Survey) (log : List Answer) : Prop where
  entries : s.statuses.entries.Perm (log.map fun e => (e.1, e.2.status))
  simulations : s.simulations = (log.map fun e => e.2.simulations).sum
  evaluations : s.evaluations = log.length

section Logs

variable {oracle : Oracle ε} {log : List Answer} {s : Survey} {p : GridIndex}

theorem mem_asked_iff : p ∈ asked log ↔ ∃ a, (p, a) ∈ log := by
  rw [asked, List.mem_map]
  constructor
  · rintro ⟨⟨q, a⟩, he, rfl⟩
    exact ⟨a, he⟩
  · rintro ⟨a, he⟩
    exact ⟨(p, a), he, rfl⟩

theorem asked_append_singleton (e : Answer) : asked (log ++ [e]) = asked log ++ [e.1] :=
  List.map_append

theorem isLog_nil : IsLog oracle [] :=
  ⟨fun _ he => absurd he List.not_mem_nil, List.nodup_nil⟩

/-- Two logs have the same answer about a point. -/
theorem IsLog.eq_of_mem (h : IsLog oracle log) {log' : List Answer} (h' : IsLog oracle log')
    {a a' : Assessment} (ha : (p, a) ∈ log) (ha' : (p, a') ∈ log') : a = a' :=
  Except.ok.inj ((h.answered _ ha).symm.trans (h'.answered _ ha'))

theorem IsLog.append_singleton (h : IsLog oracle log) {a : Assessment} (ha : oracle p = .ok a)
    (hp : p ∉ asked log) : IsLog oracle (log ++ [(p, a)]) where
  answered := by
    intro e he
    rcases List.mem_append.1 he with he | he
    · exact h.answered e he
    · rw [List.mem_singleton.1 he]
      exact ha
  nodup := by
    rw [asked_append_singleton]
    refine List.nodup_append.2 ⟨h.nodup, List.nodup_singleton _, fun q hq q' hq' heq => hp ?_⟩
    rw [List.mem_singleton] at hq'
    rwa [heq, hq'] at hq

/-- Logs about the same points have the same answers. -/
theorem IsLog.perm (h : IsLog oracle log) {log' : List Answer} (h' : IsLog oracle log')
    (hasked : ∀ p, p ∈ asked log ↔ p ∈ asked log') : log.Perm log' := by
  have hsubset : ∀ {l l' : List Answer}, IsLog oracle l → IsLog oracle l' →
      (∀ p, p ∈ asked l → p ∈ asked l') → ∀ e ∈ l, e ∈ l' := by
    rintro l l' hl hl' hll' ⟨p, a⟩ he
    obtain ⟨a', ha'⟩ := mem_asked_iff.1 (hll' p (mem_asked_iff.2 ⟨a, he⟩))
    rwa [hl.eq_of_mem hl' he ha']
  rw [List.perm_ext_iff_of_nodup (List.Nodup.of_map _ h.nodup) (List.Nodup.of_map _ h'.nodup)]
  exact fun e => ⟨hsubset h h' (fun p => (hasked p).1) e, hsubset h' h (fun p => (hasked p).2) e⟩

namespace Survey

theorem records_empty : ({} : Survey).Records [] :=
  ⟨List.Perm.refl _, rfl, rfl⟩

namespace Records

variable (h : s.Records log)

include h

theorem get?_eq_some_iff {status : Status} :
    s.statuses.get? p = some status ↔ ∃ a, (p, a) ∈ log ∧ a.status = status := by
  rw [Table.get?_eq_some_iff]
  simp only [h.entries.mem_iff, List.mem_map, GridIndex.rank_eq_iff]
  constructor
  · rintro ⟨_, ⟨⟨q, a⟩, he, rfl⟩, rfl, rfl⟩
    exact ⟨a, he, rfl⟩
  · rintro ⟨a, he, rfl⟩
    exact ⟨_, ⟨(p, a), he, rfl⟩, rfl, rfl⟩

theorem contains_iff : s.statuses.contains p = true ↔ p ∈ asked log := by
  rw [Table.contains, Option.isSome_iff_exists, mem_asked_iff]
  simp only [h.get?_eq_some_iff]
  constructor
  · rintro ⟨_, a, he, -⟩
    exact ⟨a, he⟩
  · rintro ⟨a, he⟩
    exact ⟨_, a, he, rfl⟩

theorem get?_eq_none_iff : s.statuses.get? p = none ↔ p ∉ asked log := by
  rw [← h.contains_iff, ← Option.not_isSome_iff_eq_none]
  rfl

theorem keys_perm : s.statuses.keys.Perm (asked log) := by
  have hperm := h.entries.map Prod.fst
  rwa [List.map_map] at hperm

theorem size_eq : s.statuses.size = log.length := by
  rw [Table.size, h.entries.length_eq, List.length_map]

theorem count_eq (status : Status) : s.count status = log.countP (·.2.status == status) := by
  rw [Survey.count, Table.values, (h.entries.map Prod.snd).count_eq, List.map_map,
    List.count, List.countP_map]
  rfl

/-- An answer about a point not yet asked about is entered. -/
theorem add (hp : p ∉ asked log) (a : Assessment) : (s.add p a).Records (log ++ [(p, a)]) where
  entries := by
    have hnew : s.statuses.contains p = false :=
      Bool.eq_false_of_not_eq_true (h.contains_iff.not.2 hp)
    rw [List.map_append]
    exact (Table.perm_entries_insert a.status hnew).trans
      ((h.entries.cons _).trans (List.perm_append_singleton _ _).symm)
  simulations := by
    rw [List.map_append, List.sum_append, ← h.simulations]
    rfl
  evaluations := by
    rw [List.length_append, ← h.evaluations]
    rfl

/-- Surveys of an oracle that has been asked about the same points, in whatever order, are equal. -/
theorem eq_of_asked (hlog : IsLog oracle log) {s' : Survey} {log' : List Answer}
    (h' : s'.Records log') (hlog' : IsLog oracle log')
    (hasked : ∀ p, p ∈ asked log ↔ p ∈ asked log') : s = s' := by
  have hperm := hlog.perm hlog' hasked
  have hstatuses : s.statuses = s'.statuses :=
    Table.eq_of_perm (h.entries.trans ((hperm.map _).trans h'.entries.symm))
  have hsimulations : s.simulations = s'.simulations := by
    rw [h.simulations, h'.simulations, (hperm.map _).sum_eq]
  have hevaluations : s.evaluations = s'.evaluations := by
    rw [h.evaluations, h'.evaluations, hperm.length_eq]
  rcases s with ⟨statuses, simulations, evaluations⟩
  rw [Survey.mk.injEq]
  exact ⟨hstatuses, hsimulations, hevaluations⟩

end Records

end Survey

/-- A log is continued by answers about points of a set. -/
structure Continues (allowed : Set GridIndex) (log log' : List Answer) : Prop where
  old : log <+: log'
  new : ∀ p ∈ asked log', p ∈ asked log ∨ p ∈ allowed

namespace Continues

variable {allowed : Set GridIndex} {log' log'' : List Answer}

theorem refl (allowed : Set GridIndex) (log : List Answer) : Continues allowed log log :=
  ⟨List.prefix_rfl, fun _ hp => .inl hp⟩

theorem trans (h : Continues allowed log log') (h' : Continues allowed log' log'') :
    Continues allowed log log'' where
  old := h.old.trans h'.old
  new p hp := (h'.new p hp).elim (h.new p) .inr

theorem append_singleton {e : Answer} (he : e.1 ∈ allowed) :
    Continues allowed log (log ++ [e]) where
  old := List.prefix_append _ _
  new p hp := by
    rw [asked_append_singleton, List.mem_append, List.mem_singleton] at hp
    rcases hp with hp | rfl
    · exact .inl hp
    · exact .inr he

theorem mono {allowed' : Set GridIndex} (h : Continues allowed log log')
    (hallowed : allowed ⊆ allowed') : Continues allowed' log log' where
  old := h.old
  new p hp := (h.new p hp).imp_right fun hp => hallowed hp

/-- What has been asked stays asked. -/
theorem mem_asked (h : Continues allowed log log') (hp : p ∈ asked log) : p ∈ asked log' :=
  (h.old.map Prod.fst).subset hp

end Continues

end Logs

/-! ## Explorations -/

namespace Explore

/-- How an exploration ends that has asked only about points of `allowed` since the answers of
`log`, and about none that was known: with a value that, together with all answers, satisfies `Q`,
or with an error of the oracle at one of these points. In both cases the survey records the answers.
-/
def IsOutcome (oracle : Oracle ε) (allowed : Set GridIndex) (log : List Answer)
    (Q : β → List Answer → Prop) : EStateM.Result ε Exploration β → Prop
  | .ok b survey => ∃ log', IsLog oracle log' ∧ survey.Records log' ∧
      Continues allowed log log' ∧ Q b log'
  | .error e survey => ∃ log', IsLog oracle log' ∧ survey.Records log' ∧
      Continues allowed log log' ∧ ∃ p ∈ allowed, oracle p = .error e

/-- An exploration ends in this way whenever the answers of `log` are what is known before. -/
def Ensures (oracle : Oracle ε) (allowed : Set GridIndex) (log : List Answer) (x : Explore ε β)
    (Q : β → List Answer → Prop) : Prop :=
  ∀ survey : Exploration, IsLog oracle log → survey.Records log →
    IsOutcome oracle allowed log Q (x.run survey)

variable {oracle : Oracle ε} {allowed : Set GridIndex} {log : List Answer}

section Rules

variable {x : Explore ε β} {f : β → Explore ε γ} {Q Q' : β → List Answer → Prop}
  {R : γ → List Answer → Prop}

theorem IsOutcome.imp {outcome : EStateM.Result ε Exploration β}
    (houtcome : IsOutcome oracle allowed log Q outcome)
    (h : ∀ b log', IsLog oracle log' → Continues allowed log log' → Q b log' → Q' b log') :
    IsOutcome oracle allowed log Q' outcome := by
  cases outcome with
  | error e survey => exact houtcome
  | ok b survey =>
    obtain ⟨log', hlog, hrecords, hcontinues, hQ⟩ := houtcome
    exact ⟨log', hlog, hrecords, hcontinues, h b log' hlog hcontinues hQ⟩

/-- An exploration of points about which the oracle answers returns. -/
theorem IsOutcome.exists_eq_ok {outcome : EStateM.Result ε Exploration β}
    (h : IsOutcome oracle allowed log Q outcome)
    (hanswers : ∀ p ∈ allowed, ∃ a, oracle p = .ok a) :
    ∃ b survey, outcome = .ok b survey := by
  cases outcome with
  | ok b survey => exact ⟨b, survey, rfl⟩
  | error e survey =>
    obtain ⟨-, -, -, -, p, hp, he⟩ := h
    obtain ⟨a, ha⟩ := hanswers p hp
    rw [ha] at he
    cases he

/-- More may be allowed than what is asked about. -/
theorem IsOutcome.mono {allowed' : Set GridIndex} {outcome : EStateM.Result ε Exploration β}
    (h : IsOutcome oracle allowed log Q outcome) (hallowed : allowed ⊆ allowed') :
    IsOutcome oracle allowed' log Q outcome := by
  cases outcome with
  | error e survey =>
    obtain ⟨log', hlog, hrecords, hcontinues, p, hp, he⟩ := h
    exact ⟨log', hlog, hrecords, hcontinues.mono hallowed, p, hallowed hp, he⟩
  | ok b survey =>
    obtain ⟨log', hlog, hrecords, hcontinues, hQ⟩ := h
    exact ⟨log', hlog, hrecords, hcontinues.mono hallowed, hQ⟩

/-- Answers that continue others count towards the outcome. -/
theorem IsOutcome.of_continues {log' : List Answer} {outcome : EStateM.Result ε Exploration β}
    (h : IsOutcome oracle allowed log' Q outcome) (hcontinues : Continues allowed log log') :
    IsOutcome oracle allowed log Q outcome := by
  cases outcome with
  | error e survey =>
    obtain ⟨log'', hlog, hrecords, hcontinues', he⟩ := h
    exact ⟨log'', hlog, hrecords, hcontinues.trans hcontinues', he⟩
  | ok b survey =>
    obtain ⟨log'', hlog, hrecords, hcontinues', hQ⟩ := h
    exact ⟨log'', hlog, hrecords, hcontinues.trans hcontinues', hQ⟩

theorem ensures_pure {b : β} (h : Q b log) : Ensures oracle allowed log (pure b) Q :=
  fun _ hlog hrecords => ⟨log, hlog, hrecords, .refl allowed log, h⟩

/-- Explorations one after the other. -/
theorem Ensures.bind (hx : Ensures oracle allowed log x Q)
    (hf : ∀ b log', IsLog oracle log' → Continues allowed log log' → Q b log' →
      Ensures oracle allowed log' (f b) R) : Ensures oracle allowed log (x >>= f) R := by
  intro survey hlog hrecords
  have h := hx survey hlog hrecords
  show IsOutcome oracle allowed log R (EStateM.bind x f survey)
  rw [EStateM.bind]
  rw [EStateM.run] at h
  cases hrun : x survey with
  | error e survey' =>
    rw [hrun] at h
    exact h
  | ok b survey' =>
    rw [hrun] at h
    obtain ⟨log', hlog', hrecords', hcontinues, hQ⟩ := h
    exact (hf b log' hlog' hcontinues hQ survey' hlog' hrecords').of_continues hcontinues

theorem Ensures.imp (hx : Ensures oracle allowed log x Q)
    (h : ∀ b log', IsLog oracle log' → Continues allowed log log' → Q b log' → Q' b log') :
    Ensures oracle allowed log x Q' :=
  fun survey hlog hrecords => (hx survey hlog hrecords).imp h

/-- What an exploration that returns ensures. -/
theorem Ensures.of_run_eq_ok (hx : Ensures oracle allowed log x Q) {survey survey' : Exploration} {b : β}
    (hlog : IsLog oracle log) (hrecords : survey.Records log) (h : x.run survey = .ok b survey') :
    ∃ log', IsLog oracle log' ∧ survey'.Records log' ∧ Continues allowed log log' ∧ Q b log' := by
  have h' := hx survey hlog hrecords
  rwa [h] at h'

end Rules

/-! ## Steps -/

section Steps

variable {p : GridIndex}

/-- Asking about a point that is not known. -/
theorem ensures_evaluate (hp : p ∈ allowed) (hnew : p ∉ asked log) :
    Ensures oracle allowed log (evaluate oracle p) fun status log' =>
      ∃ a, oracle p = .ok a ∧ log' = log ++ [(p, a)] ∧ a.status = status := by
  intro survey hlog hrecords
  rw [evaluate]
  cases ha : oracle p with
  | error e => exact ⟨log, hlog, hrecords, .refl allowed log, p, hp, ha⟩
  | ok a =>
    exact ⟨log ++ [(p, a)], hlog.append_singleton ha hnew, hrecords.add hnew a,
      .append_singleton hp, a, rfl, rfl, rfl⟩

/-- Asking about the points of a list, none of which is known. -/
theorem ensures_evaluateAll {ps : List GridIndex} (hps : ∀ p ∈ ps, p ∈ allowed)
    (hnodup : ps.Nodup) (hnew : ∀ p ∈ ps, p ∉ asked log) :
    Ensures oracle allowed log (evaluateAll oracle ps) fun _ log' =>
      asked log' = asked log ++ ps := by
  induction ps generalizing log with
  | nil => exact ensures_pure (List.append_nil _).symm
  | cons p ps ih =>
    obtain ⟨hp, hrest⟩ := List.forall_mem_cons.1 hps
    obtain ⟨hnotin, hnodup'⟩ := List.nodup_cons.1 hnodup
    refine (ensures_evaluate hp (hnew p List.mem_cons_self)).bind ?_
    rintro - log' - - ⟨a, -, rfl, -⟩
    have hnew' : ∀ q ∈ ps, q ∉ asked (log ++ [(p, a)]) := by
      intro q hq hmem
      rw [asked_append_singleton, List.mem_append, List.mem_singleton] at hmem
      rcases hmem with hmem | rfl
      · exact hnew q (List.mem_cons_of_mem _ hq) hmem
      · exact hnotin hq
    refine (ih hrest hnodup' hnew').imp fun _ log'' _ _ h => ?_
    rw [h, asked_append_singleton, List.append_assoc]
    rfl

/-- Whether a gate works at a point, as the oracle has it. -/
def works (oracle : Oracle ε) (p : GridIndex) : Bool :=
  match oracle p with
  | .ok a => a.status == .operational
  | .error _ => false

theorem works_of_eq_ok {a : Assessment} (ha : oracle p = .ok a) :
    works oracle p = (a.status == .operational) := by
  rw [works, ha]

theorem works_iff :
    works oracle p = true ↔ ∃ a, oracle p = .ok a ∧ a.status = .operational := by
  rw [works]
  cases oracle p with
  | error e => simp
  | ok a => simp

/-- A known status is looked up, any other asked for. -/
theorem run_status (oracle : Oracle ε) (p : GridIndex) (survey : Exploration) :
    (status oracle p).run survey =
      match survey.statuses.get? p with
      | some s => .ok s survey
      | none => (evaluate oracle p).run survey := by
  show (match survey.statuses.get? p with
    | some s => (pure s : Explore ε Status)
    | none => evaluate oracle p).run survey = _
  cases survey.statuses.get? p with
  | none => rfl
  | some s => rfl

/-- A status is the oracle's, and afterwards known. -/
theorem ensures_status (hp : p ∈ allowed) :
    Ensures oracle allowed log (status oracle p) fun status log' =>
      (∃ a, oracle p = .ok a ∧ a.status = status) ∧
        ∀ q, q ∈ asked log' ↔ q ∈ asked log ∨ q = p := by
  intro survey hlog hrecords
  rw [run_status]
  by_cases hknown : p ∈ asked log
  · obtain ⟨a, ha⟩ := mem_asked_iff.1 hknown
    rw [hrecords.get?_eq_some_iff.2 ⟨a, ha, rfl⟩]
    refine ⟨log, hlog, hrecords, .refl allowed log, ⟨a, hlog.answered _ ha, rfl⟩, fun q => ?_⟩
    refine (or_iff_left_of_imp ?_).symm
    rintro rfl
    exact hknown
  · rw [hrecords.get?_eq_none_iff.2 hknown]
    refine ((ensures_evaluate hp hknown).imp ?_) survey hlog hrecords
    rintro status _ - - ⟨a, ha, rfl, hstatus⟩
    refine ⟨⟨a, ha, hstatus⟩, fun q => ?_⟩
    rw [asked_append_singleton, List.mem_append, List.mem_singleton]

/-- Whether a gate works at a point of the plane; off the grid it does not. -/
def worksAt (oracle : Oracle ε) (g : Grid) (x y : ℤ) : Bool :=
  g.contains x y && works oracle ⟨x.toNat, y.toNat⟩

/-- A point on the grid is known after the question. -/
theorem ensures_isOperational {g : Grid} (hallowed : ∀ p ∈ g, p ∈ allowed) (x y : ℤ) :
    Ensures oracle allowed log (isOperational oracle g x y) fun b log' =>
      b = worksAt oracle g x y ∧
        (g.contains x y = true → (⟨x.toNat, y.toNat⟩ : GridIndex) ∈ asked log') := by
  rw [isOperational]
  by_cases hcontains : g.contains x y = true
  · rw [if_pos hcontains]
    refine (ensures_status (hallowed _ (Grid.mem_of_contains hcontains))).bind ?_
    rintro status log' - - ⟨⟨a, ha, rfl⟩, hasked⟩
    refine ensures_pure ⟨?_, fun _ => (hasked _).2 (.inr rfl)⟩
    rw [worksAt, hcontains, works_of_eq_ok ha, Bool.true_and]
  · rw [if_neg hcontains]
    refine ensures_pure ⟨?_, fun h => absurd h hcontains⟩
    rw [worksAt, Bool.eq_false_of_not_eq_true hcontains, Bool.false_and]

/-- The points of a list are known afterwards, and those at which the gate works are returned. -/
theorem ensures_operational {ps : List GridIndex} (hps : ∀ p ∈ ps, p ∈ allowed) :
    Ensures oracle allowed log (operational oracle ps) fun working log' =>
      working = ps.filter (works oracle) ∧ ∀ q, q ∈ asked log' ↔ q ∈ asked log ∨ q ∈ ps := by
  induction ps generalizing log with
  | nil => exact ensures_pure ⟨rfl, fun q => by simp⟩
  | cons p ps ih =>
    obtain ⟨hp, hrest⟩ := List.forall_mem_cons.1 hps
    refine (ensures_status hp).bind ?_
    rintro status log' - - ⟨⟨a, ha, rfl⟩, hasked⟩
    refine (ih hrest).bind ?_
    rintro working log'' - - ⟨rfl, hasked'⟩
    refine ensures_pure ⟨?_, fun q => ?_⟩
    · rw [List.filter_cons, works_of_eq_ok ha]
    · rw [hasked', hasked, List.mem_cons, or_assoc]

end Steps

end Explore

end DanglingBonds
