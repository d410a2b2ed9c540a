/-
# Exchanged axes

If the axes of a domain are exchanged, the search of the whole grid goes through the same gate
checks in another order: the axes vary different parameters, so it does not matter which of them is
set first. The domain it finds is the transpose of the other, if the grid has fewer than 2 ^ 64
points, so that all of them are counted.

* `DomainOptions.gateAt_swapAxes` : the gate check at a point and at its transpose.
* `IsLog.transpose` : answers about points are answers about the transposed points.
* `Layout.exists_gridSearch_iff` : when the search of the whole grid gets through.
* `Layout.gridSearch_swapAxes` : exchanged axes transpose the domain.
* `gridSearch_swapAxes_wideDomain` : they do not if there are more points than are counted.
-/
import Mathlib
import DanglingBonds.Proofs.DomainCoverage

namespace DanglingBonds

variable {α : Type}

/-! ## Points and options -/

/-- The point with the steps along the two axes exchanged. -/
def GridIndex.transpose (p : GridIndex) : GridIndex :=
  ⟨p.y, p.x⟩

theorem GridIndex.transpose_involutive : Function.Involutive GridIndex.transpose :=
  fun _ => rfl

namespace DomainOptions

/-- The options with the axes exchanged. -/
def swapAxes (o : DomainOptions α) : DomainOptions α :=
  ⟨o.gate, o.yAxis, o.xAxis⟩

variable [Scalar α] {o : DomainOptions α} {p : GridIndex} {g : GateOptions α}

theorem check_swapAxes (h : o.check = .ok ()) : o.swapAxes.check = .ok () := by
  obtain ⟨hx, hy, hne⟩ := check_eq_ok_iff.1 h
  exact check_eq_ok_iff.2 ⟨hy, hx, hne.symm⟩

theorem transpose_mem_grid_iff : p.transpose ∈ o.swapAxes.grid ↔ p ∈ o.grid :=
  and_comm

/-- Options have both parameters set at a point whichever axis comes first. -/
theorem IsSetAt.swapAxes (h : o.IsSetAt p g) : o.swapAxes.IsSetAt p.transpose g :=
  { x := h.y
    y := h.x
    rest := fun s hx hy => h.rest s hy hx
    base := h.base
    engine := h.engine
    window := h.window }

/-- **The gate check at a point** is that at its transpose, since different parameters are set. -/
theorem gateAt_swapAxes (hne : o.xAxis.parameter ≠ o.yAxis.parameter) (p : GridIndex) :
    o.swapAxes.gateAt p.transpose = o.gateAt p :=
  ((isSetAt_iff hne.symm).1 ((isSetAt_iff hne).2 rfl).swapAxes).symm

end DomainOptions

/-! ## Answers -/

/-- The answers about transposed points. -/
def transposeLog (log : List Answer) : List Answer :=
  log.map fun e => (e.1.transpose, e.2)

section Logs

variable {ε : Type} {oracle oracle' : Oracle ε} {log log' : List Answer} {survey survey' : Survey}

theorem asked_transposeLog (log : List Answer) :
    asked (transposeLog log) = (asked log).map GridIndex.transpose := by
  rw [asked, asked, transposeLog, List.map_map, List.map_map]
  rfl

theorem mem_transposeLog_iff {p : GridIndex} {a : Assessment} :
    (p.transpose, a) ∈ transposeLog log ↔ (p, a) ∈ log := by
  rw [transposeLog, List.mem_map]
  constructor
  · rintro ⟨⟨q, b⟩, he, heq⟩
    obtain ⟨hq, rfl⟩ := Prod.mk.inj heq
    obtain rfl : q = p := GridIndex.transpose_involutive.injective hq
    exact he
  · exact fun he => ⟨(p, a), he, rfl⟩

/-- Answers of an oracle are answers of one that says the same about the transposed points. -/
theorem IsLog.transpose (h : IsLog oracle log) (horacle : ∀ p, oracle' p.transpose = oracle p) :
    IsLog oracle' (transposeLog log) where
  answered := by
    intro e he
    obtain ⟨e', he', rfl⟩ := List.mem_map.1 he
    rw [horacle, h.answered e' he']
  nodup := by
    rw [asked_transposeLog]
    exact h.nodup.map GridIndex.transpose_involutive.injective

/-- A survey of the transposed points: the status at a point is that at its transpose, and all
counts are equal. -/
structure Survey.IsTranspose (survey survey' : Survey) : Prop where
  status : ∀ i j, survey'.statuses.get? ⟨j, i⟩ = survey.statuses.get? ⟨i, j⟩
  size : survey'.statuses.size = survey.statuses.size
  count : ∀ status, survey'.count status = survey.count status
  evaluations : survey'.evaluations = survey.evaluations
  simulations : survey'.simulations = survey.simulations

/-- Surveys that record transposed answers are transposed, whatever the order of the answers. -/
theorem Survey.Records.isTranspose (h : survey.Records log) (h' : survey'.Records log')
    (hperm : log'.Perm (transposeLog log)) : survey.IsTranspose survey' where
  status i j := by
    refine Option.ext fun status => ?_
    rw [h.get?_eq_some_iff, h'.get?_eq_some_iff]
    refine exists_congr fun a => and_congr_left fun _ => ?_
    rw [hperm.mem_iff]
    exact mem_transposeLog_iff (p := ⟨i, j⟩)
  size := by
    rw [h.size_eq, h'.size_eq, hperm.length_eq, transposeLog, List.length_map]
  count status := by
    rw [h.count_eq, h'.count_eq, hperm.countP_eq, transposeLog, List.countP_map]
    rfl
  evaluations := by
    rw [h.evaluations, h'.evaluations, hperm.length_eq, transposeLog, List.length_map]
  simulations := by
    rw [h.simulations, h'.simulations, (hperm.map _).sum_eq, transposeLog, List.map_map]
    rfl

end Logs

/-! ## Searches of the whole grid -/

variable [Scalar α]

namespace Layout

variable {l : Layout α} {tables : List TruthTable} {o : DomainOptions α} {draws : DrawSource}
  {survey : Survey}

/-- The search of the whole grid gets through if the options are accepted and the gate check has a
verdict at every point that is counted. -/
theorem exists_gridSearch_iff :
    (∃ survey, (l.exploreDomain tables .gridSearch o draws).outcome = .ok survey) ↔
      o.check = .ok () ∧ ∀ p ∈ o.grid.points, ∃ a, l.gateOracle tables o p = .ok a := by
  constructor
  · rintro ⟨survey, h⟩
    obtain ⟨log, hlog, -, hasked⟩ := exists_log_of_gridSearch h
    refine ⟨(outcome_exploreDomain_eq_ok_iff.1 h).1, fun p hp => ?_⟩
    rw [← hasked] at hp
    obtain ⟨a, ha⟩ := mem_asked_iff.1 hp
    exact ⟨a, hlog.answered (p, a) ha⟩
  · rintro ⟨hcheck, hanswers⟩
    obtain ⟨whole, log, hwhole, -⟩ := exists_records_gridSearch hcheck hanswers
    exact ⟨whole, hwhole draws⟩

/-- **Exchanged axes transpose the domain.** Let the options of a domain with fewer than 2 ^ 64
points be accepted. They are accepted with the axes exchanged; the search of the whole grid returns
with the one if and only if it does with the other, and the surveys are then transposes of each
other, with equal counts. -/
theorem gridSearch_swapAxes (l : Layout α) (tables : List TruthTable) (o : DomainOptions α)
    (draws draws' : DrawSource) (hcheck : o.check = .ok ())
    (hsize : o.xAxis.points * o.yAxis.points < 2 ^ 64) :
    o.swapAxes.check = .ok () ∧
      ((∃ survey, (l.exploreDomain tables .gridSearch o.swapAxes draws').outcome = .ok survey) ↔
        ∃ survey, (l.exploreDomain tables .gridSearch o draws).outcome = .ok survey) ∧
      ∀ survey survey', (l.exploreDomain tables .gridSearch o draws).outcome = .ok survey →
        (l.exploreDomain tables .gridSearch o.swapAxes draws').outcome = .ok survey' →
        survey.IsTranspose survey' := by
  have hne := DomainOptions.parameter_ne_of_check hcheck
  have hcheck' := DomainOptions.check_swapAxes hcheck
  have hpoints : ∀ p, p ∈ o.grid.points ↔ p ∈ o.grid :=
    fun p => Grid.mem_points_iff (g := o.grid) hsize
  have hpoints' : ∀ p, p ∈ o.swapAxes.grid.points ↔ p ∈ o.swapAxes.grid := by
    rw [mul_comm] at hsize
    exact fun p => Grid.mem_points_iff (g := o.swapAxes.grid) hsize
  have horacle : ∀ p, l.gateOracle tables o.swapAxes p.transpose = l.gateOracle tables o p :=
    fun p => congrArg (l.assess tables) (DomainOptions.gateAt_swapAxes hne p)
  refine ⟨hcheck', ?_, fun survey survey' h h' => ?_⟩
  · rw [exists_gridSearch_iff, exists_gridSearch_iff, and_iff_right hcheck, and_iff_right hcheck']
    simp only [hpoints, hpoints']
    constructor
    · intro hanswers p hp
      rw [← horacle]
      exact hanswers _ (DomainOptions.transpose_mem_grid_iff.2 hp)
    · intro hanswers p hp
      rw [← GridIndex.transpose_involutive p, horacle]
      exact hanswers _ (DomainOptions.transpose_mem_grid_iff.1 hp)
  · obtain ⟨log, hlog, hrecords, hasked⟩ := exists_log_of_gridSearch h
    obtain ⟨log', hlog', hrecords', hasked'⟩ := exists_log_of_gridSearch h'
    refine hrecords.isTranspose hrecords' (hlog'.perm (hlog.transpose horacle) fun p => ?_)
    rw [hasked', hpoints', asked_transposeLog, hasked, List.mem_map]
    constructor
    · intro hp
      exact ⟨p.transpose, (hpoints _).2 (DomainOptions.transpose_mem_grid_iff.1 hp), rfl⟩
    · rintro ⟨q, hq, rfl⟩
      exact DomainOptions.transpose_mem_grid_iff.2 ((hpoints q).1 hq)

end Layout

/-- The two permittivities of the small domain lie along the second axis once its axes are
exchanged. -/
theorem gridSearch_swapAxes_smallDomain :
    smallDomain.check = .ok () ∧ smallDomain.xAxis.points * smallDomain.yAxis.points < 2 ^ 64 ∧
      smallDomain.swapAxes.yAxis.parameter = .epsilonR ∧
      ∃ survey survey' : Survey,
        (shortWire.exploreDomain [⟨1, [false, true], rfl⟩] .gridSearch smallDomain
          (DrawSource.ofLists [])).outcome = .ok survey ∧
        (shortWire.exploreDomain [⟨1, [false, true], rfl⟩] .gridSearch smallDomain.swapAxes
          (DrawSource.ofLists [])).outcome = .ok survey' ∧
        survey'.statuses.size = survey.statuses.size ∧
        survey'.statuses.get? ⟨0, 1⟩ = survey.statuses.get? ⟨1, 0⟩ := by
  obtain ⟨-, hreturns, htranspose⟩ := Layout.gridSearch_swapAxes shortWire
    [⟨1, [false, true], rfl⟩] smallDomain (DrawSource.ofLists []) (DrawSource.ofLists [])
    check_smallDomain size_smallDomain_lt
  have hwire : ∃ survey, (shortWire.exploreDomain [⟨1, [false, true], rfl⟩] .gridSearch smallDomain
      (DrawSource.ofLists [])).outcome = .ok survey :=
    Layout.exists_gridSearch_iff.2 ⟨check_smallDomain, fun p _ => exists_assess_smallDomain p⟩
  obtain ⟨survey', hsurvey'⟩ := hreturns.2 hwire
  obtain ⟨survey, hsurvey⟩ := hwire
  have hsurveys := htranspose survey survey' hsurvey hsurvey'
  exact ⟨check_smallDomain, size_smallDomain_lt, rfl, survey, survey', hsurvey, hsurvey',
    hsurveys.size, hsurveys.status 1 0⟩

/-- In the wide domain the search of the whole grid finds the second of the four permittivities at
the lowest level. With the axes exchanged it finds no permittivity but the first. -/
theorem gridSearch_swapAxes_wideDomain :
    wideDomain.check = .ok () ∧
      ∃ survey survey' : Survey,
        (heldWire.exploreDomain [⟨1, [false, false], rfl⟩] .gridSearch wideDomain
          (DrawSource.ofLists [])).outcome = .ok survey ∧
        (heldWire.exploreDomain [⟨1, [false, false], rfl⟩] .gridSearch wideDomain.swapAxes
          (DrawSource.ofLists [])).outcome = .ok survey' ∧
        ∃ status, survey.statuses.get? ⟨1, 0⟩ = some status ∧
          survey'.statuses.get? ⟨0, 1⟩ = none := by
  have hne := DomainOptions.parameter_ne_of_check check_wideDomain
  obtain ⟨survey, hsurvey⟩ : ∃ survey, (heldWire.exploreDomain [⟨1, [false, false], rfl⟩]
      .gridSearch wideDomain (DrawSource.ofLists [])).outcome = .ok survey :=
    Layout.exists_gridSearch_iff.2 ⟨check_wideDomain, fun p _ => exists_assess_wideDomain p⟩
  obtain ⟨survey', hsurvey'⟩ : ∃ survey, (heldWire.exploreDomain [⟨1, [false, false], rfl⟩]
      .gridSearch wideDomain.swapAxes (DrawSource.ofLists [])).outcome = .ok survey := by
    refine Layout.exists_gridSearch_iff.2
      ⟨DomainOptions.check_swapAxes check_wideDomain, fun p _ => ?_⟩
    obtain ⟨a, ha⟩ := exists_assess_wideDomain p.transpose
    rw [Layout.gateOracle, ← DomainOptions.gateAt_swapAxes hne] at ha
    exact ⟨a, ha⟩
  obtain ⟨log, -, hrecords, hasked⟩ := Layout.exists_log_of_gridSearch hsurvey
  obtain ⟨log', -, hrecords', hasked'⟩ := Layout.exists_log_of_gridSearch hsurvey'
  rw [counted_wideDomain] at hasked
  have hswapped : wideDomain.swapAxes.grid.points = [⟨0, 0⟩, ⟨1, 0⟩, ⟨2, 0⟩, ⟨3, 0⟩] := by
    obtain ⟨hx, hy⟩ := points_wideDomain
    rw [DomainOptions.grid, DomainOptions.swapAxes, hx, hy]
    rfl
  rw [hswapped] at hasked'
  obtain ⟨a, ha⟩ := mem_asked_iff.1 (show (⟨1, 0⟩ : GridIndex) ∈ asked log by rw [hasked]; decide)
  refine ⟨check_wideDomain, survey, survey', hsurvey, hsurvey', a.status,
    hrecords.get?_eq_some_iff.2 ⟨a, ha, rfl⟩, hrecords'.get?_eq_none_iff.2 ?_⟩
  rw [hasked']
  decide

end DanglingBonds
