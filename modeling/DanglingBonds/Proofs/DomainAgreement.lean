/-
# The strategies agree

Each strategy that explores an operational domain asks about grid points only, about none of them
twice, and keeps the verdicts it gets. What it finds is therefore part of what a search of the whole
grid finds, and it fails only where that search fails. The search goes through the points that are
counted; a strategy that goes on from its first points may leave these if the grid has 2 ^ 64 points
or more.

* `DomainOptions.isSetAt_iff` : the options at a grid point have both varied parameters set there.
* `Strategy.isOutcome_explore` : each strategy asks about grid points, and about all of its sample.
* `Survey.Records.holds` : what a survey says about the points that were asked about.
* `Layout.exploreDomain_agrees` : each strategy reports verdicts of the gate check, and a part of
  what the search of the whole grid reports.
* `floodFill_leaves_wideDomain` : a strategy that leaves the points that are counted.
-/
import Mathlib
import DanglingBonds.Proofs.AnswerTicks
import DanglingBonds.Proofs.ContourCoverage
import DanglingBonds.Proofs.Draws
import DanglingBonds.Proofs.Existence
import DanglingBonds.Proofs.FloodFillClosure
import DanglingBonds.Proofs.HeldCells
import DanglingBonds.Proofs.SweepAxes

namespace DanglingBonds

variable {α : Type}

/-! ## Options at a grid point -/

namespace SweepParameter

/-- The value of the parameter. -/
def read : SweepParameter → Parameters α → α
  | epsilonR, p => p.epsilonR
  | lambdaTF, p => p.lambdaTF
  | muMinus, p => p.muMinus

theorem read_apply (s : SweepParameter) (p : Parameters α) (v : α) : s.read (s.apply p v) = v := by
  cases s <;> rfl

/-- The other parameters stay as they are. -/
theorem read_apply_of_ne {s t : SweepParameter} (h : s ≠ t) (p : Parameters α) (v : α) :
    s.read (t.apply p v) = s.read p := by
  revert h
  cases s <;> cases t <;> simp [read, apply]

theorem base_apply (s : SweepParameter) (p : Parameters α) (v : α) :
    (s.apply p v).base = p.base := by
  cases s <;> rfl

end SweepParameter

/-- Parameters are determined by the base and the values that can be varied. -/
theorem Parameters.eq_of_read_eq {p q : Parameters α} (hbase : p.base = q.base)
    (h : ∀ s : SweepParameter, s.read p = s.read q) : p = q := by
  rcases p with ⟨b, e, l, m⟩
  rcases q with ⟨b', e', l', m'⟩
  have he : e = e' := h .epsilonR
  have hl : l = l' := h .lambdaTF
  have hm : m = m' := h .muMinus
  have hb : b = b' := hbase
  rw [he, hl, hm, hb]

variable [Scalar α]

/-- Options of a gate check with both varied parameters set to the values at a grid point, and all
else as in the options of the domain. -/
structure DomainOptions.IsSetAt (o : DomainOptions α) (p : GridIndex) (g : GateOptions α) :
    Prop where
  x : o.xAxis.parameter.read g.parameters = o.xAxis.value p.x
  y : o.yAxis.parameter.read g.parameters = o.yAxis.value p.y
  rest : ∀ s, s ≠ o.xAxis.parameter → s ≠ o.yAxis.parameter →
    s.read g.parameters = s.read o.gate.parameters
  base : g.parameters.base = o.gate.parameters.base
  engine : g.engine = o.gate.engine
  window : g.window = o.gate.window

namespace DomainOptions

variable {o : DomainOptions α} {p : GridIndex} {g : GateOptions α}

/-- The options of a domain are accepted if its axes are and vary different parameters. -/
theorem check_eq_ok_iff : o.check = .ok () ↔
    o.xAxis.check = .ok () ∧ o.yAxis.check = .ok () ∧
      o.xAxis.parameter ≠ o.yAxis.parameter := by
  rw [check, bind_eq_ok_iff]
  simp only [bind_eq_ok_iff]
  constructor
  · rintro ⟨_, hx, _, hy, hne⟩
    refine ⟨hx, hy, fun heq => ?_⟩
    rw [if_pos heq] at hne
    cases hne
  · rintro ⟨hx, hy, hne⟩
    exact ⟨(), hx, (), hy, if_neg hne⟩

/-- Accepted axes vary different parameters. -/
theorem parameter_ne_of_check (h : o.check = .ok ()) :
    o.xAxis.parameter ≠ o.yAxis.parameter :=
  (check_eq_ok_iff.1 h).2.2

/-- **The options at a grid point** are those with both varied parameters set to the values there.
-/
theorem isSetAt_iff (hne : o.xAxis.parameter ≠ o.yAxis.parameter) :
    o.IsSetAt p g ↔ g = o.gateAt p := by
  have hgate : o.IsSetAt p (o.gateAt p) :=
    { x := SweepParameter.read_apply _ _ _
      y := (SweepParameter.read_apply_of_ne hne.symm _ _).trans (SweepParameter.read_apply _ _ _)
      rest := fun s hx hy => (SweepParameter.read_apply_of_ne hx _ _).trans
        (SweepParameter.read_apply_of_ne hy _ _)
      base := (SweepParameter.base_apply _ _ _).trans (SweepParameter.base_apply _ _ _)
      engine := rfl
      window := rfl }
  constructor
  · intro h
    have hparameters : g.parameters = (o.gateAt p).parameters := by
      refine Parameters.eq_of_read_eq (h.base.trans hgate.base.symm) fun s => ?_
      by_cases hx : s = o.xAxis.parameter
      · rw [hx, h.x, hgate.x]
      · by_cases hy : s = o.yAxis.parameter
        · rw [hy, h.y, hgate.y]
        · rw [h.rest s hx hy, hgate.rest s hx hy]
    rcases g with ⟨parameters, engine, window⟩
    have hengine : engine = o.gate.engine := h.engine
    have hwindow : window = o.gate.window := h.window
    have hparameters' : parameters = (o.gateAt p).parameters := hparameters
    rw [hengine, hwindow, hparameters']
    rfl
  · rintro rfl
    exact hgate

end DomainOptions

/-- The gate check at grid points, as an oracle. -/
def Layout.gateOracle (l : Layout α) (tables : List TruthTable) (o : DomainOptions α) :
    Oracle (AnalysisError α) :=
  fun p => l.assess tables (o.gateAt p)

/-! ## What a survey says -/

/-- A survey holds verdicts of a gate check on different points of the grid: the verdict at each
point is the one with both varied parameters set there, each has been reached once, and they are
counted. -/
structure Survey.Holds (survey : Survey) (l : Layout α) (tables : List TruthTable)
    (o : DomainOptions α) (verdict : GridIndex → Assessment) : Prop where
  distinct : survey.statuses.keys.Nodup
  inGrid : ∀ p ∈ survey.statuses.keys, p.x < o.xAxis.points ∧ p.y < o.yAxis.points
  assessed : ∀ p ∈ survey.statuses.keys,
    ∃ g, o.IsSetAt p g ∧ l.assess tables g = .ok (verdict p)
  status : ∀ p ∈ survey.statuses.keys, survey.statuses.get? p = some (verdict p).status
  evaluations : survey.evaluations = survey.statuses.keys.length
  count : ∀ status, survey.count status =
    survey.statuses.keys.countP fun p => (verdict p).status == status
  simulations : survey.simulations =
    (survey.statuses.keys.map fun p => (verdict p).simulations).sum

section Surveys

variable {ε : Type} {oracle : Oracle ε} {log : List Answer} {survey : Survey}

/-- The oracle's verdict at a point, if it has one. -/
def verdictAt (oracle : Oracle ε) (p : GridIndex) : Assessment :=
  match oracle p with
  | .ok a => a
  | .error _ => ⟨none, 0⟩

theorem IsLog.verdictAt_eq (hlog : IsLog oracle log) {e : Answer} (he : e ∈ log) :
    oracle e.1 = .ok (verdictAt oracle e.1) ∧ verdictAt oracle e.1 = e.2 := by
  have ha := hlog.answered e he
  have hverdict : verdictAt oracle e.1 = e.2 := by rw [verdictAt, ha]
  exact ⟨hverdict ▸ ha, hverdict⟩

/-- A survey of a log holds the verdicts of the gate check that the oracle carries out. -/
theorem Survey.Records.holds {l : Layout α} {tables : List TruthTable} {o : DomainOptions α}
    {log : List Answer} {survey : Survey} (h : survey.Records log)
    (hlog : IsLog (l.gateOracle tables o) log)
    (hgrid : ∀ p ∈ asked log, p ∈ o.grid) (hne : o.xAxis.parameter ≠ o.yAxis.parameter) :
    survey.Holds l tables o (verdictAt (l.gateOracle tables o)) := by
  have hasked : ∀ p ∈ survey.statuses.keys, ∃ a, (p, a) ∈ log :=
    fun p hp => mem_asked_iff.1 (h.keys_perm.mem_iff.1 hp)
  exact
    { distinct := h.keys_perm.nodup_iff.2 hlog.nodup
      inGrid := fun p hp => hgrid p (h.keys_perm.mem_iff.1 hp)
      assessed := fun p hp => by
        obtain ⟨a, ha⟩ := hasked p hp
        exact ⟨o.gateAt p, (DomainOptions.isSetAt_iff hne).2 rfl, (hlog.verdictAt_eq ha).1⟩
      status := fun p hp => by
        obtain ⟨a, ha⟩ := hasked p hp
        exact h.get?_eq_some_iff.2 ⟨a, ha, congrArg Assessment.status (hlog.verdictAt_eq ha).2.symm⟩
      evaluations := by
        rw [h.evaluations, h.keys_perm.length_eq, asked, List.length_map]
      count := fun status => by
        rw [h.count_eq, h.keys_perm.countP_eq, asked, List.countP_map]
        refine List.countP_congr fun e he => ?_
        rw [Function.comp_apply, (hlog.verdictAt_eq he).2]
      simulations := by
        rw [h.simulations, (h.keys_perm.map _).sum_eq, asked, List.map_map]
        refine congrArg List.sum (List.map_congr_left fun e he => ?_)
        rw [Function.comp_apply, (hlog.verdictAt_eq he).2] }

end Surveys

/-! ## Strategies -/

namespace Strategy

variable {ε : Type} {g : Grid} {draws : DrawSource} {s : Strategy} {p : GridIndex}

/-- A flood fill and the tracing of a contour go on from the points that they have at first. -/
def FollowsRegion : Strategy → Prop
  | floodFill .. | contourTracing _ => True
  | gridSearch | randomSampling _ => False

/-- The points that a strategy has before it asks: those of the grid that are counted, or a sample
of them. -/
def sampled (s : Strategy) (g : Grid) (draws : DrawSource) : List GridIndex :=
  match s with
  | gridSearch => g.points
  | randomSampling n | floodFill n _ | contourTracing n => g.sample draws 0 n

/-- The points that a strategy may ask about. -/
def askable (s : Strategy) (g : Grid) (draws : DrawSource) : List GridIndex :=
  match s with
  | gridSearch | randomSampling _ => s.sampled g draws
  | floodFill .. | contourTracing _ => g.allPoints

/-- A strategy may ask about grid points only. -/
theorem mem_grid_of_mem_askable (hdraws : draws.IsProper 0 g.total)
    (hp : p ∈ s.askable g draws) : p ∈ g := by
  cases s with
  | gridSearch => exact Grid.mem_of_mem_points hp
  | randomSampling n => exact Grid.mem_of_mem_sample hdraws hp
  | floodFill n nb | contourTracing n => exact Grid.mem_allPoints_iff.1 hp

/-- A strategy that goes on from its first points may leave those that are counted, unless all are.
-/
theorem mem_points_of_mem_askable (hdraws : draws.IsProper 0 g.total)
    (hsize : s.FollowsRegion → g.size < 2 ^ 64) (hp : p ∈ s.askable g draws) : p ∈ g.points := by
  cases s with
  | gridSearch => exact hp
  | randomSampling n => exact Grid.mem_points_of_mem_sample hdraws hp
  | floodFill n nb | contourTracing n =>
    rw [Grid.points_eq_allPoints (hsize trivial)]
    exact hp

/-- What has been asked about once a strategy gets through: the points it has had, and nothing else
unless it goes on from them. -/
structure HasAsked (s : Strategy) (g : Grid) (draws : DrawSource) (log : List Answer) : Prop where
  sampled : ∀ p ∈ s.sampled g draws, p ∈ asked log
  listed : ¬ s.FollowsRegion → asked log = s.sampled g draws

/-- The points of a list are asked about one after the other. -/
theorem isOutcome_evaluateAll (oracle : Oracle ε) {ps : List GridIndex} (hnodup : ps.Nodup) :
    Explore.IsOutcome oracle {p | p ∈ ps} [] (fun _ log => asked log = ps)
      ((Explore.evaluateAll oracle ps).run {}) :=
  Explore.ensures_evaluateAll (fun _ hp => hp) hnodup (fun _ _ => List.not_mem_nil) {} isLog_nil
    Survey.records_empty

/-- A strategy that goes through a list asks about its points. -/
theorem HasAsked.of_eq {s : Strategy} {log : List Answer} (h : asked log = s.sampled g draws) :
    s.HasAsked g draws log where
  sampled _ hp := h ▸ hp
  listed _ := h

/-- **Each strategy asks about grid points only**, and about none twice. It asks about all the
points it has at first, and a search of the whole grid or of a random sample about no others. -/
theorem isOutcome_explore (s : Strategy) (g : Grid) (oracle : Oracle ε)
    (hdraws : draws.IsProper 0 g.total) :
    Explore.IsOutcome oracle {p | p ∈ s.askable g draws} [] (fun _ log => s.HasAsked g draws log)
      ((s.explore g oracle draws).run {}) := by
  have hsample : ∀ n, ∀ p ∈ g.sample draws 0 n, p ∈ g := fun n p => Grid.mem_of_mem_sample hdraws
  cases s with
  | gridSearch => exact (isOutcome_evaluateAll oracle Grid.nodup_points).imp fun _ _ _ _ h => .of_eq h
  | randomSampling n =>
    exact (isOutcome_evaluateAll oracle (Grid.sample_nodup hdraws)).imp fun _ _ _ _ h => .of_eq h
  | floodFill n nb =>
    have hfills : Explore.Fills oracle g nb (g.sample draws 0 n)
        ((Explore.floodFill oracle g nb (g.sample draws 0 n)).run {}) :=
      Explore.fills_floodFill (Grid.sample_nodup hdraws) (hsample n)
    refine ((hfills.isOutcome (Grid.sample_nodup hdraws)).mono fun p hp => ?_).imp ?_
    · exact Grid.mem_allPoints_iff.2 (Explore.mem_grid_of_mem_closure (hsample n) hp)
    · intro _ _ _ _ hclosed
      exact ⟨hclosed.seeds, fun hfill => absurd trivial hfill⟩
  | contourTracing n =>
    have htraced := Explore.isOutcome_contourTracing oracle (hsample n)
    refine (htraced.mono fun p => Grid.mem_allPoints_iff.2).imp ?_
    intro _ _ _ _ hasked
    exact ⟨hasked, fun htrace => absurd trivial htrace⟩

end Strategy

/-! ## Explorations of a domain -/

namespace Layout

variable {l : Layout α} {tables : List TruthTable} {s : Strategy} {o : DomainOptions α}
  {draws : DrawSource} {survey : Survey}

/-- An exploration whose options and strategy are accepted returns what its strategy comes to, in a
bracketed phase that ticks once for each answer. -/
theorem exploreDomain_of_check
    (hcheck : (o.check *> s.check : Except (SetupError α) Unit) = .ok ()) :
    let run := (s.explore o.grid (l.gateOracle tables o) draws).run {}
    (l.exploreDomain tables s o draws).outcome = Explore.returned run ∧
      (l.exploreDomain tables s o draws).IsBracketed s.phase (s.announced o.grid draws)
        (reached run).evaluations := by
  rw [exploreDomain, hcheck]
  exact (s.ticks_explore o.grid (l.gateOracle tables o) draws).phase _ _

/-- An exploration returns a survey if the options are accepted, the strategy has a seed where it
needs one, and the strategy gets through. -/
theorem outcome_exploreDomain_eq_ok_iff :
    (l.exploreDomain tables s o draws).outcome = .ok survey ↔
      o.check = .ok () ∧ (s.check : Except (SetupError α) Unit) = .ok () ∧
        Explore.returned ((s.explore o.grid (l.gateOracle tables o) draws).run {})
          = .ok survey := by
  cases ho : o.check with
  | error e =>
    rw [exploreDomain, ho]
    exact iff_of_false (fun h => by cases h) fun h => by cases h.1
  | ok u =>
    cases hs : (s.check : Except (SetupError α) Unit) with
    | error e =>
      rw [exploreDomain, ho, hs]
      exact iff_of_false (fun h => by cases h) fun h => by cases h.2.1
    | ok u =>
      have hcheck : (o.check *> (s.check : Except (SetupError α) Unit)) = .ok () := by
        rw [ho, hs]
        rfl
      rw [(exploreDomain_of_check hcheck).1, and_iff_right rfl, and_iff_right rfl]

omit [Scalar α] in
/-- Every strategy but a flood fill without seeds is accepted. -/
theorem check_strategy_eq_ok (h : ∀ nb, s ≠ .floodFill 0 nb) :
    (s.check : Except (SetupError α) Unit) = .ok () := by
  cases s with
  | floodFill n nb =>
    cases n with
    | zero => exact absurd rfl (h nb)
    | succ n => rfl
  | gridSearch => rfl
  | randomSampling n => rfl
  | contourTracing n => rfl

/-- What an exploration has asked about when it returns. -/
theorem exists_log_of_outcome (hdraws : draws.IsProper 0 o.grid.total)
    (h : (l.exploreDomain tables s o draws).outcome = .ok survey) :
    ∃ log, IsLog (l.gateOracle tables o) log ∧ survey.Records log ∧
      (∀ p ∈ asked log, p ∈ s.askable o.grid draws) ∧ s.HasAsked o.grid draws log := by
  have houtcome := s.isOutcome_explore o.grid (l.gateOracle tables o) hdraws
  obtain ⟨-, -, hreturned⟩ := outcome_exploreDomain_eq_ok_iff.1 h
  obtain ⟨reached, hrun, rfl⟩ := Explore.returned_eq_ok_iff.1 hreturned
  rw [hrun] at houtcome
  obtain ⟨log, hlog, hrecords, hcontinues, hasked⟩ := houtcome
  exact ⟨log, hlog, hrecords, fun p hp => (hcontinues.new p hp).resolve_left List.not_mem_nil,
    hasked⟩

/-- A flood fill that returns has asked about a closed set of points. -/
theorem exists_log_of_floodFill {n : ℕ} {nb : Neighborhood} (hdraws : draws.IsProper 0 o.grid.total)
    (h : (l.exploreDomain tables (.floodFill n nb) o draws).outcome = .ok survey) :
    ∃ log, IsLog (l.gateOracle tables o) log ∧ survey.Records log ∧
      Explore.IsClosed (l.gateOracle tables o) o.grid nb (o.grid.sample draws 0 n)
        {p | p ∈ asked log} := by
  have hsample : ∀ p ∈ o.grid.sample draws 0 n, p ∈ o.grid :=
    fun p => Grid.mem_of_mem_sample hdraws
  have hfills : Explore.Fills (l.gateOracle tables o) o.grid nb (o.grid.sample draws 0 n)
      ((Explore.floodFill (l.gateOracle tables o) o.grid nb (o.grid.sample draws 0 n)).run {}) :=
    Explore.fills_floodFill (Grid.sample_nodup hdraws) hsample
  have houtcome := hfills.isOutcome (Grid.sample_nodup hdraws)
  obtain ⟨-, -, hreturned⟩ := outcome_exploreDomain_eq_ok_iff.1 h
  obtain ⟨reached, hrun, rfl⟩ := Explore.returned_eq_ok_iff.1 hreturned
  rw [Strategy.explore] at hrun
  rw [hrun] at houtcome
  obtain ⟨log, hlog, hrecords, -, hclosed⟩ := houtcome
  exact ⟨log, hlog, hrecords, hclosed⟩

/-- A search of the whole grid that returns has asked about the points that are counted. -/
theorem exists_log_of_gridSearch
    (h : (l.exploreDomain tables .gridSearch o draws).outcome = .ok survey) :
    ∃ log, IsLog (l.gateOracle tables o) log ∧ survey.Records log ∧
      asked log = o.grid.points := by
  -- the search draws nothing, so the source does not matter
  have h' : (l.exploreDomain tables .gridSearch o (DrawSource.ofLists [])).outcome = .ok survey := h
  obtain ⟨log, hlog, hrecords, -, hasked⟩ :=
    exists_log_of_outcome (DrawSource.isProper_ofLists [] _ _) h'
  exact ⟨log, hlog, hrecords, hasked.listed not_false⟩

/-- If the gate check has a verdict wherever a strategy may ask, the strategy gets through. -/
theorem exists_outcome_exploreDomain (hdraws : draws.IsProper 0 o.grid.total)
    (hcheck : o.check = .ok ()) (hseeds : ∀ nb, s ≠ .floodFill 0 nb)
    (hanswers : ∀ p ∈ s.askable o.grid draws, ∃ a, l.gateOracle tables o p = .ok a) :
    ∃ survey, (l.exploreDomain tables s o draws).outcome = .ok survey := by
  have houtcome := s.isOutcome_explore o.grid (l.gateOracle tables o) hdraws
  obtain ⟨u, reached, hrun⟩ := houtcome.exists_eq_ok hanswers
  exact ⟨reached.toSurvey, outcome_exploreDomain_eq_ok_iff.2
    ⟨hcheck, check_strategy_eq_ok hseeds, Explore.returned_eq_ok_iff.2 ⟨reached, hrun, rfl⟩⟩⟩

/-- **The strategies agree.** What an exploration reports are verdicts of the gate check at
different points of the grid, each reached once and counted. If the search of the whole grid
returns, so does every other strategy, a flood fill with at least one seed, and what it has found is
found by that search. For a strategy that goes on from the points it has at first, the points of the
grid have to be fewer than 2 ^ 64: the search counts them in 64 bits. -/
theorem exploreDomain_agrees (l : Layout α) (tables : List TruthTable) (s : Strategy)
    (o : DomainOptions α) (hdraws : draws.IsProper 0 o.grid.total) :
    (∀ survey, (l.exploreDomain tables s o draws).outcome = .ok survey →
      ∃ verdict, survey.Holds l tables o verdict) ∧
    ∀ whole draws', (l.exploreDomain tables .gridSearch o draws').outcome = .ok whole →
      (∀ nb, s ≠ .floodFill 0 nb) →
      (s.FollowsRegion → o.xAxis.points * o.yAxis.points < 2 ^ 64) →
      ∃ survey, (l.exploreDomain tables s o draws).outcome = .ok survey ∧
        ∀ p status, survey.statuses.get? p = some status →
          whole.statuses.get? p = some status := by
  constructor
  · intro survey h
    obtain ⟨log, hlog, hrecords, hasked, -⟩ := exists_log_of_outcome hdraws h
    have hcheck := (outcome_exploreDomain_eq_ok_iff.1 h).1
    exact ⟨_, hrecords.holds hlog
      (fun p hp => Strategy.mem_grid_of_mem_askable hdraws (hasked p hp))
      (DomainOptions.parameter_ne_of_check hcheck)⟩
  · intro whole draws' h hseeds hsize
    obtain ⟨logw, hlogw, hrecordsw, hpoints⟩ := exists_log_of_gridSearch h
    have hcheck := (outcome_exploreDomain_eq_ok_iff.1 h).1
    have hall : ∀ p ∈ s.askable o.grid draws, ∃ a, (p, a) ∈ logw := by
      intro p hp
      rw [← mem_asked_iff, hpoints]
      exact Strategy.mem_points_of_mem_askable hdraws hsize hp
    have hanswers : ∀ p ∈ s.askable o.grid draws, ∃ a, l.gateOracle tables o p = .ok a := by
      intro p hp
      obtain ⟨a, ha⟩ := hall p hp
      exact ⟨a, hlogw.answered (p, a) ha⟩
    obtain ⟨survey, hsurvey⟩ := exists_outcome_exploreDomain hdraws hcheck hseeds hanswers
    obtain ⟨log, hlog, hrecords, hasked, -⟩ := exists_log_of_outcome hdraws hsurvey
    refine ⟨survey, hsurvey, fun p status hstatus => ?_⟩
    obtain ⟨a, ha, rfl⟩ := hrecords.get?_eq_some_iff.1 hstatus
    obtain ⟨a', ha'⟩ := hall p (hasked p (mem_asked_iff.2 ⟨a, ha⟩))
    obtain rfl := hlog.eq_of_mem hlogw ha ha'
    exact hrecordsw.get?_eq_some_iff.2 ⟨a, ha', rfl⟩

end Layout

/-! ## A small domain -/

/-- Two permittivities and one screening length. -/
noncomputable def smallDomain : DomainOptions ℝ where
  gate := twoStateGate
  xAxis := ⟨.epsilonR, 5.0, 6.0, 1⟩
  yAxis := ⟨.lambdaTF, 5.0, 5.0, 1⟩

theorem check_smallDomain_axes :
    smallDomain.xAxis.check = .ok () ∧ smallDomain.yAxis.check = .ok () := by
  rw [SweepAxis.check_eq_ok_iff, SweepAxis.check_eq_ok_iff]
  norm_num [smallDomain]

theorem check_smallDomain : smallDomain.check = .ok () := by
  obtain ⟨hx, hy⟩ := check_smallDomain_axes
  exact DomainOptions.check_eq_ok_iff.2 ⟨hx, hy, SweepParameter.noConfusion⟩

theorem points_smallDomain : smallDomain.xAxis.points = 2 ∧ smallDomain.yAxis.points = 1 := by
  constructor
  · refine SweepAxis.points_of_aligned (k := 1) (by norm_num) ?_
    norm_num [SweepAxis.extent, smallDomain]
  · refine SweepAxis.points_of_aligned (k := 0) (by norm_num) ?_
    norm_num [SweepAxis.extent, smallDomain]

theorem size_smallDomain_lt : smallDomain.xAxis.points * smallDomain.yAxis.points < 2 ^ 64 := by
  obtain ⟨hx, hy⟩ := points_smallDomain
  rw [hx, hy]
  norm_num

/-- The check of the wire as a gate reaches a verdict at every point. -/
theorem exists_assess_smallDomain (p : GridIndex) :
    ∃ a, shortWire.gateOracle [⟨1, [false, true], rfl⟩] smallDomain p = .ok a := by
  obtain ⟨hx, hy⟩ := check_smallDomain_axes
  have hp : (smallDomain.gateAt p).parameters.check = .ok () := by
    refine Parameters.check_eq_ok_iff.2 ⟨.inl rfl, ?_, ?_⟩
    · exact lt_of_lt_of_le (by norm_num [smallDomain]) (SweepAxis.min_le_value hx p.x)
    · exact lt_of_lt_of_le (by norm_num [smallDomain]) (SweepAxis.min_le_value hy p.y)
  exact exists_assess hp rfl (checkArity_shortWire (t := ⟨1, [false, true], rfl⟩) rfl)
    fun i _ => fitsIndices_of_pow_le hp (two_pow_size_shortWire_le i) _

/-- A flood fill of the small domain finds a part of what the search of the whole domain finds. -/
theorem exploreDomain_agrees_smallDomain :
    (DrawSource.ofLists []).IsProper 0 smallDomain.grid.total ∧
      smallDomain.xAxis.points * smallDomain.yAxis.points < 2 ^ 64 ∧
      ∃ whole survey verdict,
        (shortWire.exploreDomain [⟨1, [false, true], rfl⟩] .gridSearch smallDomain
          (DrawSource.ofLists [])).outcome = .ok whole ∧
        (shortWire.exploreDomain [⟨1, [false, true], rfl⟩] (.floodFill 1 .moore) smallDomain
          (DrawSource.ofLists [])).outcome = .ok survey ∧
        survey.Holds shortWire [⟨1, [false, true], rfl⟩] smallDomain verdict ∧
        ∀ p status, survey.statuses.get? p = some status →
          whole.statuses.get? p = some status := by
  have hdraws := DrawSource.isProper_ofLists [] 0 smallDomain.grid.total
  have hseeds : ∀ nb, Strategy.floodFill 1 .moore ≠ .floodFill 0 nb := by
    intro nb h
    cases h
  have hsearch : ∀ nb, Strategy.gridSearch ≠ .floodFill 0 nb := by
    intro nb h
    cases h
  obtain ⟨whole, hwhole⟩ := Layout.exists_outcome_exploreDomain hdraws check_smallDomain hsearch
    fun p _ => exists_assess_smallDomain p
  obtain ⟨hholds, hpart⟩ := Layout.exploreDomain_agrees shortWire [⟨1, [false, true], rfl⟩]
    (.floodFill 1 .moore) smallDomain hdraws
  obtain ⟨survey, hsurvey, hsub⟩ := hpart whole _ hwhole hseeds fun _ => size_smallDomain_lt
  obtain ⟨verdict, hverdict⟩ := hholds survey hsurvey
  exact ⟨hdraws, size_smallDomain_lt, whole, survey, verdict, hwhole, hsurvey, hverdict, hsub⟩

/-! ## A domain whose points are too many to count -/

/-- Four permittivities and 2 ^ 62 + 1 levels, so that 2 ^ 64 + 4 points are counted as four. -/
noncomputable def wideDomain : DomainOptions ℝ where
  gate := weakGate
  xAxis := ⟨.epsilonR, 56.0, 59.0, 1.0⟩
  yAxis := ⟨.muMinus, -0.32, 4611686018427387904, 1.0⟩

theorem check_wideDomain_axes :
    wideDomain.xAxis.check = .ok () ∧ wideDomain.yAxis.check = .ok () := by
  rw [SweepAxis.check_eq_ok_iff, SweepAxis.check_eq_ok_iff]
  norm_num [wideDomain]

theorem check_wideDomain : wideDomain.check = .ok () := by
  obtain ⟨hx, hy⟩ := check_wideDomain_axes
  exact DomainOptions.check_eq_ok_iff.2 ⟨hx, hy, SweepParameter.noConfusion⟩

theorem points_wideDomain :
    wideDomain.xAxis.points = 4 ∧ wideDomain.yAxis.points = 4611686018427387905 := by
  constructor
  · refine SweepAxis.points_of_aligned (k := 3) (by norm_num) ?_
    norm_num [SweepAxis.extent, wideDomain]
  · apply SweepAxis.points_eq_of_extent (k := 4611686018427387904) (by norm_num)
    all_goals norm_num [SweepAxis.extent, wideDomain]

theorem grid_wideDomain : wideDomain.grid = ⟨4, 4611686018427387905⟩ := by
  obtain ⟨hx, hy⟩ := points_wideDomain
  rw [DomainOptions.grid, hx, hy]

/-- The points that are counted are those of the lowest level. -/
theorem counted_wideDomain :
    wideDomain.grid.points = [⟨0, 0⟩, ⟨1, 0⟩, ⟨2, 0⟩, ⟨3, 0⟩] := by
  rw [grid_wideDomain]
  rfl

theorem gateAt_wideDomain : wideDomain.gateAt ⟨0, 0⟩ = weakGate := by
  have hx : wideDomain.xAxis.value 0 = 56 := by
    rw [SweepAxis.value_eq_min]
    norm_num [wideDomain]
  have hy : wideDomain.yAxis.value 0 = -0.32 := by
    rw [SweepAxis.value_eq_min]
    norm_num [wideDomain]
  rw [DomainOptions.gateAt, hx, hy]
  rfl

/-- The check of the held wire reaches a verdict at every point. -/
theorem exists_assess_wideDomain (p : GridIndex) :
    ∃ a, heldWire.gateOracle [⟨1, [false, false], rfl⟩] wideDomain p = .ok a := by
  obtain ⟨hx, -⟩ := check_wideDomain_axes
  have hp : (wideDomain.gateAt p).parameters.check = .ok () := by
    refine Parameters.check_eq_ok_iff.2 ⟨.inl rfl, ?_, ?_⟩
    · exact lt_of_lt_of_le (by norm_num [wideDomain]) (SweepAxis.min_le_value hx p.x)
    · show (0 : ℝ) < 5.0
      norm_num
  refine exists_assess hp rfl (checkArity_heldWire rfl) fun i _ => fitsIndices_of_pow_le hp ?_ _
  exact (Nat.pow_le_pow_right Nat.two_pos (size_heldWireFor_le i)).trans (by norm_num)

/-- A flood fill from the four points that are counted goes on to the next level. -/
theorem exists_floodFill_wideDomain :
    ∃ survey log,
      (heldWire.exploreDomain [⟨1, [false, false], rfl⟩] (.floodFill 4 .vonNeumann) wideDomain
        (DrawSource.ofLists [])).outcome = .ok survey ∧ survey.Records log ∧
      ∀ p ∈ ([⟨0, 0⟩, ⟨1, 0⟩, ⟨2, 0⟩, ⟨3, 0⟩, ⟨0, 1⟩] : List GridIndex), p ∈ asked log := by
  have hdraws := DrawSource.isProper_ofLists [] 0 wideDomain.grid.total
  have hseeds : ∀ nb, Strategy.floodFill 4 .vonNeumann ≠ .floodFill 0 nb := by
    rintro nb ⟨⟩
  obtain ⟨survey, hsurvey⟩ := Layout.exists_outcome_exploreDomain hdraws check_wideDomain hseeds
    fun p _ => exists_assess_wideDomain p
  obtain ⟨log, hlog, hrecords, hclosed⟩ := Layout.exists_log_of_floodFill hdraws hsurvey
  have hsample : wideDomain.grid.sample (DrawSource.ofLists []) 0 4
      = [⟨0, 0⟩, ⟨1, 0⟩, ⟨2, 0⟩, ⟨3, 0⟩] := by
    rw [grid_wideDomain]
    rfl
  rw [hsample] at hclosed
  have hworks : Explore.works (heldWire.gateOracle [⟨1, [false, false], rfl⟩] wideDomain) ⟨0, 0⟩
      = true := by
    refine Explore.works_iff.2 ⟨⟨none, 2⟩, ?_, rfl⟩
    rw [Layout.gateOracle, gateAt_wideDomain]
    exact assess_heldWire
  have hnext : (⟨0, 1⟩ : GridIndex) ∈ asked log := by
    refine hclosed.neighbors ⟨0, 0⟩ (hclosed.seeds _ List.mem_cons_self) hworks _ ?_ ?_
    · rw [grid_wideDomain]
      exact ⟨by norm_num, by norm_num⟩
    · exact Neighborhood.mem_offsets_iff.1 (by decide)
  refine ⟨survey, log, hsurvey, hrecords, fun p hp => ?_⟩
  rcases List.mem_append.1 (show p ∈ [⟨0, 0⟩, ⟨1, 0⟩, ⟨2, 0⟩, ⟨3, 0⟩] ++ [⟨0, 1⟩] from hp)
    with hp | hp
  · exact hclosed.seeds p hp
  · rwa [List.mem_singleton.1 hp]

/-- A flood fill of the wide domain finds a point that the search of the whole domain does not. -/
theorem floodFill_leaves_wideDomain :
    wideDomain.check = .ok () ∧ (DrawSource.ofLists []).IsProper 0 wideDomain.grid.total ∧
      ∃ whole survey : Survey,
        (heldWire.exploreDomain [⟨1, [false, false], rfl⟩] .gridSearch wideDomain
          (DrawSource.ofLists [])).outcome = .ok whole ∧
        (heldWire.exploreDomain [⟨1, [false, false], rfl⟩] (.floodFill 4 .vonNeumann) wideDomain
          (DrawSource.ofLists [])).outcome = .ok survey ∧
        ∃ status, survey.statuses.get? ⟨0, 1⟩ = some status ∧
          whole.statuses.get? ⟨0, 1⟩ = none := by
  have hdraws := DrawSource.isProper_ofLists [] 0 wideDomain.grid.total
  have hsearch : ∀ nb, Strategy.gridSearch ≠ .floodFill 0 nb := by
    rintro nb ⟨⟩
  obtain ⟨whole, hwhole⟩ := Layout.exists_outcome_exploreDomain hdraws check_wideDomain hsearch
    fun p _ => exists_assess_wideDomain p
  obtain ⟨logw, -, hrecordsw, hpoints⟩ := Layout.exists_log_of_gridSearch hwhole
  obtain ⟨survey, log, hsurvey, hrecords, hasked⟩ := exists_floodFill_wideDomain
  obtain ⟨a, ha⟩ := mem_asked_iff.1 (hasked ⟨0, 1⟩ (by decide))
  refine ⟨check_wideDomain, hdraws, whole, survey, hwhole, hsurvey, a.status,
    hrecords.get?_eq_some_iff.2 ⟨a, ha, rfl⟩, hrecordsw.get?_eq_none_iff.2 ?_⟩
  rw [hpoints, counted_wideDomain]
  decide

end DanglingBonds
