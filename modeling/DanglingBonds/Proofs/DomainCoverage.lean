/-
# What the strategies cover

If the gate check has a verdict at every grid point, the search of the whole grid reports each point
once and a random sampling reports the points of its sample. A strategy whose sample has all points
returns the same survey as the search of the whole grid: what has been asked about determines a
survey, in whatever order the points were drawn and wherever the strategy has gone from them.

* `Strategy.mem_sampled_iff_of_total_le` : a budget for all points yields all points.
* `Layout.exists_records_exploreDomain` : what a strategy that gets through has asked about.
* `Layout.exploreDomain_eq_of_total_le` : a budget for all points yields the survey of all points.
* `Layout.exploreDomain_covers` : the points that the strategies report.
-/
import Mathlib
import DanglingBonds.Proofs.DomainAgreement

namespace DanglingBonds

variable {α : Type}

/-! ## Budgets -/

namespace Strategy

variable {s : Strategy} {g : Grid} {draws : DrawSource} {n : ℕ}

/-- The number of points that a strategy asks a draw for. -/
def budget? : Strategy → Option ℕ
  | gridSearch => none
  | randomSampling n | floodFill n _ | contourTracing n => some n

/-- A strategy with a budget has the points of a draw. -/
theorem sampled_of_budget (hbudget : s.budget? = some n) :
    s.sampled g draws = g.sample draws 0 n := by
  cases s with
  | gridSearch => cases hbudget
  | randomSampling m | floodFill m nb | contourTracing m =>
    cases hbudget
    rfl

/-- A budget for all points that are counted yields all of them. -/
theorem mem_sampled_iff_of_total_le (hdraws : draws.IsComplete 0 g.total)
    (hbudget : s.budget? = some n) (hn : g.total ≤ n) {p : GridIndex} :
    p ∈ s.sampled g draws ↔ p ∈ g.points := by
  rw [sampled_of_budget hbudget]
  exact Grid.mem_sample_iff_of_total_le hdraws hn

/-- A strategy whose budget is not zero does not lack seeds. -/
theorem ne_floodFill_zero (hbudget : s.budget? = some n) (hn : 0 < n) (nb : Neighborhood) :
    s ≠ .floodFill 0 nb := by
  rintro rfl
  cases hbudget
  exact absurd hn (Nat.lt_irrefl 0)

end Strategy

variable [Scalar α]

/-! ## Points that are reported -/

namespace Layout

variable {l : Layout α} {tables : List TruthTable} {s : Strategy} {o : DomainOptions α}
  {draws : DrawSource}

/-- **What a strategy has asked about.** If the gate check has a verdict wherever a strategy may
ask, the strategy gets through, with a record of answers about these points. -/
theorem exists_records_exploreDomain (hdraws : draws.IsProper 0 o.grid.total)
    (hcheck : o.check = .ok ()) (hseeds : ∀ nb, s ≠ .floodFill 0 nb)
    (hanswers : ∀ p ∈ s.askable o.grid draws, ∃ a, l.gateOracle tables o p = .ok a) :
    ∃ survey log, (l.exploreDomain tables s o draws).outcome = .ok survey ∧
      IsLog (l.gateOracle tables o) log ∧ survey.Records log ∧
      (∀ p ∈ asked log, p ∈ s.askable o.grid draws) ∧ s.HasAsked o.grid draws log := by
  obtain ⟨survey, hsurvey⟩ := exists_outcome_exploreDomain hdraws hcheck hseeds hanswers
  obtain ⟨log, hlog⟩ := exists_log_of_outcome hdraws hsurvey
  exact ⟨survey, log, hsurvey, hlog⟩

/-- The search of the whole grid gets through, and asks about the points that are counted in their
order. -/
theorem exists_records_gridSearch (hcheck : o.check = .ok ())
    (hanswers : ∀ p ∈ o.grid.points, ∃ a, l.gateOracle tables o p = .ok a) :
    ∃ whole log, (∀ draws, (l.exploreDomain tables .gridSearch o draws).outcome = .ok whole) ∧
      IsLog (l.gateOracle tables o) log ∧ whole.Records log ∧ asked log = o.grid.points := by
  obtain ⟨whole, log, hwhole, hlog, hrecords, -, hasked⟩ := exists_records_exploreDomain
    (DrawSource.isProper_ofLists [] 0 o.grid.total) hcheck
    (fun nb (h : Strategy.gridSearch = .floodFill 0 nb) => by cases h) hanswers
  -- the search draws nothing, so the source does not matter
  exact ⟨whole, log, fun draws => hwhole, hlog, hrecords, hasked.listed not_false⟩

/-- A random sampling gets through, and asks about the points of its sample in their order. -/
theorem exists_records_randomSampling (hdraws : draws.IsProper 0 o.grid.total)
    (hcheck : o.check = .ok ()) (n : ℕ)
    (hanswers : ∀ p ∈ o.grid.sample draws 0 n, ∃ a, l.gateOracle tables o p = .ok a) :
    ∃ survey log,
      (l.exploreDomain tables (.randomSampling n) o draws).outcome = .ok survey ∧
      IsLog (l.gateOracle tables o) log ∧ survey.Records log ∧
      asked log = o.grid.sample draws 0 n := by
  obtain ⟨survey, log, hsurvey, hlog, hrecords, -, hasked⟩ := exists_records_exploreDomain hdraws
    hcheck (fun nb (h : Strategy.randomSampling n = .floodFill 0 nb) => by cases h) hanswers
  exact ⟨survey, log, hsurvey, hlog, hrecords, hasked.listed not_false⟩

/-- **A budget for all points** makes every strategy return the survey of all points, if these can
be counted. -/
theorem exploreDomain_eq_of_total_le (hdraws : draws.IsComplete 0 o.grid.total)
    (hcheck : o.check = .ok ()) (hsize : o.grid.size < 2 ^ 64)
    (hanswers : ∀ p ∈ o.grid, ∃ a, l.gateOracle tables o p = .ok a)
    {whole : Survey} {log : List (GridIndex × Assessment)}
    (hlog : IsLog (l.gateOracle tables o) log) (hrecords : whole.Records log)
    (hpoints : asked log = o.grid.points) {n : ℕ} (hpos : 0 < n) (hn : o.grid.total ≤ n)
    (hbudget : s.budget? = some n) :
    (l.exploreDomain tables s o draws).outcome = .ok whole := by
  obtain ⟨survey, log', hsurvey, hlog', hrecords', hasked, hall⟩ := exists_records_exploreDomain
    hdraws.isProper hcheck (Strategy.ne_floodFill_zero hbudget hpos)
    fun p hp => hanswers p (Strategy.mem_grid_of_mem_askable hdraws.isProper hp)
  have hsame : ∀ p, p ∈ asked log' ↔ p ∈ asked log := by
    intro p
    rw [hpoints]
    constructor
    · intro hp
      exact Strategy.mem_points_of_mem_askable hdraws.isProper (fun _ => hsize) (hasked p hp)
    · intro hp
      exact hall.sampled p ((Strategy.mem_sampled_iff_of_total_le hdraws hbudget hn).2 hp)
  rw [hsurvey, hrecords'.eq_of_asked hlog' hrecords hlog hsame]

/-- **What the strategies cover.** Let the gate check have a verdict at every point of the grid that
accepted options span, and let the points be fewer than 2 ^ 64. The search of the whole grid then reports each point of the grid once. With
draws that yield as many different indices as are asked for, a random sampling reports the points it
has drawn, as many as its budget allows and the grid has. A strategy whose budget suffices for all
points returns what the search of the whole grid returns. -/
theorem exploreDomain_covers (l : Layout α) (tables : List TruthTable) (o : DomainOptions α)
    (hcheck : o.check = .ok ()) (hsize : o.xAxis.points * o.yAxis.points < 2 ^ 64)
    (hverdicts : ∀ x < o.xAxis.points, ∀ y < o.yAxis.points,
      ∃ a, l.assess tables (o.gateAt ⟨x, y⟩) = .ok a) :
    ∃ whole : Survey,
      (∀ draws, (l.exploreDomain tables .gridSearch o draws).outcome = .ok whole) ∧
      whole.statuses.keys.Nodup ∧
      (∀ p, p ∈ whole.statuses.keys ↔ p.x < o.xAxis.points ∧ p.y < o.yAxis.points) ∧
      ∀ draws : DrawSource, draws.IsComplete 0 (o.xAxis.points * o.yAxis.points) → ∀ n,
        (∃ survey, (l.exploreDomain tables (.randomSampling n) o draws).outcome = .ok survey ∧
          survey.statuses.keys.Nodup ∧
          survey.statuses.keys.length = min n (o.xAxis.points * o.yAxis.points) ∧
          ∀ p, p ∈ survey.statuses.keys ↔
            ∃ i ∈ draws.draw 0 (o.xAxis.points * o.yAxis.points)
              (min n (o.xAxis.points * o.yAxis.points)),
              p = ⟨i % o.xAxis.points, i / o.xAxis.points⟩) ∧
        (0 < n → o.xAxis.points * o.yAxis.points ≤ n → ∀ s : Strategy, s.budget? = some n →
          (l.exploreDomain tables s o draws).outcome = .ok whole) := by
  have hanswers : ∀ p ∈ o.grid, ∃ a, l.gateOracle tables o p = .ok a :=
    fun p hp => hverdicts p.x hp.1 p.y hp.2
  have htotal : o.grid.total = o.xAxis.points * o.yAxis.points := Grid.total_eq_size hsize
  obtain ⟨whole, log, hwhole, hlog, hrecords, hpoints⟩ :=
    exists_records_gridSearch hcheck fun p hp => hanswers p (Grid.mem_of_mem_points hp)
  rw [← htotal]
  refine ⟨whole, hwhole, ?_, fun p => ?_, fun draws hdraws n => ⟨?_, fun hpos hn s hbudget => ?_⟩⟩
  · exact hrecords.keys_perm.nodup_iff.2 hlog.nodup
  · rw [hrecords.keys_perm.mem_iff, hpoints]
    exact Grid.mem_points_iff (g := o.grid) hsize
  · obtain ⟨survey, log, hsurvey, hlog, hrecords, hsample⟩ := exists_records_randomSampling
      hdraws.isProper hcheck n fun p hp => hanswers p (Grid.mem_of_mem_sample hdraws.isProper hp)
    refine ⟨survey, hsurvey, hrecords.keys_perm.nodup_iff.2 hlog.nodup, ?_, fun p => ?_⟩
    · rw [hrecords.keys_perm.length_eq, hsample]
      exact Grid.length_sample hdraws
    · rw [hrecords.keys_perm.mem_iff, hsample, Grid.sample, List.mem_map]
      exact exists_congr fun i => and_congr_right fun _ => eq_comm
  · exact exploreDomain_eq_of_total_le hdraws hcheck hsize hanswers hlog hrecords hpoints hpos hn
      hbudget

end Layout

/-! ## Two points -/

/-- Two points drawn in the opposite order are those of the whole small domain, for a flood fill and
for the tracing of a contour; so are two points that a seed draws. -/
theorem exploreDomain_covers_smallDomain :
    smallDomain.check = .ok () ∧ smallDomain.xAxis.points * smallDomain.yAxis.points < 2 ^ 64 ∧
      (∀ x < smallDomain.xAxis.points, ∀ y < smallDomain.yAxis.points,
        ∃ a, shortWire.assess [⟨1, [false, true], rfl⟩] (smallDomain.gateAt ⟨x, y⟩) = .ok a) ∧
      (DrawSource.ofLists [[1, 0]]).IsComplete 0
        (smallDomain.xAxis.points * smallDomain.yAxis.points) ∧
      ∃ whole : Survey, whole.statuses.keys.Nodup ∧
        (∀ p, p ∈ whole.statuses.keys ↔ p.x < 2 ∧ p.y < 1) ∧
        (shortWire.exploreDomain [⟨1, [false, true], rfl⟩] .gridSearch smallDomain
          (DrawSource.ofLists [])).outcome = .ok whole ∧
        (shortWire.exploreDomain [⟨1, [false, true], rfl⟩] (.floodFill 2 .moore) smallDomain
          (DrawSource.ofLists [[1, 0]])).outcome = .ok whole ∧
        (shortWire.exploreDomain [⟨1, [false, true], rfl⟩] (.contourTracing 2) smallDomain
          (DrawSource.ofLists [[1, 0]])).outcome = .ok whole ∧
        (shortWire.exploreDomain [⟨1, [false, true], rfl⟩] (.randomSampling 2) smallDomain
          (DrawSource.ofSeed 0)).outcome = .ok whole := by
  have hverdicts : ∀ x < smallDomain.xAxis.points, ∀ y < smallDomain.yAxis.points,
      ∃ a, shortWire.assess [⟨1, [false, true], rfl⟩] (smallDomain.gateAt ⟨x, y⟩) = .ok a :=
    fun x _ y _ => exists_assess_smallDomain ⟨x, y⟩
  have hdraws := DrawSource.isComplete_ofLists [[1, 0]] 0
    (smallDomain.xAxis.points * smallDomain.yAxis.points)
  have hseed := DrawSource.isComplete_ofSeed 0 0
    (smallDomain.xAxis.points * smallDomain.yAxis.points)
  obtain ⟨hx, hy⟩ := points_smallDomain
  have htwo : smallDomain.xAxis.points * smallDomain.yAxis.points ≤ 2 := by rw [hx, hy]
  obtain ⟨whole, hsearch, hnodup, hkeys, hsampled⟩ := Layout.exploreDomain_covers shortWire
    [⟨1, [false, true], rfl⟩] smallDomain check_smallDomain size_smallDomain_lt
    hverdicts
  have hall := (hsampled _ hdraws 2).2 Nat.two_pos htwo
  have hall' := (hsampled _ hseed 2).2 Nat.two_pos htwo
  rw [hx, hy] at hkeys
  exact ⟨check_smallDomain, size_smallDomain_lt, hverdicts, hdraws, whole, hnodup, hkeys,
    hsearch _, hall (.floodFill 2 .moore) rfl, hall (.contourTracing 2) rfl, hall' (.randomSampling 2) rfl⟩

end DanglingBonds
