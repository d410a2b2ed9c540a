/-
# Progress reports

An analysis that reports its progress opens a phase with one task, ticks once for each point or site
that it gets through, and closes both, also when a point or site fails. What is refused before
reports nothing. The number of ticks is that of the different points, or of the sites, that have got
a result. It does not exceed the number announced, unless an exploration leaves the points that are
counted. All of it holds for every kind of scalars.

* `Strategy.length_askable` : how many points a strategy may ask about, and how many it announces.
* `exists_split_scanPositions` : how far a scan gets.
* `Layout.exploreDomain_reports`, `Layout.scanDefect_reports` : the reports of both analyses.
* `Layout.reports_isBracketed` : all of them.
-/
import Mathlib
import DanglingBonds.Proofs.DomainCoverage
import DanglingBonds.Proofs.FarthestInfluence
import DanglingBonds.Proofs.LayoutHistories

namespace DanglingBonds

/-! ## Explorations -/

section Explorations

variable {ε β : Type} {oracle : Oracle ε}

/-- At the end of an exploration there are answers about allowed points, and an error, if there is
one, is that of an allowed point without an answer. -/
theorem Explore.IsOutcome.exists_log {allowed : Set GridIndex} {Q : β → List Answer → Prop}
    {outcome : EStateM.Result ε Exploration β} (h : IsOutcome oracle allowed [] Q outcome) :
    ∃ log, IsLog oracle log ∧ (reached outcome).Records log ∧ (∀ p ∈ asked log, p ∈ allowed) ∧
      ∀ e survey, outcome = .error e survey →
        ∃ p ∈ allowed, p ∉ asked log ∧ oracle p = .error e := by
  cases outcome with
  | ok b survey =>
    obtain ⟨log, hlog, hrecords, hcontinues, -⟩ := h
    refine ⟨log, hlog, hrecords, fun p hp => ?_, fun e survey h => by cases h⟩
    exact (hcontinues.new p hp).resolve_left List.not_mem_nil
  | error e survey =>
    obtain ⟨log, hlog, hrecords, hcontinues, p, hp, herror⟩ := h
    refine ⟨log, hlog, hrecords, fun p hp => ?_, ?_⟩
    · exact (hcontinues.new p hp).resolve_left List.not_mem_nil
    · rintro _ _ ⟨⟩
      refine ⟨p, hp, fun hmem => ?_, herror⟩
      obtain ⟨a, ha⟩ := mem_asked_iff.1 hmem
      rw [hlog.answered _ ha] at herror
      cases herror

/-- A strategy may ask about as many points as it announces, unless it goes on from its first points
on a grid with more points than are counted. -/
theorem Strategy.length_askable {s : Strategy} {g : Grid} {draws : DrawSource}
    (hsize : s.FollowsRegion → g.size < 2 ^ 64) :
    (s.askable g draws).length = s.announced g draws := by
  cases s with
  | gridSearch | randomSampling n => rfl
  | floodFill n nb | contourTracing n =>
    exact Grid.length_allPoints.trans (Grid.total_eq_size (hsize trivial)).symm

end Explorations

namespace Layout

variable {α : Type} [Scalar α] {l : Layout α}

section Domain

variable {tables : List TruthTable} {s : Strategy} {o : DomainOptions α} {draws : DrawSource}

/-- An exploration with refused options, or without seeds, reports nothing. -/
theorem exploreDomain_of_refused {e : SetupError α} (he : o.check *> s.check = .error e) :
    l.exploreDomain tables s o draws = .refused (.setup e) := by
  rw [exploreDomain, he]

/-- The reports of the exploration of a domain that has reached a survey in the end. With refused
options or without seeds there are none. Any other exploration is bracketed and ticks once for each
point of the survey, all of them different grid points with a verdict. They are at most as many as
announced, unless the exploration goes on from its first points on a grid of 2 ^ 64 points or more.
It returns the survey, or the error of a grid point that is missing from it. -/
structure ReportsExploration (l : Layout α) (tables : List TruthTable) (s : Strategy)
    (o : DomainOptions α) (draws : DrawSource) (reached : Survey) : Prop where
  refused : ∀ e, o.check *> s.check = .error e →
    (l.exploreDomain tables s o draws).outcome = .error (.setup e) ∧
      (l.exploreDomain tables s o draws).events = []
  bracketed : (o.check *> s.check : Except (SetupError α) Unit) = .ok () →
    (l.exploreDomain tables s o draws).IsBracketed s.phase (s.announced o.grid draws)
      reached.statuses.keys.length
  announced : (s.FollowsRegion → o.xAxis.points * o.yAxis.points < 2 ^ 64) →
    reached.statuses.keys.length ≤ s.announced o.grid draws
  evaluated : (o.check *> s.check : Except (SetupError α) Unit) = .ok () →
    ∃ verdict, reached.Holds l tables o verdict
  returned : ∀ survey, (l.exploreDomain tables s o draws).outcome = .ok survey → survey = reached
  failed : (o.check *> s.check : Except (SetupError α) Unit) = .ok () →
    ∀ e, (l.exploreDomain tables s o draws).outcome = .error e →
      ∃ p ∈ o.grid, p ∉ reached.statuses.keys ∧ l.assess tables (o.gateAt p) = .error e

/-- **Reports of an exploration**, by any strategy and with any draw of different points. -/
theorem exploreDomain_reports (l : Layout α) (tables : List TruthTable) (s : Strategy)
    (o : DomainOptions α) (hdraws : draws.IsProper 0 o.grid.total) :
    l.ReportsExploration tables s o draws
      (reached ((s.explore o.grid (l.gateOracle tables o) draws).run {})).toSurvey := by
  set run := (s.explore o.grid (l.gateOracle tables o) draws).run {} with hrun
  obtain ⟨log, hlog, hrecords, hasked, hfailed⟩ :=
    (s.isOutcome_explore o.grid (l.gateOracle tables o) hdraws).exists_log
  have hgrid : ∀ p ∈ asked log, p ∈ o.grid :=
    fun p hp => Strategy.mem_grid_of_mem_askable hdraws (hasked p hp)
  have hkeys : (reached run).statuses.keys.Perm (asked log) := hrecords.keys_perm
  have hholds : (o.check *> s.check : Except (SetupError α) Unit) = .ok () →
      (reached run).Holds l tables o (verdictAt (l.gateOracle tables o)) := by
    intro hcheck
    have hoptions : o.check = .ok () := by
      cases ho : o.check with
      | error e =>
        rw [ho] at hcheck
        cases hcheck
      | ok u => rfl
    exact hrecords.holds hlog hgrid (DomainOptions.parameter_ne_of_check hoptions)
  refine ⟨fun e he => ?_, fun hcheck => ?_, fun hsize => ?_, fun hcheck => ⟨_, hholds hcheck⟩,
    fun survey h => ?_, fun hcheck e he => ?_⟩
  · rw [exploreDomain_of_refused he]
    exact ⟨rfl, rfl⟩
  · rw [← (hholds hcheck).evaluations]
    exact (exploreDomain_of_check hcheck).2
  · rw [hkeys.length_eq, ← Strategy.length_askable (g := o.grid) hsize]
    exact (List.subperm_of_subset hlog.nodup hasked).length_le
  · cases hcheck : (o.check *> s.check : Except (SetupError α) Unit) with
    | error e =>
      rw [exploreDomain_of_refused hcheck] at h
      cases h
    | ok u =>
      rw [(exploreDomain_of_check hcheck).1] at h
      obtain ⟨last, hlast, rfl⟩ := Explore.returned_eq_ok_iff.1 h
      rw [hrun, hlast]
      rfl
  · rw [(exploreDomain_of_check hcheck).1] at he
    obtain ⟨last, hlast⟩ := Explore.returned_eq_error_iff.1 he
    obtain ⟨p, hp, hnotin, hp'⟩ := hfailed e last hlast
    exact ⟨p, Strategy.mem_grid_of_mem_askable hdraws hp, hkeys.mem_iff.not.2 hnotin, hp'⟩

end Domain

end Layout

/-! ## Scans -/

section Scan

variable {α : Type} [Scalar α]

omit [Scalar α] in
/-- How far a scan gets: through all sites, or up to the first that fails, whose error it returns.
It ticks once for each site that it gets through. -/
theorem exists_split_scanPositions
    (influence : Site → Except (AnalysisError α) (Option (DefectInfluence α))) (sites : List Site)
    (events : List Event) :
    ∃ done rest, sites = done ++ rest ∧ (∀ s ∈ done, ∃ i, influence s = .ok i) ∧
      reached ((scanPositions influence sites).run events)
        = events ++ List.replicate done.length .taskIncrement ∧
      (∀ found events', (scanPositions influence sites).run events = .ok found events' →
        rest = []) ∧
      ∀ e events', (scanPositions influence sites).run events = .error e events' →
        ∃ s rest', rest = s :: rest' ∧ influence s = .error e := by
  induction sites generalizing events with
  | nil =>
    refine ⟨[], [], rfl, fun s hs => absurd hs List.not_mem_nil, ?_, fun _ _ _ => rfl, ?_⟩
    · exact (List.append_nil events).symm
    · rintro _ _ ⟨⟩
  | cons s sites ih =>
    cases hs : influence s with
    | error e =>
      rw [scanPositions, hs]
      refine ⟨[], s :: sites, rfl, fun t ht => absurd ht List.not_mem_nil, ?_, ?_, ?_⟩
      · exact (List.append_nil events).symm
      · rintro _ _ ⟨⟩
      · rintro _ _ ⟨⟩
        exact ⟨s, sites, rfl, hs⟩
    | ok i =>
      obtain ⟨done, rest, hsites, hdone, hevents, hok, herror⟩ := ih (events ++ [.taskIncrement])
      have hstep : (scanPositions influence (s :: sites)).run events
          = ((scanPositions influence sites).run (events ++ [.taskIncrement])).map
              fun others => i.toList ++ others := by
        rw [scanPositions, hs]
        rfl
      rw [hstep, reached_map, hevents]
      refine ⟨s :: done, rest, by rw [hsites, List.cons_append], ?_, ?_, ?_, ?_⟩
      · exact List.forall_mem_cons.2 ⟨⟨i, hs⟩, hdone⟩
      · rw [List.append_assoc, List.singleton_append, List.length_cons, List.replicate_succ]
      · intro found events' h
        obtain ⟨others, hothers, -⟩ := EStateM.Result.map_eq_ok.1 h
        exact hok others events' hothers
      · intro e events' h
        exact herror e events' ((EStateM.Result.map_eq_error _).1 h)

namespace Layout

omit [Scalar α] in
/-- Without cells there are no sites to scan. -/
theorem scanSites_eq_none_iff {l : Layout α} {area : ScanningArea} :
    l.scanSites area = none ↔ l.isEmpty = true := by
  rw [scanSites, Option.map_eq_none_iff, boundingBox_eq_none_iff, isEmpty_iff]

/-- The reports of a defect scan. With refused parameters, without cells, or without ground states
to compare with, there are none. Any other scan announces all sites, is bracketed and ticks once for
each of the first sites, up to the first that fails, whose error it returns, or to the last. -/
structure ReportsScan (l : Layout α) (o : ScanOptions α) : Prop where
  refused : ∀ e, o.parameters.check *> o.defect.check = .error e →
    (l.scanDefect o).outcome = .error (.parameters e) ∧ (l.scanDefect o).events = []
  empty : o.parameters.check *> o.defect.check = .ok () → l.isEmpty = true →
    (l.scanDefect o).outcome = .ok ⟨.none, 0, 0⟩ ∧ (l.scanDefect o).events = []
  unreferenced : o.parameters.check *> o.defect.check = .ok () → l.isEmpty = false →
    ∀ e, l.groundCharges o.parameters = .error e →
      (l.scanDefect o).outcome = .error e ∧ (l.scanDefect o).events = []
  bracketed : o.parameters.check *> o.defect.check = .ok () → l.isEmpty = false →
    ∀ reference, l.groundCharges o.parameters = .ok reference →
      ∃ sites done rest, l.scanSites o.area = some sites ∧ sites = done ++ rest ∧
        (l.scanDefect o).IsBracketed "Defect influence" sites.length done.length ∧
        done.length ≤ sites.length ∧
        (∀ s ∈ done, ∃ i, l.influenceAt o reference s = .ok i) ∧
        (∀ scan, (l.scanDefect o).outcome = .ok scan → rest = []) ∧
        ∀ e, (l.scanDefect o).outcome = .error e →
          ∃ s rest', rest = s :: rest' ∧ l.influenceAt o reference s = .error e

/-- **Reports of a defect scan.** -/
theorem scanDefect_reports (l : Layout α) (o : ScanOptions α) : l.ReportsScan o := by
  have hsome : l.isEmpty = false → ∃ sites, l.scanSites o.area = some sites := by
    intro hcells
    rw [← Option.isSome_iff_exists, ← Option.ne_none_iff_isSome, Ne, scanSites_eq_none_iff, hcells]
    exact Bool.false_ne_true
  refine ⟨fun e he => ?_, fun hcheck hempty => ?_, fun hcheck hcells e he => ?_,
    fun hcheck hcells reference hreference => ?_⟩
  · rw [scanDefect, he]
    exact ⟨rfl, rfl⟩
  · have hnone : l.scanSites o.area = none := scanSites_eq_none_iff.2 hempty
    rw [scanDefect, hcheck]
    simp only [hnone]
    exact ⟨rfl, rfl⟩
  · obtain ⟨sites, hsites⟩ := hsome hcells
    rw [scanDefect, hcheck]
    simp only [hsites, he]
    exact ⟨rfl, rfl⟩
  · obtain ⟨sites, hsites⟩ := hsome hcells
    obtain ⟨done, rest, hsplit, hdone, hevents, hok, herror⟩ :=
      exists_split_scanPositions (l.influenceAt o reference) sites
        [.phaseStart "Defect influence", .taskStart sites.length]
    rw [scanDefect_of_reference hcheck hsites hreference, outcome_task]
    have hopen : EventLog.reportAll ([] : List Event)
        [.phaseStart "Defect influence", .taskStart sites.length]
          = [.phaseStart "Defect influence", .taskStart sites.length] := rfl
    rw [hopen]
    refine ⟨sites, done, rest, hsites, hsplit, isBracketed_task hevents fun _ _ => rfl, ?_, hdone,
      fun scan hscan => ?_, fun e he => ?_⟩
    · rw [hsplit, List.length_append]
      exact Nat.le_add_right _ _
    · cases hrun : (scanPositions (l.influenceAt o reference) sites).run
          [.phaseStart "Defect influence", .taskStart sites.length] with
      | ok found events => exact hok found events hrun
      | error e events =>
        rw [hrun] at hscan
        cases hscan
    · cases hrun : (scanPositions (l.influenceAt o reference) sites).run
          [.phaseStart "Defect influence", .taskStart sites.length] with
      | ok found events =>
        rw [hrun] at he
        cases he
      | error e' events =>
        rw [hrun] at he
        cases he
        exact herror e events hrun

end Layout

end Scan

/-! ## All reports -/

/-- **Reports are bracketed.** For every layout, an exploration of a domain by any strategy and a
defect scan report nothing if they end before their phase. Otherwise they open a phase with one
task, tick once for each point or site that has got a result, and close both, also when a point or a
site fails. -/
theorem Layout.reports_isBracketed {α : Type} [Scalar α] (l : Layout α) :
    (∀ tables s (o : DomainOptions α) draws, draws.IsProper 0 o.grid.total →
      l.ReportsExploration tables s o draws
        (reached ((s.explore o.grid (l.gateOracle tables o) draws).run {})).toSurvey) ∧
      ∀ o : ScanOptions α, l.ReportsScan o :=
  ⟨fun tables s o _ hdraws => l.exploreDomain_reports tables s o hdraws, l.scanDefect_reports⟩

/-- A flood fill of the small domain ticks at most twice, and the scan around a single cell once for
each site. -/
theorem Layout.reports_isBracketed_smallDomain :
    let draws := DrawSource.ofLists []
    let tables : List TruthTable := [⟨1, [false, true], rfl⟩]
    draws.IsProper 0 smallDomain.grid.total ∧
      (∃ ticks ≤ 2,
        (shortWire.exploreDomain tables (.floodFill 1 .moore) smallDomain draws).IsBracketed
          "Flood fill" 2 ticks) ∧
      ∃ sites, (isolatedCell 0).scanSites presetScan.area = some sites ∧
        ((isolatedCell 0).scanDefect presetScan).IsBracketed "Defect influence" sites.length
          sites.length := by
  intro draws tables
  have hdraws : draws.IsProper 0 smallDomain.grid.total := DrawSource.isProper_ofLists [] _ _
  obtain ⟨hexploration, -⟩ := Layout.reports_isBracketed shortWire
  have hchecks : (smallDomain.check *> (Strategy.floodFill 1 .moore).check
      : Except (SetupError ℝ) Unit) = .ok () := by
    rw [check_smallDomain]
    rfl
  have hreports := hexploration tables (.floodFill 1 .moore) smallDomain draws hdraws
  obtain ⟨-, hscan⟩ := Layout.reports_isBracketed (isolatedCell 0)
  obtain ⟨hp, hd⟩ := check_presetScan
  have hchecks' : presetScan.parameters.check *> presetScan.defect.check = .ok () := by
    rw [hp, hd]
    rfl
  obtain ⟨reference, hreference⟩ := exists_groundCharges hp (l := isolatedCell 0) rfl
  obtain ⟨scan, hreturned⟩ := exists_outcome_scanDefect hp hd (l := isolatedCell 0) rfl
  obtain ⟨_, done, rest, hsites, rfl, hbracketed, -, -, hrest, -⟩ :=
    (hscan presetScan).bracketed hchecks' rfl reference hreference
  rw [hrest scan hreturned, List.append_nil] at hsites hbracketed
  have hannounced : (Strategy.floodFill 1 .moore).announced smallDomain.grid draws = 2 := by
    show smallDomain.grid.total = 2
    rw [Grid.total_eq_size (g := smallDomain.grid) size_smallDomain_lt]
    obtain ⟨hx, hy⟩ := points_smallDomain
    show smallDomain.xAxis.points * smallDomain.yAxis.points = 2
    rw [hx, hy]
  have hbracketed' := hreports.bracketed hchecks
  have hle := hreports.announced fun _ => size_smallDomain_lt
  rw [hannounced] at hbracketed' hle
  exact ⟨hdraws, ⟨_, hle, hbracketed'⟩, done, hsites, hbracketed⟩

/-- A flood fill of the wide domain announces the four points that are counted and ticks more often.
-/
theorem Layout.reports_exceed_wideDomain :
    wideDomain.check = .ok () ∧ (DrawSource.ofLists []).IsProper 0 wideDomain.grid.total ∧
      ∃ ticks > 4, (heldWire.exploreDomain [⟨1, [false, false], rfl⟩] (.floodFill 4 .vonNeumann)
        wideDomain (DrawSource.ofLists [])).IsBracketed "Flood fill" 4 ticks := by
  obtain ⟨survey, log, hsurvey, hrecords, hasked⟩ := exists_floodFill_wideDomain
  have hchecks : (wideDomain.check *> (Strategy.floodFill 4 .vonNeumann).check
      : Except (SetupError ℝ) Unit) = .ok () := by
    rw [check_wideDomain]
    rfl
  have hdraws := DrawSource.isProper_ofLists [] 0 wideDomain.grid.total
  have hreports := heldWire.exploreDomain_reports [⟨1, [false, false], rfl⟩]
    (.floodFill 4 .vonNeumann) wideDomain hdraws
  have hbracketed := hreports.bracketed hchecks
  rw [← hreports.returned survey hsurvey] at hbracketed
  have hannounced : (Strategy.floodFill 4 .vonNeumann).announced wideDomain.grid
      (DrawSource.ofLists []) = 4 := by
    rw [grid_wideDomain]
    rfl
  rw [hannounced] at hbracketed
  refine ⟨check_wideDomain, hdraws, _, ?_, hbracketed⟩
  rw [hrecords.keys_perm.length_eq]
  exact (List.subperm_of_subset (by decide) hasked).length_le

end DanglingBonds
