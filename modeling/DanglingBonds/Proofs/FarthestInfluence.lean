/-
# The farthest influence of a defect

A defect scan returns the farthest of the free sites at which a defect influences the ground states,
and of equally far ones the earliest. That is a greatest element under a linear order, so it does
not matter in which order the sites are gone through.

* `DefectInfluence.Beats` : farther, or as far and at an earlier site.
* `IsFarthest` : an influence that beats all others.
* `foldl_farther_isFarthest` : what a run over a list of influences returns.
* `Layout.scanResults` : the influences at the sites of a scan.
* `exists_scanDefect` : a scan of a layout with cells returns the farthest of them.
* `scanDefect_farthest` : sites and result of a scan.
-/
import Mathlib
import DanglingBonds.Proofs.Exactness
import DanglingBonds.Proofs.PlacedDefects
import DanglingBonds.Proofs.ReportedPhases
import DanglingBonds.Proofs.ScanSites

namespace DanglingBonds

/-! ## The farthest of several influences -/

/-- `a` is farther than `b`, or as far and at an earlier site. -/
def DefectInfluence.Beats (a b : DefectInfluence ℝ) : Prop :=
  b.distance < a.distance ∨ a.distance = b.distance ∧ a.position.Before b.position

/-- An influence among `results` that beats all others. -/
structure IsFarthest (results : Set (DefectInfluence ℝ)) (best : DefectInfluence ℝ) : Prop where
  mem : best ∈ results
  beats : ∀ c ∈ results, c ≠ best → best.Beats c

/-- The place of an influence in a linear order, the farthest first. -/
noncomputable def DefectInfluence.place (a : DefectInfluence ℝ) : ℝᵒᵈ ×ₗ (ℤ ×ₗ ℤ) :=
  toLex (OrderDual.toDual a.distance, toLex (Ranked.rank a.position))

theorem beats_iff {a b : DefectInfluence ℝ} : a.Beats b ↔ a.place < b.place := by
  rw [DefectInfluence.place, DefectInfluence.place, Prod.Lex.toLex_lt_toLex]
  refine or_congr Iff.rfl (and_congr OrderDual.toDual_inj.symm ?_)
  exact Prod.Lex.toLex_lt_toLex.symm

theorem DefectInfluence.Beats.asymm {a b : DefectInfluence ℝ} (h : a.Beats b) : ¬ b.Beats a :=
  fun h' => (beats_iff.1 h).asymm (beats_iff.1 h')

/-- One influence at most beats all others. -/
theorem IsFarthest.unique {results : Set (DefectInfluence ℝ)} {best best' : DefectInfluence ℝ}
    (h : IsFarthest results best) (h' : IsFarthest results best') : best = best' := by
  by_contra hne
  exact (h.beats best' h'.mem (Ne.symm hne)).asymm (h'.beats best h.mem hne)

/-- No influence is at a greater distance. -/
theorem IsFarthest.distance_le {results : Set (DefectInfluence ℝ)} {best c : DefectInfluence ℝ}
    (h : IsFarthest results best) (hc : c ∈ results) : c.distance ≤ best.distance := by
  by_cases heq : c = best
  · rw [heq]
  · rcases h.beats c hc heq with hlt | ⟨hequal, -⟩
    · exact hlt.le
    · exact hequal.ge

/-- Influences at lattice sites are known from their places. -/
theorem DefectInfluence.eq_of_place_eq {a b : DefectInfluence ℝ} (ha : a.position.z ≤ 1)
    (hb : b.position.z ≤ 1) (h : a.place = b.place) : a = b := by
  obtain ⟨hdistance, hrank⟩ := Prod.ext_iff.1 (toLex_inj.1 h)
  have hposition := Site.eq_of_rank_eq ha hb (toLex_inj.1 hrank)
  obtain ⟨position, distance⟩ := a
  obtain ⟨position', distance'⟩ := b
  rw [DefectInfluence.mk.injEq]
  exact ⟨hposition, OrderDual.toDual_inj.1 hdistance⟩

/-- The farther of two influences is the one that beats the other. -/
theorem farther_eq (best c : DefectInfluence ℝ) [Decidable (c.Beats best)] :
    best.farther c = if c.Beats best then c else best := by
  have hequal : (c.distance == best.distance) = true ↔ c.distance = best.distance :=
    decide_eq_true_iff
  unfold DefectInfluence.farther
  by_cases hlt : best.distance < c.distance
  · rw [if_pos hlt, if_pos (.inl hlt)]
  · rw [if_neg hlt]
    by_cases heq : c.distance = best.distance
    · rw [if_pos (hequal.2 heq)]
      exact if_congr ⟨fun h => .inr ⟨heq, h⟩, fun h => (h.resolve_left hlt).2⟩ rfl rfl
    · rw [if_neg fun h => heq (hequal.1 h), if_neg fun h => heq (h.resolve_left hlt).1]

/-- **The farthest of a list** of influences at lattice sites, in whatever order they are given. -/
theorem foldl_farther_isFarthest {best : DefectInfluence ℝ} {results : List (DefectInfluence ℝ)}
    (h : ∀ c ∈ best :: results, c.position.z ≤ 1) :
    IsFarthest {c | c ∈ best :: results} (results.foldl DefectInfluence.farther best) := by
  classical
  have hfold : results.foldl DefectInfluence.farther best
      = results.foldl (fun m c => if decide (c.Beats m) = true then c else m) best := by
    congr 1
    funext m c
    rw [farther_eq]
    simp only [decide_eq_true_iff]
  have hbeats : ∀ a b : DefectInfluence ℝ, decide (a.Beats b) = true ↔ a.place < b.place :=
    fun a b => decide_eq_true_iff.trans beats_iff
  obtain ⟨before, x, after, hsplit, hmin, hbefore, hafter⟩ :=
    exists_firstMin DefectInfluence.place hbeats (List.cons_ne_nil best results)
  have hx : results.foldl DefectInfluence.farther best = x := hfold.trans (Option.some.inj hmin)
  have hmem : x ∈ best :: results := hsplit ▸ List.mem_append_right _ List.mem_cons_self
  rw [hx]
  refine ⟨hmem, fun c hc hne => beats_iff.2 (lt_of_le_of_ne ?_ fun heq => ?_)⟩
  · have hc' : c ∈ before ++ x :: after := hsplit ▸ hc
    rcases List.mem_append.1 hc' with hc' | hc'
    · exact (hbefore c hc').le
    · rcases List.mem_cons.1 hc' with rfl | hc'
      · exact le_rfl
      · exact hafter c hc'
  · exact hne (DefectInfluence.eq_of_place_eq (h c hc) (h x hmem) heq.symm)

/-! ## Influences at the sites of a scan -/

/-- A defect at `s` influences the ground states: it leaves more than one, or others than without
it. -/
def Layout.IsInfluencedAt (l : Layout ℝ) (o : ScanOptions ℝ) (s : Site) : Prop :=
  ((l.placeDefect s o.defect).groundSet o.parameters).Nontrivial ∨
    (l.placeDefect s o.defect).groundSet o.parameters ≠ l.groundSet o.parameters

/-- The influences of a defect at the sites of a scan, each at its distance to the nearest cell. -/
def Layout.scanResults (l : Layout ℝ) (o : ScanOptions ℝ) : Set (DefectInfluence ℝ) :=
  {c | l.IsScanSite o.area c.position ∧ l.IsInfluencedAt o c.position ∧
    c.distance = l.distanceToCells c.position}

open Classical in
/-- The result of a scan at one site. -/
noncomputable def Layout.scanResult? (l : Layout ℝ) (o : ScanOptions ℝ) (s : Site) :
    Option (DefectInfluence ℝ) :=
  if l.IsInfluencedAt o s then some ⟨s, l.distanceToCells s⟩ else none

theorem scanResult?_eq_some_iff {l : Layout ℝ} {o : ScanOptions ℝ} {s : Site}
    {c : DefectInfluence ℝ} :
    l.scanResult? o s = some c ↔ l.IsInfluencedAt o s ∧ c = ⟨s, l.distanceToCells s⟩ := by
  rw [Layout.scanResult?, Option.ite_none_right_eq_some, Option.some.injEq, eq_comm]

/-- A run over sites that are all evaluated collects the results and ticks once for each site. -/
theorem scanPositions_eq {influence : Site → Except (AnalysisError ℝ) (Option (DefectInfluence ℝ))}
    {result? : Site → Option (DefectInfluence ℝ)} {sites : List Site}
    (h : ∀ s ∈ sites, influence s = .ok (result? s)) (events : List Event) :
    (scanPositions influence sites).run events
      = .ok (sites.filterMap result?)
          (events ++ List.replicate sites.length .taskIncrement) := by
  induction sites generalizing events with
  | nil =>
    rw [List.length_nil, List.replicate_zero, List.append_nil]
    rfl
  | cons s rest ih =>
    obtain ⟨hs, hrest⟩ := List.forall_mem_cons.1 h
    have htick : EventLog.report events .taskIncrement = events ++ [.taskIncrement] := rfl
    rw [scanPositions, hs]
    simp only [EStateM.run_bind, run_tick, htick, ih hrest, EStateM.run_pure, List.length_cons]
    rw [List.replicate_succ, List.append_assoc, List.singleton_append]
    cases hresult : result? s with
    | none => rw [List.filterMap_cons_none hresult, Option.toList_none, List.nil_append]
    | some c => rw [List.filterMap_cons_some hresult, Option.toList_some, List.singleton_append]

/-- A scan of sites that are compared with a reference. -/
theorem scanDefect_of_reference {α : Type} [Scalar α] {l : Layout α} {o : ScanOptions α}
    {sites : List Site} {reference : List (List Charge)}
    (hcheck : o.parameters.check *> o.defect.check = .ok ())
    (hsites : l.scanSites o.area = some sites)
    (hreference : l.groundCharges o.parameters = .ok reference) :
    l.scanDefect o = .ofResult ((task "Defect influence" sites.length
      (scanPositions (l.influenceAt o reference) sites) >>= fun found =>
        pure ⟨found.foldl .farther .none, sites.length + 1, sites.length⟩).run []) := by
  rw [Layout.scanDefect, hcheck]
  simp only [hsites, hreference]

section Scan

variable {l : Layout ℝ} {o : ScanOptions ℝ} (hp : o.parameters.check = .ok ())
  (hd : o.defect.check = .ok ())

include hp hd

/-- What the program finds out about one site. -/
theorem influenceAt_eq (hl : l.checkDefects = .ok ()) {reference : List (List Charge)}
    (hreference : l.groundCharges o.parameters = .ok reference) (s : Site) :
    l.influenceAt o reference s = .ok (l.scanResult? o s) := by
  obtain ⟨charges, hcharges⟩ := exists_groundCharges hp (checkDefects_placeDefect hl hd s)
  have hiff : isInfluenced reference charges = true ↔ l.IsInfluencedAt o s :=
    isInfluenced_iff hreference hcharges
  rw [Layout.influenceAt, hcharges, Except.map, Layout.scanResult?]
  by_cases h : l.IsInfluencedAt o s
  · rw [if_pos h, if_pos (hiff.2 h)]
  · rw [if_neg h, if_neg (hiff.not.2 h)]

/-- A scan of a layout with cells collects the results at its sites. -/
theorem exists_scanDefect (hl : l.checkDefects = .ok ()) (hcells : l.isEmpty = false) :
    ∃ sites, l.scanSites o.area = some sites ∧
      (∀ c, c ∈ sites.filterMap (l.scanResult? o) ↔ c ∈ l.scanResults o) ∧
      (l.scanDefect o).outcome
        = .ok ⟨(sites.filterMap (l.scanResult? o)).foldl DefectInfluence.farther .none,
            sites.length + 1, sites.length⟩ := by
  obtain ⟨sites, hsites, -, hmem⟩ := exists_scanSites hcells o.area
  obtain ⟨reference, hreference⟩ := exists_groundCharges hp hl
  have hsite : ∀ s ∈ sites, l.influenceAt o reference s = .ok (l.scanResult? o s) :=
    fun s _ => influenceAt_eq hp hd hl hreference s
  refine ⟨sites, hsites, fun c => ?_, ?_⟩
  · rw [List.mem_filterMap]
    constructor
    · rintro ⟨s, hs, hresult⟩
      obtain ⟨hinfluenced, rfl⟩ := scanResult?_eq_some_iff.1 hresult
      exact ⟨(hmem s).1 hs, hinfluenced, rfl⟩
    · rintro ⟨hsite, hinfluenced, hdistance⟩
      refine ⟨c.position, (hmem _).2 hsite, scanResult?_eq_some_iff.2 ⟨hinfluenced, ?_⟩⟩
      rw [← hdistance]
  · rw [scanDefect_of_reference (by rw [hp, hd]; rfl) hsites hreference, EStateM.run_bind, run_task,
      scanPositions_eq hsite]
    rfl

/-- A scan of a layout with cells reports a defect that is refused. -/
theorem scanDefect_of_checkDefects_eq_error {cause : ParameterError ℝ}
    (hl : l.checkDefects = .error cause) (hcells : l.isEmpty = false) :
    (l.scanDefect o).outcome = .error (.parameters cause) := by
  obtain ⟨sites, hsites, -, -⟩ := exists_scanSites hcells o.area
  have hreference : l.groundCharges o.parameters = .error (.parameters cause) :=
    congrArg (Except.map _) (simulate_of_checkDefects_eq_error hp hl .quickExact)
  rw [Layout.scanDefect, hp, hd]
  simp only [hsites, hreference]
  rfl

omit hp hd in
/-- Every list of the influences leads to the farthest of them, which is the preset result if there
is none. -/
theorem foldl_scanResults_isFarthest {results : List (DefectInfluence ℝ)}
    (hresults : ∀ c, c ∈ results ↔ c ∈ l.scanResults o) :
    IsFarthest (insert .none (l.scanResults o))
      (results.foldl DefectInfluence.farther .none) := by
  have hset : {c | c ∈ .none :: results} = insert DefectInfluence.none (l.scanResults o) := by
    ext c
    rw [Set.mem_insert_iff, ← hresults]
    exact List.mem_cons
  rw [← hset]
  refine foldl_farther_isFarthest fun c hc => ?_
  rcases List.mem_cons.1 hc with rfl | hc
  · exact Nat.zero_le 1
  · exact ((hresults c).1 hc).1.half

/-- The scan of a layout without cells ends before it begins. -/
theorem scanDefect_of_isEmpty (hcells : l.isEmpty = true) :
    (l.scanDefect o).outcome = .ok ⟨.none, 0, 0⟩ ∧ l.scanResults o = ∅ := by
  have hnil : l.sites = [] := by
    rw [Layout.sites, Table.keys, List.isEmpty_iff.1 hcells, List.map_nil]
  have hsites : l.scanSites o.area = none := by
    rw [Layout.scanSites, Layout.boundingBox, hnil]
    rfl
  refine ⟨?_, Set.eq_empty_of_forall_notMem fun c hc => ?_⟩
  · rw [Layout.scanDefect, hp, hd]
    simp only [hsites]
    rfl
  · rw [isEmpty_of_isScanSite hc.1] at hcells
    cases hcells

/-- With accepted defects a scan returns a result. -/
theorem exists_outcome_scanDefect (hl : l.checkDefects = .ok ()) :
    ∃ scan, (l.scanDefect o).outcome = .ok scan := by
  cases hcells : l.isEmpty with
  | true => exact ⟨_, (scanDefect_of_isEmpty hp hd hcells).1⟩
  | false =>
    obtain ⟨sites, -, -, houtcome⟩ := exists_scanDefect hp hd hl hcells
    exact ⟨_, houtcome⟩

/-- A scan that returns a result returns the farthest influence, whether there are cells or not. -/
theorem isFarthest_of_scanDefect {scan : DefectScan ℝ}
    (h : (l.scanDefect o).outcome = .ok scan) :
    IsFarthest (insert .none (l.scanResults o)) scan.farthest := by
  cases hcells : l.isEmpty with
  | true =>
    obtain ⟨houtcome, hnone⟩ := scanDefect_of_isEmpty hp hd hcells
    obtain rfl := Except.ok.inj (houtcome.symm.trans h)
    have hempty : ∀ c, c ∈ [] ↔ c ∈ l.scanResults o := fun c => by
      rw [hnone]
      exact iff_of_false List.not_mem_nil (Set.notMem_empty c)
    exact foldl_scanResults_isFarthest hempty
  | false =>
    cases hl : l.checkDefects with
    | error cause =>
      rw [scanDefect_of_checkDefects_eq_error hp hd hl hcells] at h
      cases h
    | ok u =>
      obtain ⟨sites, -, hresults, houtcome⟩ := exists_scanDefect hp hd hl hcells
      obtain rfl := Except.ok.inj (houtcome.symm.trans h)
      exact foldl_scanResults_isFarthest hresults

/-- **The scan finds the farthest influence.** Under accepted parameters the scan of a layout with
cells goes through the free sites of the widened box in strictly ascending order and reports what is
wrong with the defects of the layout, if anything is. Otherwise it returns the farthest of the
influences at these sites and of the preset result, each at its distance to the nearest cell; a run
over the same influences in any other order returns the same. -/
theorem scanDefect_farthest (hcells : l.isEmpty = false) :
    ∃ sites, l.scanSites o.area = some sites ∧ sites.Pairwise Site.Before ∧
      (∀ s, s ∈ sites ↔ l.IsScanSite o.area s) ∧
      (∀ s, IsLeast {d | ∃ c ∈ l.sites, l.lattice.distance s c = d} (l.distanceToCells s)) ∧
      (∀ cause, l.checkDefects = .error cause →
        (l.scanDefect o).outcome = .error (.parameters cause)) ∧
      (l.checkDefects = .ok () → ∃ best,
        (l.scanDefect o).outcome = .ok ⟨best, sites.length + 1, sites.length⟩ ∧
        IsFarthest (insert .none (l.scanResults o)) best ∧
        ∀ results : List (DefectInfluence ℝ), (∀ c, c ∈ results ↔ c ∈ l.scanResults o) →
          results.foldl DefectInfluence.farther .none = best) := by
  obtain ⟨sites, hsites, hascending, hmem⟩ := exists_scanSites hcells o.area
  refine ⟨sites, hsites, hascending, hmem, isLeast_distanceToCells hcells,
    fun cause hl => scanDefect_of_checkDefects_eq_error hp hd hl hcells, fun hl => ?_⟩
  obtain ⟨sites', hsites', hresults, houtcome⟩ := exists_scanDefect hp hd hl hcells
  obtain rfl := Option.some.inj (hsites.symm.trans hsites')
  refine ⟨_, houtcome, foldl_scanResults_isFarthest hresults, fun results hresults' => ?_⟩
  exact (foldl_scanResults_isFarthest hresults').unique (foldl_scanResults_isFarthest hresults)

end Scan

/-- The preset options of a scan. -/
noncomputable def presetScan : ScanOptions ℝ :=
  ⟨default, default, default⟩

theorem check_presetScan :
    presetScan.parameters.check = .ok () ∧ presetScan.defect.check = .ok () := by
  have hε : (0 : ℝ) < 5.6 := by norm_num
  have hlambda : (0 : ℝ) < 5.0 := by norm_num
  exact ⟨check_default (.inr rfl), checkScreening_eq_ok_iff.2 ⟨hε, hlambda⟩⟩

/-- A scan of the bounding box for a defect without charge, at a transition level that leaves one
electron to two cells. -/
noncomputable def chargelessScan : ScanOptions ℝ where
  parameters := twinParameters 2
  defect := ⟨0.0, 5.6, 5.0⟩
  area := ⟨0, 0⟩

theorem check_chargelessScan :
    chargelessScan.parameters.check = .ok () ∧ chargelessScan.defect.check = .ok () := by
  have hε : (0 : ℝ) < 5.6 := by norm_num
  have hlambda : (0 : ℝ) < 5.0 := by norm_num
  exact ⟨check_twinParameters (.inl rfl), checkScreening_eq_ok_iff.2 ⟨hε, hlambda⟩⟩

theorem charge_chargelessScan : chargelessScan.defect.charge = 0 := by
  show (0.0 : ℝ) = 0
  norm_num

/-- The one site to scan is the one between the cells. -/
theorem isScanSite_twinCells_iff {s : Site} :
    twinCells.IsScanSite chargelessScan.area s ↔ s = ⟨1, 0, 0⟩ := by
  have hsites : ∀ c ∈ twinCells.sites, c = ⟨0, 0, 0⟩ ∨ c = ⟨2, 0, 0⟩ := fun c hc => by
    have hc' : c ∈ ([⟨0, 0, 0⟩, ⟨2, 0, 0⟩] : List Site) := hc
    simpa using hc'
  constructor
  · intro h
    obtain ⟨x, y, z⟩ := s
    have hhalf : z ≤ 1 := h.half
    have hwest : 0 ≤ x := by
      obtain ⟨c, hc, hle⟩ := h.west
      rcases hsites c hc with rfl | rfl
      · exact hle
      · exact le_trans (by decide) hle
    have heast : x ≤ 2 := by
      obtain ⟨c, hc, hle⟩ := h.east
      rcases hsites c hc with rfl | rfl
      · exact le_trans hle (by decide)
      · exact hle
    have hnorth : 0 ≤ 2 * y + z := by
      obtain ⟨c, hc, hle⟩ := h.north
      rcases hsites c hc with rfl | rfl <;> exact hle
    have hsouth : 2 * y + z ≤ 0 := by
      obtain ⟨c, hc, hle⟩ := h.south
      rcases hsites c hc with rfl | rfl <;> exact hle
    obtain rfl : y = 0 := by omega
    obtain rfl : z = 0 := by omega
    -- the ends of the box are taken
    have hvacant := h.vacant
    interval_cases x
    · cases hvacant
    · rfl
    · cases hvacant
  · rintro rfl
    exact
      { half := Nat.zero_le 1
        west := ⟨⟨0, 0, 0⟩, List.mem_cons_self, by decide⟩
        east := ⟨⟨2, 0, 0⟩, List.mem_cons_of_mem _ List.mem_cons_self, by decide⟩
        north := ⟨⟨0, 0, 0⟩, List.mem_cons_self, by decide⟩
        south := ⟨⟨0, 0, 0⟩, List.mem_cons_self, by decide⟩
        vacant := rfl
        sound := rfl }

/-- There the defect is as far from either cell. -/
theorem distanceToCells_twinCells : twinCells.distanceToCells ⟨1, 0, 0⟩ = 0.384 := by
  obtain ⟨c, hc, hdistance⟩ := (isLeast_distanceToCells (l := twinCells) rfl ⟨1, 0, 0⟩).1
  have hc' : c = ⟨0, 0, 0⟩ ∨ c = ⟨2, 0, 0⟩ := by
    have hc' : c ∈ ([⟨0, 0, 0⟩, ⟨2, 0, 0⟩] : List Site) := hc
    simpa using hc'
  have hrow : ∀ x : ℤ, (twinCells.lattice.distance ⟨1, 0, 0⟩ ⟨x, 0, 0⟩ : ℝ)
      = |((x - 1 : ℤ) : ℝ)| * 0.384 := distance_row 1
  rw [← hdistance]
  rcases hc' with rfl | rfl
  · rw [hrow]
    norm_num
  · rw [hrow]
    norm_num

/-- The cells have two ground states, with the defect or without it. -/
theorem groundSet_twinCells_nontrivial (s : Site) :
    (twinCells.groundSet chargelessScan.parameters).Nontrivial ∧
      (twinCells.placeDefect s chargelessScan.defect).groundSet chargelessScan.parameters
        = twinCells.groundSet chargelessScan.parameters := by
  obtain ⟨hp, hd⟩ := check_chargelessScan
  have hfits := fitsIndices_of_pow_le hp (pow_size_twinCells_le (.inl rfl)) .quickExact
  refine ⟨?_, groundSet_placeDefect_of_charge_eq_zero hp hd rfl rfl rfl charge_chargelessScan⟩
  rw [groundSet_of_sharesElectron hp rfl rfl (twinCells_sharesElectron 2) hfits]
  refine ⟨_, ⟨⟨0, Nat.zero_lt_two⟩, rfl⟩, _, ⟨⟨1, Nat.one_lt_two⟩, rfl⟩, fun heq => ?_⟩
  exact absurd (electronOn_injective (Vector.toList_inj.1 heq)) (by decide)

/-- So the site is influenced. -/
theorem scanResults_twinCells :
    twinCells.scanResults chargelessScan = {⟨⟨1, 0, 0⟩, 0.384⟩} := by
  ext c
  rw [Set.mem_singleton_iff]
  constructor
  · rintro ⟨hsite, -, hdistance⟩
    obtain ⟨position, distance⟩ := c
    obtain rfl : position = ⟨1, 0, 0⟩ := isScanSite_twinCells_iff.1 hsite
    rw [show distance = 0.384 from hdistance.trans distanceToCells_twinCells]
  · rintro rfl
    obtain ⟨hseveral, hsame⟩ := groundSet_twinCells_nontrivial ⟨1, 0, 0⟩
    exact ⟨isScanSite_twinCells_iff.2 rfl, .inl (hsame.symm ▸ hseveral),
      distanceToCells_twinCells.symm⟩

/-- A defect without charge has its farthest influence on two cells that share one electron at the
site between them. -/
theorem scanDefect_farthest_twinCells :
    chargelessScan.parameters.check = .ok () ∧ chargelessScan.defect.check = .ok () ∧
      twinCells.isEmpty = false ∧ twinCells.checkDefects = .ok () ∧
      ∃ scan, (twinCells.scanDefect chargelessScan).outcome = .ok scan ∧
        scan.farthest = ⟨⟨1, 0, 0⟩, 0.384⟩ := by
  obtain ⟨hp, hd⟩ := check_chargelessScan
  obtain ⟨sites, -, -, -, -, -, hscan⟩ := scanDefect_farthest (l := twinCells) hp hd rfl
  obtain ⟨best, hbest, -, hunordered⟩ := hscan rfl
  refine ⟨hp, hd, rfl, rfl, _, hbest, ?_⟩
  -- the influences are known, so the result is that of a run over them
  rw [← hunordered [⟨⟨1, 0, 0⟩, 0.384⟩] fun c => by
    rw [scanResults_twinCells, List.mem_singleton, Set.mem_singleton_iff]]
  exact if_pos (by show (0 : ℝ) < 0.384; norm_num)

end DanglingBonds
