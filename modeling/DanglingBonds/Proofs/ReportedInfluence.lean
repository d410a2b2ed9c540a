/-
# What a reported distance says

A scan reports a positive distance when the defect leaves more than one ground state or others than
without it. If there is one ground state without the defect, it has then changed. If there are
several, they may be the same with the defect: a scan takes ground states that are still degenerate
for influenced, even by a defect without charge.

* `distance_le_of_scanDefect` : no influence is farther than what is reported.
* `scanDefect_changes_groundSet` : what a positive distance says.
* `findsGroundStates_besideElectron` : a cell next to an electron, of which no ground state is missed.
* `scanDefect_unchanged_twinCells` : a positive distance that says nothing.
-/
import Mathlib
import DanglingBonds.Proofs.FarthestInfluence

namespace DanglingBonds

/-! ## Reported distances -/

section Reports

variable {l : Layout ℝ} {o : ScanOptions ℝ} {scan : DefectScan ℝ}
  (hp : o.parameters.check = .ok ()) (hd : o.defect.check = .ok ())

include hp hd

/-- A scan with a result has accepted the defects of the layout, if there are cells. -/
theorem checkDefects_of_scanDefect (h : (l.scanDefect o).outcome = .ok scan)
    (hcells : l.isEmpty = false) : l.checkDefects = .ok () := by
  cases hl : l.checkDefects with
  | error cause =>
    rw [scanDefect_of_checkDefects_eq_error hp hd hl hcells] at h
    cases h
  | ok u => rfl

/-- A positive distance belongs to an influence at a site of the scan. -/
theorem mem_scanResults_of_pos (h : (l.scanDefect o).outcome = .ok scan)
    (hpos : 0 < scan.farthest.distance) : scan.farthest ∈ l.scanResults o := by
  refine (isFarthest_of_scanDefect hp hd h).mem.resolve_left fun hnone => ?_
  rw [hnone] at hpos
  exact lt_irrefl _ hpos

/-- No influence is farther than what is reported. -/
theorem distance_le_of_scanDefect (h : (l.scanDefect o).outcome = .ok scan) {s : Site}
    (hsite : l.IsScanSite o.area s) (hinfluenced : l.IsInfluencedAt o s) :
    l.distanceToCells s ≤ scan.farthest.distance := by
  have hmem : ⟨s, l.distanceToCells s⟩ ∈ l.scanResults o := ⟨hsite, hinfluenced, rfl⟩
  exact (isFarthest_of_scanDefect hp hd h).distance_le (.inr hmem)

/-- With one ground state at most, which is found, a defect without charge has no influence. -/
theorem scanResults_eq_empty (h : (l.scanDefect o).outcome = .ok scan)
    (hfinds : l.FindsGroundStates o.parameters)
    (hground : (l.validGroundSet o.parameters).Subsingleton) (hcharge : o.defect.charge = 0) :
    l.scanResults o = ∅ := by
  refine Set.eq_empty_of_forall_notMem fun c ⟨hsite, hinfluenced, _⟩ => ?_
  have hcells := isEmpty_of_isScanSite hsite
  have hl := checkDefects_of_scanDefect hp hd h hcells
  have hsame := groundSet_placeDefect_of_charge_eq_zero hp hd hl hcells hsite.sound hcharge
  rcases hinfluenced with hseveral | hother
  · rw [hsame, groundSet_eq_validGroundSet hp hl hcells hfinds] at hseveral
    exact Set.not_nontrivial_iff.2 hground hseveral
  · exact hother hsame

/-- A positive distance tells of the ground states, if the two simulations miss none. -/
theorem validGroundSet_of_scanDefect (h : (l.scanDefect o).outcome = .ok scan)
    (hpos : 0 < scan.farthest.distance) (hfinds : l.FindsGroundStates o.parameters)
    (hfinds' :
      (l.placeDefect scan.farthest.position o.defect).FindsGroundStates o.parameters) :
    ((l.placeDefect scan.farthest.position o.defect).validGroundSet o.parameters).Nontrivial ∨
      (l.placeDefect scan.farthest.position o.defect).validGroundSet o.parameters
        ≠ l.validGroundSet o.parameters := by
  obtain ⟨hsite, hinfluenced, -⟩ := mem_scanResults_of_pos hp hd h hpos
  have hcells := isEmpty_of_isScanSite hsite
  have hl := checkDefects_of_scanDefect hp hd h hcells
  rw [← groundSet_eq_validGroundSet hp hl hcells hfinds,
    ← groundSet_eq_validGroundSet hp (checkDefects_placeDefect hl hd _) hcells hfinds']
  exact hinfluenced

/-- **What a positive distance says**, if the simulations without the defect and with it at the
reported site miss no ground state. With the defect there are more ground states than one, or others
than without it. If there is one at most without the defect, the ground states have changed, and a
defect without charge is reported at distance zero. A simulation whose numbers fit in 64 bits misses
no ground state exactly if none is ambiguous. Under accepted parameters a scan returns a result
unless a defect of the layout is refused. -/
theorem scanDefect_changes_groundSet :
    (∀ scan, (l.scanDefect o).outcome = .ok scan → l.FindsGroundStates o.parameters →
      let disturbed := l.placeDefect scan.farthest.position o.defect
      (0 < scan.farthest.distance → disturbed.FindsGroundStates o.parameters →
        (disturbed.validGroundSet o.parameters).Nontrivial ∨
          disturbed.validGroundSet o.parameters ≠ l.validGroundSet o.parameters) ∧
      ((l.validGroundSet o.parameters).Subsingleton →
        (0 < scan.farthest.distance → disturbed.FindsGroundStates o.parameters →
          disturbed.validGroundSet o.parameters ≠ l.validGroundSet o.parameters) ∧
        (o.defect.charge = 0 → scan.farthest.distance = 0))) ∧
    (∀ l' : Layout ℝ, l'.checkDefects = .ok () → l'.FitsIndices o.parameters .quickExact →
      (l'.FindsGroundStates o.parameters ↔ ∀ q, l'.IsGroundState o.parameters q →
        ¬ (Environment.ofLayout l' o.parameters).IsAmbiguous o.parameters.base q)) ∧
    (l.checkDefects = .ok () → ∃ scan, (l.scanDefect o).outcome = .ok scan) := by
  refine ⟨fun scan h hfinds => ⟨fun hpos hfinds' => ?_, fun hground =>
    ⟨fun hpos hfinds' hsame => ?_, fun hcharge => ?_⟩⟩,
    fun l' hl' hfits => findsGroundStates_iff hp hl' hfits, fun hl => ?_⟩
  · exact validGroundSet_of_scanDefect hp hd h hpos hfinds hfinds'
  · rcases validGroundSet_of_scanDefect hp hd h hpos hfinds hfinds' with hseveral | hother
    · rw [hsame] at hseveral
      exact Set.not_nontrivial_iff.2 hground hseveral
    · exact hother hsame
  · have hmem := (isFarthest_of_scanDefect hp hd h).mem
    rw [scanResults_eq_empty hp hd h hfinds hground hcharge] at hmem
    rw [hmem.resolve_right (Set.notMem_empty _)]
    rfl
  · exact exists_outcome_scanDefect hp hd hl

end Reports

/-! ## A cell next to an electron -/

/-- Away from the transition level no assignment in base 2 is ambiguous. -/
theorem findsGroundStates_of_le_abs {l : Layout ℝ} {p : Parameters ℝ} (hp : p.check = .ok ())
    (hl : l.checkDefects = .ok ()) (hfits : l.FitsIndices p .quickExact) (hbase : p.base = 2)
    (haway : ∀ q i, stabilityTolerance
      ≤ |-(Environment.ofLayout l p).potential q i + p.muMinus|) : l.FindsGroundStates p := by
  refine (findsGroundStates_iff hp hl hfits).2 ?_
  rintro q - ⟨d, -, -, hminus | ⟨hthree, -⟩⟩
  · exact absurd hminus (not_lt.2 (haway q d))
  · omega

/-- A cell in a potential that keeps it negative has one ground state. -/
theorem groundSet_isolatedCell {v : ℝ} {p : Parameters ℝ} (hp : p.check = .ok ())
    (hv : -v + p.muMinus ≤ -stabilityTolerance) : (isolatedCell v).groundSet p = {[.negative]} := by
  have htol := stabilityTolerance_pos
  have hbase := (Parameters.check_eq_ok_iff.1 hp).1
  refine groundSet_eq_singleton (q := Vector.replicate _ .negative) hp rfl rfl
    (fitsIndices_of_pow_le hp (pow_size_isolatedCell_le hbase) .quickExact) fun q => ?_
  constructor
  · rintro ⟨-, hstable, -⟩
    have hcell := isStable_isolatedCell_iff.1 hstable
    apply ext_get
    intro i
    rw [get_replicate, Subsingleton.elim i theCell]
    exact eq_negative_of_isPopulationStable hcell hv
  · rintro rfl
    refine ⟨inBase_replicate_negative hbase, isStable_isolatedCell_iff.2 ?_, fun _ d _ => ?_⟩
    · rw [get_replicate, isPopulationStable_negative_iff]
      linarith
    · rw [get_replicate, potential_isolatedCell]
      exact (settledCharge_of_lt (by linarith)).symm

/-- A scan of two columns on each side for an electron, in base 2. -/
noncomputable def electronScan : ScanOptions ℝ where
  parameters := ⟨2, 5.6, 5.0, -0.32⟩
  defect := ⟨-1, 5.6, 5.0⟩
  area := ⟨2, 0⟩

theorem check_electronScan :
    electronScan.parameters.check = .ok () ∧ electronScan.defect.check = .ok () := by
  have hε : (0 : ℝ) < 5.6 := by norm_num
  have hlambda : (0 : ℝ) < 5.0 := by norm_num
  exact ⟨Parameters.check_eq_ok_iff.2 ⟨.inl rfl, hε, hlambda⟩,
    checkScreening_eq_ok_iff.2 ⟨hε, hlambda⟩⟩

/-- The sites of this scan are in the row of the cell. -/
theorem isScanSite_isolatedCell {v : ℝ} {s : Site}
    (hs : (isolatedCell v).IsScanSite electronScan.area s) :
    s = ⟨s.x, 0, 0⟩ ∧ |s.x| ≤ 2 := by
  have hsite : ∀ c ∈ (isolatedCell v).sites, c = ⟨0, 0, 0⟩ := fun c hc => List.mem_singleton.1 hc
  have hhalf := hs.half
  obtain ⟨west, hwest, hx⟩ := hs.west
  obtain ⟨east, heast, hx'⟩ := hs.east
  obtain ⟨north, hnorth, hrow⟩ := hs.north
  obtain ⟨south, hsouth, hrow'⟩ := hs.south
  rw [hsite west hwest] at hx
  rw [hsite east heast] at hx'
  rw [hsite north hnorth] at hrow
  rw [hsite south hsouth] at hrow'
  obtain ⟨x, y, z⟩ := s
  have hlow : (0 : ℤ) ≤ 2 * y + z := hrow
  have hhigh : 2 * y + z ≤ (0 : ℤ) := hrow'
  obtain rfl : y = 0 := by
    dsimp only at hhalf
    omega
  obtain rfl : z = 0 := by omega
  exact ⟨rfl, abs_le.2 ⟨hx, hx'⟩⟩

/-- The cell with an electron in column `x`. -/
noncomputable def besideElectron (x : ℤ) : Layout ℝ :=
  (isolatedCell (-0.2)).placeDefect ⟨x, 0, 0⟩ electronScan.defect

instance besideElectron_subsingleton (x : ℤ) : Subsingleton (Fin (besideElectron x).size) :=
  inferInstanceAs (Subsingleton (Fin 1))

/-- At most two columns away, the electron pushes the potential of the cell down. -/
theorem potential_besideElectron_le {x : ℤ} (hx : |x| ≤ 2)
    (hvacant : (isolatedCell (-0.2)).isVacant ⟨x, 0, 0⟩ = true)
    (q : Vector Charge (besideElectron x).size) (i : Fin (besideElectron x).size) :
    (Environment.ofLayout (besideElectron x) electronScan.parameters).potential q i ≤ -0.41 := by
  have hsite : (Environment.ofLayout (besideElectron x) electronScan.parameters).sites.get i
      = ⟨0, 0, 0⟩ := by
    change Fin 1 at i
    fin_cases i
    rfl
  have hdefect : (besideElectron x).defectPotential ⟨0, 0, 0⟩
      = -1 * screenedPotential (|(x : ℝ)| * 0.384) 5.6 5.0 + 0 := by
    refine (defectPotential_placeDefect rfl electronScan.defect _).trans ?_
    have hdistance := distance_row 0 x
    rw [sub_zero] at hdistance
    exact congrArg (fun d => -1 * screenedPotential d 5.6 5.0 + 0) hdistance
  have hexternal : (Environment.ofLayout (besideElectron x) electronScan.parameters).external.get i
      = (besideElectron x).defectPotential ⟨0, 0, 0⟩ + 0 + -0.2 := by
    rw [← hsite]
    exact Environment.external_ofLayout (besideElectron x) electronScan.parameters i
  have hone : (1 : ℝ) ≤ |(x : ℝ)| := by
    have hx' : x ≠ 0 := by
      rintro rfl
      cases hvacant
    rw [← Int.cast_abs]
    exact_mod_cast Int.one_le_abs hx'
  have htwo : |(x : ℝ)| ≤ 2 := by
    rw [← Int.cast_abs]
    exact_mod_cast hx
  have hfelt := le_screenedPotential_two_columns (d := |(x : ℝ)| * 0.384) (by linarith)
    (by linarith)
  rw [Environment.potential_of_subsingleton (Environment.ofLayout_isReciprocal _ _), hexternal,
    hdefect]
  linarith

/-- Two columns away it leaves the cell no longer negative. -/
theorem isInfluencedAt_besideElectron :
    (isolatedCell (-0.2)).IsInfluencedAt electronScan ⟨2, 0, 0⟩ := by
  have hground := groundSet_isolatedCell (v := -0.2) check_electronScan.1
    (show -(-0.2 : ℝ) + -0.32 ≤ -1e-6 by norm_num)
  refine .inr fun hsame => ?_
  rw [hground] at hsame
  obtain ⟨r, s, hr, hs, hc⟩ := hsame.symm.subset (Set.mem_singleton _)
  have hnegative : s.charges = Vector.replicate _ .negative := Vector.toList_inj.1 hc
  have hstable := (isStableSurface_of_mem_distributions (e := .quickExact) hr hs.1).stable
  have hstay := hstable.population ⟨0, Nat.one_pos⟩
  rw [hnegative, get_replicate, isPopulationStable_negative_iff] at hstay
  have hlow := potential_besideElectron_le (x := 2) (by decide) rfl
    (Vector.replicate _ .negative) ⟨0, Nat.one_pos⟩
  have hstay' : -(Environment.ofLayout (besideElectron 2) electronScan.parameters).potential
      (Vector.replicate _ .negative) ⟨0, Nat.one_pos⟩ + (-0.32) < (1e-6 : ℝ) := hstay
  linarith

/-- No ground state of the cell is missed, nor one of the cell with an electron at a site of the
scan. -/
theorem findsGroundStates_besideElectron :
    (isolatedCell (-0.2)).FindsGroundStates electronScan.parameters ∧
      ∀ s, (isolatedCell (-0.2)).IsScanSite electronScan.area s →
        ((isolatedCell (-0.2)).placeDefect s electronScan.defect).FindsGroundStates
          electronScan.parameters := by
  obtain ⟨hp, hd⟩ := check_electronScan
  have hpow : electronScan.parameters.base ^ (isolatedCell (-0.2)).size ≤ 2 ^ 64 :=
    pow_size_isolatedCell_le (.inl rfl)
  refine ⟨findsGroundStates_of_le_abs hp rfl (fitsIndices_of_pow_le hp hpow _) rfl fun q i => ?_,
    fun s hs => ?_⟩
  · rw [potential_isolatedCell]
    show (1e-6 : ℝ) ≤ |-(-0.2) + -0.32|
    norm_num [abs_of_neg]
  · obtain ⟨hrow, hx⟩ := isScanSite_isolatedCell hs
    have hvacant := hs.vacant
    rw [hrow] at hvacant ⊢
    refine findsGroundStates_of_le_abs (l := besideElectron s.x) hp
      (checkDefects_placeDefect rfl hd _)
      (fitsIndices_of_pow_le (l := besideElectron s.x) hp hpow _) rfl fun q i => ?_
    have hlow := potential_besideElectron_le hx hvacant q i
    refine le_trans ?_ (le_abs_self _)
    show (1e-6 : ℝ) ≤ _ + -0.32
    linarith

/-- **The ground state has changed**: a cell that is negative by itself is not so next to an
electron, and the scan reports a positive distance. -/
theorem scanDefect_changes_groundSet_isolatedCell :
    electronScan.parameters.check = .ok () ∧ electronScan.defect.check = .ok () ∧
      (isolatedCell (-0.2)).FindsGroundStates electronScan.parameters ∧
      ((isolatedCell (-0.2)).validGroundSet electronScan.parameters).Subsingleton ∧
      ∃ scan, ((isolatedCell (-0.2)).scanDefect electronScan).outcome = .ok scan ∧
        0 < scan.farthest.distance ∧
        ((isolatedCell (-0.2)).placeDefect scan.farthest.position
          electronScan.defect).FindsGroundStates electronScan.parameters ∧
        ((isolatedCell (-0.2)).placeDefect scan.farthest.position
            electronScan.defect).validGroundSet electronScan.parameters
          ≠ (isolatedCell (-0.2)).validGroundSet electronScan.parameters := by
  obtain ⟨hp, hd⟩ := check_electronScan
  obtain ⟨hfinds, hfinds'⟩ := findsGroundStates_besideElectron
  have hone : ((isolatedCell (-0.2)).validGroundSet electronScan.parameters).Subsingleton := by
    rw [← groundSet_eq_validGroundSet hp rfl rfl hfinds,
      groundSet_isolatedCell hp (show -(-0.2 : ℝ) + -0.32 ≤ -1e-6 by norm_num)]
    exact Set.subsingleton_singleton
  obtain ⟨hreport, -, hresult⟩ := scanDefect_changes_groundSet (l := isolatedCell (-0.2)) hp hd
  obtain ⟨scan, hscan⟩ := hresult rfl
  have hsite : (isolatedCell (-0.2)).IsScanSite electronScan.area ⟨2, 0, 0⟩ :=
    { half := Nat.zero_le 1
      west := ⟨⟨0, 0, 0⟩, List.mem_cons_self, by decide⟩
      east := ⟨⟨0, 0, 0⟩, List.mem_cons_self, by decide⟩
      north := ⟨⟨0, 0, 0⟩, List.mem_cons_self, by decide⟩
      south := ⟨⟨0, 0, 0⟩, List.mem_cons_self, by decide⟩
      vacant := rfl
      sound := rfl }
  have hdistance : (isolatedCell (-0.2)).distanceToCells ⟨2, 0, 0⟩ = (0.768 : ℝ) := by
    obtain ⟨c, hc, hdistance⟩ :=
      (isLeast_distanceToCells (l := isolatedCell (-0.2)) rfl ⟨2, 0, 0⟩).1
    obtain rfl : c = ⟨0, 0, 0⟩ := List.mem_singleton.1 hc
    rw [← hdistance, Lattice.distance_comm]
    exact distance_two_columns 0
  have hpos : 0 < scan.farthest.distance :=
    lt_of_lt_of_le (hdistance ▸ by norm_num)
      (distance_le_of_scanDefect hp hd hscan hsite isInfluencedAt_besideElectron)
  have hfarthest := hfinds' _ (mem_scanResults_of_pos hp hd hscan hpos).1
  exact ⟨hp, hd, hfinds, hone, scan, hscan, hpos, hfarthest,
    ((hreport scan hscan hfinds).2 hone).1 hpos hfarthest⟩

/-! ## Two cells that share one electron -/

/-- Two cells that share one electron have the same ground states with a defect without charge as
without it, and the simulations find the same. A scan still reports a positive distance. -/
theorem scanDefect_unchanged_twinCells :
    chargelessScan.parameters.check = .ok () ∧ chargelessScan.defect.check = .ok () ∧
      chargelessScan.defect.charge = 0 ∧
      ∃ scan, (twinCells.scanDefect chargelessScan).outcome = .ok scan ∧
        0 < scan.farthest.distance ∧
        (twinCells.placeDefect scan.farthest.position chargelessScan.defect).validGroundSet
            chargelessScan.parameters
          = twinCells.validGroundSet chargelessScan.parameters ∧
        (twinCells.placeDefect scan.farthest.position chargelessScan.defect).groundSet
            chargelessScan.parameters
          = twinCells.groundSet chargelessScan.parameters := by
  obtain ⟨hp, hd⟩ := check_chargelessScan
  obtain ⟨scan, hscan⟩ := exists_outcome_scanDefect (l := twinCells) hp hd rfl
  refine ⟨hp, hd, charge_chargelessScan, scan, hscan, ?_,
    validGroundSet_placeDefect_of_charge_eq_zero rfl charge_chargelessScan _,
    (groundSet_twinCells_nontrivial _).2⟩
  -- the site between the cells is influenced, and its distance is not zero
  have hmem : ⟨⟨1, 0, 0⟩, 0.384⟩ ∈ twinCells.scanResults chargelessScan := by
    rw [scanResults_twinCells]
    exact Set.mem_singleton _
  have hle := (isFarthest_of_scanDefect hp hd hscan).distance_le (.inr hmem)
  exact lt_of_lt_of_le (by norm_num) hle

end DanglingBonds
