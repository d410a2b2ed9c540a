/-
# Sets of ground states

The ground states of a layout as a set: the charges of all distributions of least rounded energy.
A defect scan lists them sorted and without repeats, so it compares sets.

* `Layout.groundSet` : the charges of the ground states that are found.
* `Simulation.mem_groundStates_iff` : the program's ground states are those of least rounded energy.
* `mem_groundSet_iff`, `groundSet_eq_singleton` : which assignments these are.
* `Layout.validGroundSet` : the charges of all ground states, whether they are found or not.
* `groundSet_eq_validGroundSet`, `findsGroundStates_iff` : when all of them are found.
* `groundSet_of_sharesElectron` : the ground states of cells that share one electron.
* `groundCharges_eq_sortBy` : the program lists the set.
* `isInfluenced_iff` : what a defect scan takes for an influence.
-/
import Mathlib
import DanglingBonds.DefectInfluence
import DanglingBonds.Proofs.AssignmentOrder
import DanglingBonds.Proofs.StableDistributions

namespace DanglingBonds

/-! ## The order of charge lists -/

/-- Charge lists are ordered like the lists of their digits. -/
theorem chargesBefore_iff (a b : List Charge) :
    chargesBefore a b = true ↔ a.map Charge.digit < b.map Charge.digit := by
  induction a generalizing b with
  | nil =>
    cases b with
    | nil => simp [chargesBefore]
    | cons c cs => simp [chargesBefore]
  | cons c cs ih =>
    cases b with
    | nil => simp [chargesBefore]
    | cons c' cs' =>
      rw [chargesBefore, List.map_cons, List.map_cons, List.cons_lt_cons_iff, Bool.or_eq_true,
        Bool.and_eq_true, decide_eq_true_iff, beq_iff_eq, ih]

/-- A charge list is known from its digits. -/
theorem map_digit_injective : Function.Injective (List.map Charge.digit) :=
  List.map_injective_iff.2 Charge.digit_injective

/-! ## Ground states -/

namespace Simulation

variable {n : ℕ} {r : Simulation ℝ n}

/-- **The program's ground states** are the distributions of least rounded energy. -/
theorem mem_groundStates_iff {s : Surface ℝ n} : s ∈ r.groundStates ↔ r.IsLeast s := by
  rw [groundStates_eq_filter (formLevels_real _), List.mem_filter, isLowest_iff, IsLeast]
  simp only [not_lt]

end Simulation

/-! ## The ground states of a layout -/

/-- The charges of the ground states, cell by cell: those of the distributions of least rounded
energy that the pruned enumeration finds in the base of the parameters. -/
def Layout.groundSet (l : Layout ℝ) (p : Parameters ℝ) : Set (List Charge) :=
  {c | ∃ r s, l.enumeratePruned p .off = .ok r ∧ r.IsLeast s ∧ s.charges.toList = c}

section Layouts

variable {l : Layout ℝ} {p : Parameters ℝ}

/-- The charges of the ground states depend on the environment alone. -/
theorem mem_groundSet_iff_simulation (hp : p.check = .ok ()) (hl : l.checkDefects = .ok ())
    (hcells : l.isEmpty = false) {c : List Charge} :
    c ∈ l.groundSet p ↔ ∃ s, ((Environment.ofLayout l p).simulation .quickExact).IsLeast s ∧
      s.charges.toList = c := by
  have hr : l.enumeratePruned p .off
      = .ok ((Environment.ofLayout l p).simulation .quickExact) :=
    simulate_eq_simulation hp hl hcells .quickExact
  constructor
  · rintro ⟨r, s, hr', hs, hc⟩
    obtain rfl := Except.ok.inj (hr.symm.trans hr')
    exact ⟨s, hs, hc⟩
  · rintro ⟨s, hs, hc⟩
    exact ⟨_, s, hr, hs, hc⟩

/-- **The ground states**, if the numbers that the enumeration counts with fit in 64 bits: of the
assignments that it finds, those of least rounded energy. -/
theorem mem_groundSet_iff (hp : p.check = .ok ()) (hl : l.checkDefects = .ok ())
    (hcells : l.isEmpty = false) (hfits : l.FitsIndices p .quickExact) {c : List Charge} :
    c ∈ l.groundSet p ↔ ∃ q, l.Finds p .quickExact q ∧
      (∀ q', l.Finds p .quickExact q' →
        roundEnergy ((Environment.ofLayout l p).electrostaticEnergy q)
          ≤ roundEnergy ((Environment.ofLayout l p).electrostaticEnergy q')) ∧
      q.toList = c := by
  obtain ⟨r, hr, -, hfinds⟩ := exists_simulate_exact hp hl hcells hfits
  have henergy : ∀ s ∈ r.distributions,
      s.energy = (Environment.ofLayout l p).electrostaticEnergy s.charges :=
    fun s hs => (isStableSurface_of_mem_distributions hr hs).energy
  constructor
  · rintro ⟨r', s, hr', hs, hc⟩
    obtain rfl := Except.ok.inj (hr.symm.trans hr')
    refine ⟨s.charges, (hfinds _).1 (List.mem_map.2 ⟨s, hs.1, rfl⟩), fun q' hq' => ?_, hc⟩
    obtain ⟨s', hs', rfl⟩ := List.mem_map.1 ((hfinds q').2 hq')
    rw [← henergy s hs.1, ← henergy s' hs']
    exact hs.2 s' hs'
  · rintro ⟨q, hq, hle, hc⟩
    obtain ⟨s, hs, rfl⟩ := List.mem_map.1 ((hfinds q).2 hq)
    refine ⟨r, s, hr, ⟨hs, fun s' hs' => ?_⟩, hc⟩
    rw [henergy s hs, henergy s' hs']
    exact hle _ ((hfinds _).1 (List.mem_map.2 ⟨s', hs', rfl⟩))

/-- One assignment alone that the enumeration finds is the one ground state. -/
theorem groundSet_eq_singleton (hp : p.check = .ok ()) (hl : l.checkDefects = .ok ())
    (hcells : l.isEmpty = false) (hfits : l.FitsIndices p .quickExact) {q : Vector Charge l.size}
    (hfinds : ∀ q', l.Finds p .quickExact q' ↔ q' = q) : l.groundSet p = {q.toList} := by
  ext c
  rw [mem_groundSet_iff hp hl hcells hfits, Set.mem_singleton_iff]
  simp only [hfinds]
  constructor
  · rintro ⟨q', rfl, -, rfl⟩
    rfl
  · rintro rfl
    exact ⟨q, rfl, fun q' hq' => hq' ▸ le_rfl, rfl⟩

/-! ## All ground states -/

/-- A ground state: of the valid assignments of the base, one of least rounded energy. -/
structure Layout.IsGroundState (l : Layout ℝ) (p : Parameters ℝ) (q : Vector Charge l.size) :
    Prop where
  inBase : ∀ i, (q.get i).InBase p.base
  stable : (Environment.ofLayout l p).IsStable q
  least : ∀ q', (∀ i, (q'.get i).InBase p.base) → (Environment.ofLayout l p).IsStable q' →
    roundEnergy ((Environment.ofLayout l p).electrostaticEnergy q)
      ≤ roundEnergy ((Environment.ofLayout l p).electrostaticEnergy q')

/-- The charges of all ground states, whether an enumeration finds them or not. -/
def Layout.validGroundSet (l : Layout ℝ) (p : Parameters ℝ) : Set (List Charge) :=
  {c | ∃ q, l.IsGroundState p q ∧ q.toList = c}

/-- The pruned enumeration finds every ground state, if there are cells. -/
def Layout.FindsGroundStates (l : Layout ℝ) (p : Parameters ℝ) : Prop :=
  l.isEmpty = false → ∀ q, l.IsGroundState p q →
    ∃ r, l.enumeratePruned p .off = .ok r ∧ q ∈ r.charges

/-- No valid assignment has less energy than every ground state. -/
theorem exists_isGroundState_le (hp : p.check = .ok ()) {q' : Vector Charge l.size}
    (hin : ∀ i, (q'.get i).InBase p.base) (hstable : (Environment.ofLayout l p).IsStable q') :
    ∃ q, l.IsGroundState p q ∧ roundEnergy ((Environment.ofLayout l p).electrostaticEnergy q)
      ≤ roundEnergy ((Environment.ofLayout l p).electrostaticEnergy q') := by
  classical
  set valid := (Environment.exhaustiveTests l.size p.base).toFinset.filter
    (Environment.ofLayout l p).IsStable with hvalid
  have hmem : ∀ q : Vector Charge l.size, q ∈ valid
      ↔ (∀ i, (q.get i).InBase p.base) ∧ (Environment.ofLayout l p).IsStable q := fun q => by
    rw [hvalid, Finset.mem_filter, List.mem_toFinset,
      Environment.mem_exhaustiveTests_iff (Parameters.check_eq_ok_iff.1 hp).1]
  have hmem' : q' ∈ valid := (hmem q').2 ⟨hin, hstable⟩
  obtain ⟨q, hq, hmin⟩ := Finset.exists_min_image valid
    (fun q => roundEnergy ((Environment.ofLayout l p).electrostaticEnergy q)) ⟨q', hmem'⟩
  refine ⟨q, ?_, hmin q' hmem'⟩
  exact
    { inBase := ((hmem q).1 hq).1
      stable := ((hmem q).1 hq).2
      least := fun q'' hin'' hstable'' => hmin q'' ((hmem q'').2 ⟨hin'', hstable''⟩) }

/-- **An enumeration that misses no ground state** has these as its ground states, however many
cells there are. -/
theorem groundSet_eq_validGroundSet (hp : p.check = .ok ()) (hl : l.checkDefects = .ok ())
    (hcells : l.isEmpty = false) (hfinds : l.FindsGroundStates p) :
    l.groundSet p = l.validGroundSet p := by
  obtain ⟨r, hr⟩ := exists_enumeratePruned_eq_ok hp hl .off
  have hfound : ∀ q, l.IsGroundState p q → ∃ s ∈ r.distributions, s.charges = q := by
    intro q hq
    obtain ⟨r', hr', hmem⟩ := hfinds hcells q hq
    obtain rfl := Except.ok.inj (hr.symm.trans hr')
    exact List.mem_map.1 hmem
  have hstable : ∀ s ∈ r.distributions, (Environment.ofLayout l p).IsStableSurface s :=
    fun s hs => (isStableSurface_of_mem_enumeratePruned hr hs).2
  ext c
  constructor
  · rintro ⟨r', s, hr', hs, rfl⟩
    obtain rfl := Except.ok.inj (hr.symm.trans hr')
    refine ⟨s.charges, ?_, rfl⟩
    refine
      { inBase := inBase_of_mem_enumeratePruned hr hs.1
        stable := (hstable s hs.1).stable
        least := fun q' hin hq' => ?_ }
    -- a ground state is found, and what is found is not below the least
    obtain ⟨q, hq, hle⟩ := exists_isGroundState_le hp hin hq'
    obtain ⟨t, ht, rfl⟩ := hfound q hq
    rw [← (hstable s hs.1).energy]
    exact ((hs.2 t ht).trans_eq (congrArg roundEnergy (hstable t ht).energy)).trans hle
  · rintro ⟨q, hq, rfl⟩
    obtain ⟨s, hs, rfl⟩ := hfound q hq
    refine ⟨r, s, hr, ⟨hs, fun t ht => ?_⟩, rfl⟩
    rw [(hstable s hs).energy, (hstable t ht).energy]
    exact hq.least _ (inBase_of_mem_enumeratePruned hr ht) (hstable t ht).stable

/-- **When none is missed**, if the numbers that the enumeration counts with fit in 64 bits: when no
ground state is ambiguous. -/
theorem findsGroundStates_iff (hp : p.check = .ok ()) (hl : l.checkDefects = .ok ())
    (hfits : l.FitsIndices p .quickExact) :
    l.FindsGroundStates p
      ↔ ∀ q, l.IsGroundState p q → ¬ (Environment.ofLayout l p).IsAmbiguous p.base q := by
  cases hcells : l.isEmpty with
  | true =>
    have hsize : l.size = 0 := List.length_eq_zero_iff.2 (List.isEmpty_iff.1 hcells)
    refine iff_of_true (fun hcells' => ?_) fun q _ ⟨d, _⟩ => ?_
    · rw [hcells] at hcells'
      cases hcells'
    · exact absurd d.isLt (by omega)
  | false =>
    obtain ⟨r, hr, -, hmem⟩ := exists_simulate_exact hp hl hcells hfits
    have hfound : ∀ q, (∃ r, l.enumeratePruned p .off = .ok r ∧ q ∈ r.charges)
        ↔ l.Finds p .quickExact q := by
      intro q
      constructor
      · rintro ⟨r', hr', hq⟩
        obtain rfl := Except.ok.inj (hr.symm.trans hr')
        exact (hmem q).1 hq
      · exact fun hq => ⟨r, hr, (hmem q).2 hq⟩
    rw [Layout.FindsGroundStates, hcells]
    simp only [hfound, true_implies]
    refine forall₂_congr fun q hq => ?_
    rw [hq.stable.not_isAmbiguous_iff (Parameters.check_eq_ok_iff.1 hp).1 hq.inBase]
    exact ⟨fun h => h.2.2 rfl, fun h => ⟨hq.inBase, hq.stable, fun _ => h⟩⟩

/-- **Cells that share one electron** have a ground state for each cell. -/
theorem groundSet_of_sharesElectron (hp : p.check = .ok ()) (hl : l.checkDefects = .ok ())
    (hcells : l.isEmpty = false) (hshares : (Environment.ofLayout l p).SharesElectron)
    (hfits : l.FitsIndices p .quickExact) :
    l.groundSet p = {c | ∃ i : Fin l.size, (electronOn i).toList = c} := by
  have hbase := (Parameters.check_eq_ok_iff.1 hp).1
  have : Nonempty (Fin l.size) := ⟨⟨0, size_pos hcells⟩⟩
  have hfinds : ∀ q, l.Finds p .quickExact q ↔ ∃ i, q = electronOn i := by
    intro q
    simp only [Layout.Finds, true_implies]
    exact hshares.settled_iff hbase
  ext c
  rw [mem_groundSet_iff hp hl hcells hfits]
  simp only [hfinds]
  constructor
  · rintro ⟨_, ⟨i, rfl⟩, -, rfl⟩
    exact ⟨i, rfl⟩
  · rintro ⟨i, rfl⟩
    refine ⟨_, ⟨i, rfl⟩, ?_, rfl⟩
    rintro _ ⟨j, rfl⟩
    rw [hshares.electrostaticEnergy_electronOn, hshares.electrostaticEnergy_electronOn]

/-! ## What the program compares -/

/-- With accepted parameters and defects the program lists ground states. -/
theorem exists_groundCharges (hp : p.check = .ok ()) (hl : l.checkDefects = .ok ()) :
    ∃ reference, l.groundCharges p = .ok reference := by
  obtain ⟨r, hr⟩ := exists_enumeratePruned_eq_ok hp hl .off
  exact ⟨_, map_eq_ok_iff.2 ⟨r, hr, rfl⟩⟩

/-- What the program lists is the set of ground states, sorted and without repeats. -/
theorem groundCharges_eq_sortBy {reference : List (List Charge)}
    (h : l.groundCharges p = .ok reference) :
    ∃ charges, reference = (sortBy chargesBefore charges).eraseReps ∧
      {c | c ∈ charges} = l.groundSet p := by
  obtain ⟨r, hr, rfl⟩ := map_eq_ok_iff.1 h
  refine ⟨r.groundStates.map fun s => s.charges.toList, rfl, Set.ext fun c => ?_⟩
  show c ∈ r.groundStates.map _ ↔ _
  rw [List.mem_map]
  simp only [Simulation.mem_groundStates_iff]
  constructor
  · rintro ⟨s, hs, rfl⟩
    exact ⟨r, s, hr, hs, rfl⟩
  · rintro ⟨r', s, hr', hs, rfl⟩
    obtain rfl := Except.ok.inj (hr'.symm.trans hr)
    exact ⟨s, hs, rfl⟩

/-- **What counts as an influence**: the disturbed ground states are more than one, or not those of
the reference. -/
theorem isInfluenced_iff {disturbed : Layout ℝ} {reference charges : List (List Charge)}
    (h : l.groundCharges p = .ok reference) (h' : disturbed.groundCharges p = .ok charges) :
    isInfluenced reference charges = true ↔
      (disturbed.groundSet p).Nontrivial ∨ disturbed.groundSet p ≠ l.groundSet p := by
  obtain ⟨listed, rfl, hset⟩ := groundCharges_eq_sortBy h
  obtain ⟨listed', rfl, hset'⟩ := groundCharges_eq_sortBy h'
  rw [isInfluenced, Bool.or_eq_true, decide_eq_true_iff, bne_iff_ne, ne_eq,
    one_lt_length_eraseReps_sortBy_iff map_digit_injective chargesBefore_iff,
    eraseReps_sortBy_eq_iff map_digit_injective chargesBefore_iff, hset', ← hset, ← hset']
  exact or_congr_right (not_congr Set.ext_iff.symm)

end Layouts

end DanglingBonds
