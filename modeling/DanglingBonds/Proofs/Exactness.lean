/-
# Exactness of the enumerations

Which assignments the two enumerations return, each of them once. The pruned enumeration returns the
valid assignments whose dependent cell holds the charge its potential settles on. The exhaustive one
returns in addition those whose dependent cell is neutral within the tolerance of a transition
level.

* `exists_enumerateAll`, `exists_enumeratePruned` : the assignments returned.
* `exists_enumeratePruned_sharesElectron` : those of cells that share one electron.
* `Environment.IsAmbiguous` : the assignments that only the exhaustive enumeration returns.
-/
import Mathlib
import DanglingBonds.Proofs.Engines
import DanglingBonds.Proofs.SharedElectron

namespace DanglingBonds

variable {n : ℕ}

/-- A list without duplicates whose only member is `x`. -/
theorem eq_singleton_of_nodup {β : Type} {xs : List β} {x : β} (hnodup : xs.Nodup)
    (hmem : ∀ y, y ∈ xs ↔ y = x) : xs = [x] := by
  have hperm : xs.Perm [x] := by
    rw [List.perm_ext_iff_of_nodup hnodup (List.nodup_singleton x)]
    intro y
    rw [hmem, List.mem_singleton]
  exact List.perm_singleton.1 hperm

/-- The charge assignments of a simulation, in order. -/
def Simulation.charges {α : Type} (r : Simulation α n) : List (Vector Charge n) :=
  r.distributions.map (·.charges)

/-! ## One cell -/

/-- A layout of one cell, at a potential applied to it. -/
def isolatedCell (v : ℝ) : Layout ℝ where
  cells := ⟨[(⟨0, 0, 0⟩, .normal)], List.pairwise_singleton _ _⟩
  globalPotential := v

section IsolatedCell

variable {v : ℝ} {p : Parameters ℝ}

instance isolatedCell_subsingleton : Subsingleton (Fin (isolatedCell v).size) :=
  inferInstanceAs (Subsingleton (Fin 1))

/-- The cell of the layout. -/
def theCell : Fin (isolatedCell v).size :=
  ⟨0, Nat.one_pos⟩

/-- The cell has the applied potential, whatever its charge. -/
theorem potential_isolatedCell (q : Vector Charge (isolatedCell v).size)
    (i : Fin (isolatedCell v).size) :
    (Environment.ofLayout (isolatedCell v) p).potential q i = v := by
  have hexternal : (Environment.ofLayout (isolatedCell v) p).external.get i = 0 + 0 + v :=
    Environment.external_ofLayout (isolatedCell v) p i
  rw [Environment.potential_of_subsingleton (Environment.ofLayout_isReciprocal _ p), hexternal]
  ring

/-- The stability of an assignment is that of the one charge. -/
theorem isStable_isolatedCell_iff {q : Vector Charge (isolatedCell v).size} :
    (Environment.ofLayout (isolatedCell v) p).IsStable q
      ↔ isPopulationStable (q.get theCell) v p = true := by
  constructor
  · intro h
    rw [← potential_isolatedCell q theCell]
    exact h.population theCell
  · intro h
    refine ⟨fun i => ?_, fun i j hij => ?_⟩
    · rw [Subsingleton.elim i theCell, potential_isolatedCell]
      exact h
    · rw [Subsingleton.elim i j] at hij
      exact absurd hij (lt_irrefl _)

/-- Unless its potential keeps it negative, the cell is the dependent one. -/
theorem isDependent_isolatedCell (h : -stabilityTolerance ≤ -v + p.muMinus) :
    (Environment.ofLayout (isolatedCell v) p).IsDependent theCell where
  free := by
    rw [← Bool.not_eq_true, Environment.mustBeNegative_iff,
      ← Environment.potential_replicate_negative, potential_isolatedCell]
    exact not_lt.2 h
  first i hi := by
    rw [Subsingleton.elim i theCell] at hi
    exact absurd hi (lt_irrefl _)

/-- At the lower transition level a potential settles on the negative charge. -/
theorem settledCharge_muMinus (p : Parameters ℝ) (base : ℕ) :
    settledCharge p.muMinus p base = .negative := by
  refine settledCharge_of_lt ?_
  rw [neg_add_cancel]
  exact stabilityTolerance_pos

/-- The neutral charge is stable there as well. -/
theorem isPopulationStable_neutral_muMinus (p : Parameters ℝ) :
    isPopulationStable .neutral p.muMinus p = true := by
  have htol := stabilityTolerance_pos
  have hgap := two_mul_stabilityTolerance_lt_transitionGap
  rw [isPopulationStable_neutral_iff, p.muPlus_eq]
  constructor
  · linarith
  · linarith

/-- The assignments of one cell are few. -/
theorem pow_size_isolatedCell_le {base : ℕ} (h : base = 2 ∨ base = 3) :
    base ^ (isolatedCell v).size ≤ 2 ^ 64 := by
  show base ^ 1 ≤ 2 ^ 64
  rw [pow_one]
  omega

/-- The preset parameters are accepted in either base. -/
theorem check_default {base : ℕ} (h : base = 2 ∨ base = 3) :
    ({ (default : Parameters ℝ) with base } : Parameters ℝ).check = .ok () := by
  refine Parameters.check_eq_ok_iff.2 ⟨h, ?_, ?_⟩
  · show (0 : ℝ) < 5.6
    norm_num
  · show (0 : ℝ) < 5.0
    norm_num

end IsolatedCell

/-! ## What the enumerations return -/

section Returned

variable {l : Layout ℝ} {p : Parameters ℝ}

/-- The pruned enumeration runs in base 2 or 3. -/
theorem enumerationBase_eq_two_or_three (hp : p.check = .ok ()) (d : BaseDetection)
    (positive : Bool) :
    enumerationBase d p positive = 2 ∨ enumerationBase d p positive = 3 := by
  cases d with
  | off => exact (Parameters.check_eq_ok_iff.1 hp).1
  | on => cases positive <;> simp [enumerationBase]

/-- The exhaustive enumeration of a layout with cells returns the stable assignments of the base,
each once. -/
theorem exists_enumerateAll (hp : p.check = .ok ()) (hl : l.checkDefects = .ok ())
    (hcells : l.isEmpty = false) (hfits : p.base ^ l.size ≤ 2 ^ 64) :
    ∃ r, l.enumerateAll p = .ok r ∧ r.charges.Nodup ∧
      ∀ q, q ∈ r.charges ↔
        (∀ i, (q.get i).InBase p.base) ∧ (Environment.ofLayout l p).IsStable q := by
  have hbase := (Parameters.check_eq_ok_iff.1 hp).1
  refine ⟨_, enumerateAll_eq_ok hp hl hcells hfits,
    nodup_charges_recorded (Environment.nodup_exhaustiveTests hbase), fun q => ?_⟩
  rw [Simulation.charges, mem_charges_recorded, Environment.mem_exhaustiveTests_iff hbase]
  rfl

/-- The pruned enumeration of a layout with cells returns the stable assignments of its base whose
dependent cell is settled, each once, with the potentials and the energy in closed form. -/
theorem exists_enumeratePruned (hp : p.check = .ok ()) (hl : l.checkDefects = .ok ())
    (hcells : l.isEmpty = false) (detection : BaseDetection) {base : ℕ}
    (hbase : base = enumerationBase detection p
      ((Environment.ofLayout l p).freeCells.any (Environment.ofLayout l p).canBePositive))
    (hfits : (Environment.ofLayout l p).IndicesFit base) :
    ∃ r, l.enumeratePruned p detection = .ok r ∧ r.charges.Nodup ∧
      (∀ q, q ∈ r.charges ↔
        (∀ i, (q.get i).InBase base) ∧ (Environment.ofLayout l p).IsStable q ∧
        ∀ d, (Environment.ofLayout l p).IsDependent d →
          q.get d = settledCharge ((Environment.ofLayout l p).potential q d) p base) ∧
      ∀ s ∈ r.distributions,
        (∀ i, s.potentials.get i = (Environment.ofLayout l p).potential s.charges i) ∧
        s.energy = (Environment.ofLayout l p).electrostaticEnergy s.charges := by
  have hb : base = 2 ∨ base = 3 := hbase ▸ enumerationBase_eq_two_or_three hp detection _
  obtain ⟨s, hs, hresult⟩ := enumeratePruned_eq_ok hp hl hcells detection hbase hfits
  refine ⟨_, hresult, nodup_charges_recorded (Environment.nodup_prunedTests _ base),
    fun q => ?_, fun s' hs' => ?_⟩
  · rw [Simulation.charges, mem_charges_recorded, hs]
    constructor
    · rintro ⟨hq, hstable⟩
      obtain ⟨hin, hsettled⟩ := (Environment.mem_prunedTests_iff
        (Environment.ofLayout_isReciprocal l p) (Environment.ofLayout_between_nonneg l hp) hb
        hstable).1 hq
      exact ⟨hin, hstable, hsettled⟩
    · rintro ⟨hin, hstable, hsettled⟩
      exact ⟨(Environment.mem_prunedTests_iff (Environment.ofLayout_isReciprocal l p)
        (Environment.ofLayout_between_nonneg l hp) hb hstable).2 ⟨hin, hsettled⟩, hstable⟩
  · rw [eq_withCharges_of_mem_recorded hs', ← hs]
    exact ⟨Surface.get_potentials_withCharges s s'.charges,
      Surface.energy_withCharges s s'.charges⟩

/-- **What the pruned enumeration returns.** Run in the base of its parameters, it returns each
valid assignment of the base whose dependent cell is settled, once and with the potentials and the
energy in closed form; if every cell must be negative, it returns the negative assignment alone. -/
theorem enumeratePruned_exact (hp : p.check = .ok ()) (hl : l.checkDefects = .ok ())
    (hcells : l.isEmpty = false) (hfits : p.base ^ l.size ≤ 2 ^ 64) :
    let env := Environment.ofLayout l p
    ∃ r, l.enumeratePruned p .off = .ok r ∧ r.charges.Nodup ∧
      (∀ q, q ∈ r.charges ↔
        (∀ i, (q.get i).InBase p.base) ∧
        ((Surface.ofLayout l p).withCharges q).isValid = true ∧
        ∀ d, env.IsDependent d → q.get d = settledCharge (env.potential q d) p p.base) ∧
      ((∀ i, env.mustBeNegative i = true) →
        r.charges = [Vector.replicate l.size .negative]) ∧
      ∀ s ∈ r.distributions,
        (∀ i, s.potentials.get i
          = env.external.get i + ∑ j, env.between i j * (s.charges.get j).value) ∧
        s.energy
          = ∑ i, (s.charges.get i).value * (s.potentials.get i + env.external.get i) / 2 := by
  intro env
  have hbase := (Parameters.check_eq_ok_iff.1 hp).1
  obtain ⟨r, hr, hnodup, hmem, hclosed⟩ := exists_enumeratePruned hp hl hcells .off rfl
    (Environment.indicesFit_of_pow_le hbase hfits)
  refine ⟨r, hr, hnodup, fun q => ?_, fun hall => ?_, fun s hs => ⟨(hclosed s hs).1, ?_⟩⟩
  · rw [hmem, Surface.isValid_withCharges_iff]
    rfl
  · have honly : ∀ q, q ∈ r.charges ↔ q = Vector.replicate l.size .negative := by
      intro q
      rw [hmem]
      constructor
      · rintro ⟨-, hstable, -⟩
        exact Environment.eq_replicate_negative_of_isStable
          (Environment.ofLayout_between_nonneg l hp) hall hstable
      · rintro rfl
        exact ⟨inBase_replicate_negative hbase, Environment.isStable_replicate_negative hall,
          fun d hd => absurd hall hd.not_forall⟩
    exact eq_singleton_of_nodup hnodup honly
  · rw [(hclosed s hs).2, Environment.electrostaticEnergy]
    simp only [(hclosed s hs).1]
    rfl

/-- The walk over two cells that share one electron finds it on either, and nothing else. -/
theorem enumeratePruned_twinCells :
    let p := twinParameters 3
    p.check = .ok () ∧ twinCells.checkDefects = .ok () ∧ twinCells.isEmpty = false ∧
      p.base ^ twinCells.size ≤ 2 ^ 64 ∧
      ∃ r, twinCells.enumeratePruned p .off = .ok r ∧
        r.charges.Perm ((List.finRange twinCells.size).map electronOn) := by
  intro p
  have hp : p.check = .ok () := check_twinParameters (.inr rfl)
  have hfits : p.base ^ twinCells.size ≤ 2 ^ 64 := pow_size_twinCells_le (.inr rfl)
  have hshares := twinCells_sharesElectron 3
  obtain ⟨r, hr, hnodup, hmem, -, -⟩ := enumeratePruned_exact hp (l := twinCells) rfl rfl hfits
  refine ⟨hp, rfl, rfl, hfits, r, hr, ?_⟩
  rw [List.perm_ext_iff_of_nodup hnodup (nodup_map_electronOn _)]
  intro q
  rw [hmem, Surface.isValid_withCharges_iff, mem_map_electronOn_iff]
  exact hshares.settled_iff (.inr rfl)

/-- The pruned enumeration of cells that share one electron finds it on each of them. -/
theorem exists_enumeratePruned_sharesElectron (hp : p.check = .ok ()) (hl : l.checkDefects = .ok ())
    (hcells : l.isEmpty = false) (hshares : (Environment.ofLayout l p).SharesElectron)
    (detection : BaseDetection) {base : ℕ}
    (hbase : base = enumerationBase detection p
      ((Environment.ofLayout l p).freeCells.any (Environment.ofLayout l p).canBePositive))
    (hfits : (Environment.ofLayout l p).IndicesFit base) :
    ∃ r, l.enumeratePruned p detection = .ok r ∧
      r.charges.Perm ((List.finRange l.size).map electronOn) := by
  have hb : base = 2 ∨ base = 3 := hbase ▸ enumerationBase_eq_two_or_three hp detection _
  have : Nonempty (Fin l.size) := ⟨⟨0, size_pos hcells⟩⟩
  obtain ⟨r, hr, hnodup, hmem, -⟩ := exists_enumeratePruned hp hl hcells detection hbase hfits
  refine ⟨r, hr, ?_⟩
  rw [List.perm_ext_iff_of_nodup hnodup (nodup_map_electronOn _)]
  intro q
  rw [hmem, mem_map_electronOn_iff]
  exact hshares.settled_iff hb

/-- So does that of two cells two columns apart. -/
theorem exists_enumeratePruned_twinCells {base : ℕ} (hbase : base = 2 ∨ base = 3)
    (detection : BaseDetection) :
    ∃ r, twinCells.enumeratePruned (twinParameters base) detection = .ok r ∧
      r.charges.Perm ((List.finRange twinCells.size).map electronOn) := by
  have hp := check_twinParameters hbase
  have hchosen := enumerationBase_eq_two_or_three hp detection
    ((Environment.ofLayout twinCells (twinParameters base)).freeCells.any
      (Environment.ofLayout twinCells (twinParameters base)).canBePositive)
  exact exists_enumeratePruned_sharesElectron hp (l := twinCells) rfl rfl
    (twinCells_sharesElectron base) detection rfl
    (Environment.indicesFit_of_pow_le hchosen (pow_size_twinCells_le hchosen))

/-! ## What the pruned enumeration misses -/

/-- The dependent cell is neutral although its potential is within the tolerance of a transition
level of the base. -/
def Environment.IsAmbiguous (env : Environment ℝ n) (base : ℕ) (q : Vector Charge n) : Prop :=
  ∃ d, env.IsDependent d ∧ q.get d = .neutral ∧
    (|-env.potential q d + env.parameters.muMinus| < stabilityTolerance
      ∨ base = 3 ∧ |-env.potential q d + env.parameters.muPlus| < stabilityTolerance)

/-- Of the stable assignments of a base, the ambiguous ones are those whose dependent cell is not
settled. -/
theorem Environment.IsStable.not_isAmbiguous_iff {env : Environment ℝ n} {q : Vector Charge n}
    (hq : env.IsStable q) {base : ℕ} (hbase : base = 2 ∨ base = 3)
    (hin : ∀ i, (q.get i).InBase base) :
    ¬ env.IsAmbiguous base q
      ↔ ∀ d, env.IsDependent d →
          q.get d = settledCharge (env.potential q d) env.parameters base := by
  have hcell : ∀ d, q.get d ≠ settledCharge (env.potential q d) env.parameters base
      ↔ q.get d = .neutral ∧
        (|-env.potential q d + env.parameters.muMinus| < stabilityTolerance
          ∨ base = 3 ∧ |-env.potential q d + env.parameters.muPlus| < stabilityTolerance) :=
    fun d => ne_settledCharge_iff (hin d) (hq.population d) hbase
  rw [IsAmbiguous, not_exists]
  refine forall_congr' fun d => ?_
  rw [not_and, ← hcell d, not_ne_iff]

/-- **What the pruned enumeration misses.** In the base of the parameters both enumerations return
each assignment once. What the pruned one returns, the exhaustive one returns; what it misses is
exactly what is ambiguous. So the two agree exactly when nothing ambiguous is valid. -/
theorem mem_enumeratePruned_iff_mem_enumerateAll (hp : p.check = .ok ())
    (hl : l.checkDefects = .ok ()) (hfits : p.base ^ l.size ≤ 2 ^ 64) :
    ∃ r r', l.enumeratePruned p .off = .ok r ∧ l.enumerateAll p = .ok r' ∧
      r.charges.Nodup ∧ r'.charges.Nodup ∧
      (∀ q, q ∈ r.charges
        ↔ q ∈ r'.charges ∧ ¬ (Environment.ofLayout l p).IsAmbiguous p.base q) ∧
      ((∀ q, q ∈ r.charges ↔ q ∈ r'.charges)
        ↔ ∀ q ∈ r'.charges, ¬ (Environment.ofLayout l p).IsAmbiguous p.base q) := by
  have hbase := (Parameters.check_eq_ok_iff.1 hp).1
  -- the last part follows from the others
  suffices hmain : ∃ r r', l.enumeratePruned p .off = .ok r ∧ l.enumerateAll p = .ok r' ∧
      r.charges.Nodup ∧ r'.charges.Nodup ∧
      ∀ q, q ∈ r.charges
        ↔ q ∈ r'.charges ∧ ¬ (Environment.ofLayout l p).IsAmbiguous p.base q by
    obtain ⟨r, r', hr, hr', hnodup, hnodup', hmem⟩ := hmain
    refine ⟨r, r', hr, hr', hnodup, hnodup', hmem, ?_⟩
    constructor
    · intro hsame q hq
      exact ((hmem q).1 ((hsame q).2 hq)).2
    · intro hnone q
      rw [hmem q]
      exact and_iff_left_of_imp (hnone q)
  cases hcells : l.isEmpty with
  | true =>
    obtain ⟨hall, hpruned⟩ := enumerate_of_isEmpty hp hl hcells .off
    exact ⟨_, _, hpruned, hall, List.nodup_nil, List.nodup_nil, fun q =>
      ⟨fun hq => absurd hq List.not_mem_nil, fun hq => absurd hq.1 List.not_mem_nil⟩⟩
  | false =>
    obtain ⟨r, hr, hnodup, hmem, -⟩ := exists_enumeratePruned hp hl hcells .off rfl
      (Environment.indicesFit_of_pow_le hbase hfits)
    obtain ⟨r', hr', hnodup', hmem'⟩ := exists_enumerateAll hp hl hcells hfits
    refine ⟨r, r', hr, hr', hnodup, hnodup', fun q => ?_⟩
    rw [hmem, hmem', and_assoc]
    refine and_congr_right fun hin => and_congr_right fun hstable => ?_
    exact (hstable.not_isAmbiguous_iff hbase hin).symm

/-- Away from the transition levels the two enumerations of a cell agree. -/
theorem enumerations_agree_isolatedCell :
    let l := isolatedCell (-0.6)
    let p : Parameters ℝ := { (default : Parameters ℝ) with base := 3 }
    p.check = .ok () ∧ l.checkDefects = .ok () ∧ p.base ^ l.size ≤ 2 ^ 64 ∧
      ∃ r r', l.enumeratePruned p .off = .ok r ∧ l.enumerateAll p = .ok r' ∧
        ∀ q, q ∈ r.charges ↔ q ∈ r'.charges := by
  intro l p
  have hp : p.check = .ok () := check_default (.inr rfl)
  have hfits : p.base ^ l.size ≤ 2 ^ 64 := by
    show 3 ^ 1 ≤ 2 ^ 64
    norm_num
  obtain ⟨r, r', hr, hr', -, -, -, hagree⟩ :=
    mem_enumeratePruned_iff_mem_enumerateAll hp (l := l) rfl hfits
  refine ⟨hp, rfl, hfits, r, r', hr, hr', hagree.2 ?_⟩
  rintro q - ⟨d, -, -, hlevel⟩
  rw [potential_isolatedCell] at hlevel
  rcases hlevel with hminus | ⟨-, hplus⟩
  · have hdist : |-(-0.6) + (-0.32 : ℝ)| < 1e-6 := hminus
    norm_num [abs_lt] at hdist
  · have hdist : |-(-0.6) + (-0.32 - 0.59 : ℝ)| < 1e-6 := hplus
    norm_num [abs_lt] at hdist

/-- At the lower transition level they do not: the pruned enumeration misses the neutral cell. -/
theorem enumeratePruned_misses_neutral_isolatedCell :
    let l := isolatedCell (-0.32)
    let p : Parameters ℝ := { (default : Parameters ℝ) with base := 2 }
    p.check = .ok () ∧ l.checkDefects = .ok () ∧ p.base ^ l.size ≤ 2 ^ 64 ∧
      ∃ r r', l.enumeratePruned p .off = .ok r ∧ l.enumerateAll p = .ok r' ∧
        Vector.replicate l.size .neutral ∈ r'.charges ∧
        Vector.replicate l.size .neutral ∉ r.charges := by
  intro l p
  have hp : p.check = .ok () := check_default (.inl rfl)
  have hfits : p.base ^ l.size ≤ 2 ^ 64 := by
    show 2 ^ 1 ≤ 2 ^ 64
    norm_num
  have hneutral : -stabilityTolerance ≤ -(-0.32) + p.muMinus := by
    have hlevel : -(-0.32) + p.muMinus = 0 := neg_add_cancel _
    linarith [stabilityTolerance_pos]
  obtain ⟨r, hr, -, hmem, -⟩ := exists_enumeratePruned (l := l) hp rfl rfl .off rfl
    (Environment.indicesFit_of_pow_le (.inl rfl) hfits)
  obtain ⟨r', hr', -, hmem'⟩ := exists_enumerateAll (l := l) hp rfl rfl hfits
  refine ⟨hp, rfl, hfits, r, r', hr, hr', (hmem' _).2 ⟨fun i => ?_, ?_⟩, fun hmiss => ?_⟩
  · rw [get_replicate]
    exact Charge.inBase_two_iff.2 (by decide)
  · rw [isStable_isolatedCell_iff, get_replicate]
    exact isPopulationStable_neutral_muMinus p
  · have hcell := ((hmem _).1 hmiss).2.2 theCell (isDependent_isolatedCell hneutral)
    rw [get_replicate, potential_isolatedCell] at hcell
    exact absurd (hcell.trans (settledCharge_muMinus p 2)) (by decide)

end Returned

end DanglingBonds
