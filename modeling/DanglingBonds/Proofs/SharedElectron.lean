/-
# Cells that share one electron

Cells that keep an electron each if they are alone, but repel each other by so much that no two
electrons stay. Their stable assignments have one electron, on any of the cells, and none of these
costs more energy than the others.

* `Environment.SharesElectron` : such cells.
* `electronOn` : the assignment with the electron on a cell.
* `SharesElectron.isStable_iff` : the stable assignments are these.
* `SharesElectron.get_electronOn_eq_settledCharge` : each of their cells is settled.
* `SharesElectron.settled_iff` : so no enumeration misses one.
* `rowOfTwo_sharesElectron` : two cells in a row.
-/
import Mathlib
import DanglingBonds.Proofs.TestedAssignments

namespace DanglingBonds

variable {n : ℕ}

/-! ## One electron -/

/-- The assignment with the electron on cell `i`, all other cells neutral. -/
def electronOn (i : Fin n) : Vector Charge n :=
  setCell (Vector.replicate n .neutral) i .negative

theorem get_electronOn (i k : Fin n) :
    (electronOn i).get k = if k = i then .negative else .neutral := by
  rw [electronOn, get_setCell, get_replicate]

theorem electronOn_inBase {base : ℕ} (hbase : base = 2 ∨ base = 3) (i k : Fin n) :
    ((electronOn i).get k).InBase base := by
  rw [get_electronOn]
  split
  · exact Charge.negative_inBase hbase
  · exact Charge.neutral_inBase hbase

theorem electronOn_injective : Function.Injective (electronOn (n := n)) := by
  intro i j h
  have hi : (electronOn i).get i = (electronOn j).get i := by rw [h]
  by_contra hij
  rw [get_electronOn, get_electronOn, if_pos rfl, if_neg hij] at hi
  cases hi

theorem mem_map_electronOn_iff {q : Vector Charge n} :
    q ∈ (List.finRange n).map electronOn ↔ ∃ i, q = electronOn i := by
  rw [List.mem_map]
  simp only [List.mem_finRange, true_and, eq_comm]

theorem nodup_map_electronOn (n : ℕ) : ((List.finRange n).map electronOn).Nodup :=
  (List.nodup_finRange n).map electronOn_injective

namespace Environment

/-- Cells without a potential from outside that share one electron. -/
structure SharesElectron (env : Environment ℝ n) : Prop where
  reciprocal : env.IsReciprocal
  external : ∀ i, env.external.get i = 0
  /-- A cell by itself keeps an electron. -/
  keeps : env.parameters.muMinus ≤ -stabilityTolerance
  /-- It does not next to another electron. -/
  repels : ∀ {i j}, i ≠ j → stabilityTolerance ≤ env.between i j + env.parameters.muMinus
  canBePositive_eq_false : ∀ i, env.canBePositive i = false

namespace SharesElectron

variable {env : Environment ℝ n} (h : env.SharesElectron)

include h

theorem between_nonneg (i j : Fin n) : 0 ≤ env.between i j := by
  by_cases hij : i = j
  · rw [hij, h.reciprocal.between_self]
  · linarith [h.repels hij, h.keeps, stabilityTolerance_pos]

/-- Without electrons there is no potential. -/
theorem potential_replicate_neutral (k : Fin n) :
    env.potential (Vector.replicate n .neutral) k = 0 := by
  rw [potential, h.external]
  simp

/-- The electron is felt on the other cells alone. -/
theorem potential_electronOn (i k : Fin n) :
    env.potential (electronOn i) k = -env.between k i := by
  rw [electronOn, potential_set, h.potential_replicate_neutral, get_replicate, value_negative,
    value_neutral]
  ring

/-- It costs nothing. -/
theorem electrostaticEnergy_electronOn (i : Fin n) :
    env.electrostaticEnergy (electronOn i) = 0 := by
  have hneutral : env.electrostaticEnergy (Vector.replicate n .neutral) = 0 := by
    rw [electrostaticEnergy]
    simp
  rw [electronOn, electrostaticEnergy_set h.reciprocal, h.potential_replicate_neutral, hneutral,
    get_replicate, value_negative, value_neutral]
  ring

/-- The cell with the electron keeps it. -/
theorem keeps_electronOn (i : Fin n) :
    -env.potential (electronOn i) i + env.parameters.muMinus < stabilityTolerance := by
  rw [h.potential_electronOn, h.reciprocal.between_self]
  linarith [h.keeps, stabilityTolerance_pos]

/-- The others stay neutral. -/
theorem neutral_electronOn {i k : Fin n} (hk : k ≠ i) :
    stabilityTolerance ≤ -env.potential (electronOn i) k + env.parameters.muMinus ∧
      -env.potential (electronOn i) k + env.parameters.muPlus ≤ -stabilityTolerance := by
  refine ⟨?_, muPlus_le_of_canBePositive_eq_false h.between_nonneg (h.canBePositive_eq_false k) _⟩
  rw [h.potential_electronOn, neg_neg]
  exact h.repels hk

/-- **One electron stays** where it is. -/
theorem isStable_electronOn (i : Fin n) : env.IsStable (electronOn i) where
  population k := by
    have htol := stabilityTolerance_pos
    rw [get_electronOn]
    by_cases hk : k = i
    · rw [if_pos hk, hk]
      exact isPopulationStable_negative_iff.2 (h.keeps_electronOn i)
    · obtain ⟨hminus, hplus⟩ := h.neutral_electronOn hk
      rw [if_neg hk]
      exact isPopulationStable_neutral_iff.2 ⟨by linarith, by linarith⟩
  configuration k j hkj := by
    -- the electron can move from cell `i` alone, and would feel there what it leaves behind
    rw [get_electronOn, get_electronOn] at hkj
    by_cases hk : k = i
    · rw [h.potential_electronOn, h.potential_electronOn, hk, h.reciprocal.between_self,
        h.reciprocal.between_comm j i]
      linarith [stabilityTolerance_pos]
    · rw [if_neg hk] at hkj
      split at hkj <;> exact absurd hkj (by decide)

/-- Two electrons do not. -/
theorem eq_neutral_of_isStable {q : Vector Charge n} (hq : env.IsStable q) {i k : Fin n}
    (hi : q.get i = .negative) (hk : k ≠ i) : q.get k = .neutral := by
  have hpositive : ∀ j, q.get j ≠ .positive := fun j =>
    ne_positive_of_canBePositive_eq_false h.between_nonneg (h.canBePositive_eq_false j)
      (hq.population j)
  have hcharge : ∀ j, ((q.get j).value : ℝ) ≤ 0 := by
    intro j
    cases hj : q.get j with
    | negative => norm_num
    | neutral => norm_num
    | positive => exact absurd hj (hpositive j)
  cases hcase : q.get k with
  | neutral => rfl
  | positive => exact absurd hcase (hpositive k)
  | negative =>
    -- the other electron brings the potential below the transition level
    have hterm := Finset.single_le_sum (f := fun j => -(env.between i j * (q.get j).value))
      (fun j _ => neg_nonneg.2 (mul_nonpos_of_nonneg_of_nonpos (h.between_nonneg i j) (hcharge j)))
      (Finset.mem_univ k)
    have hstay := hq.population i
    rw [hi, isPopulationStable_negative_iff, potential, h.external] at hstay
    rw [Finset.sum_neg_distrib, hcase, value_negative] at hterm
    linarith [h.repels (Ne.symm hk)]

/-- **The stable assignments** have one electron. -/
theorem isStable_iff [Nonempty (Fin n)] {q : Vector Charge n} :
    env.IsStable q ↔ ∃ i, q = electronOn i := by
  constructor
  · intro hq
    by_cases hcharged : ∃ i, q.get i = .negative
    · obtain ⟨i, hi⟩ := hcharged
      refine ⟨i, ext_get fun k => ?_⟩
      rw [get_electronOn]
      split
      · rename_i hk
        rw [hk, hi]
      · rename_i hk
        exact h.eq_neutral_of_isStable hq hi hk
    · -- without an electron a cell has no potential, and does not stay neutral
      have hneutral : q = Vector.replicate n .neutral := by
        apply ext_get
        intro i
        rw [get_replicate]
        cases hi : q.get i with
        | negative => exact absurd ⟨i, hi⟩ hcharged
        | neutral => rfl
        | positive =>
          exact absurd hi (ne_positive_of_canBePositive_eq_false h.between_nonneg
            (h.canBePositive_eq_false i) (hq.population i))
      obtain ⟨i⟩ := ‹Nonempty (Fin n)›
      have hstay := hq.population i
      rw [hneutral, get_replicate, isPopulationStable_neutral_iff,
        h.potential_replicate_neutral] at hstay
      linarith [hstay.1, h.keeps]
  · rintro ⟨i, rfl⟩
    exact h.isStable_electronOn i

/-- Every cell of such an assignment is settled. -/
theorem get_electronOn_eq_settledCharge (i d : Fin n) (base : ℕ) :
    (electronOn i).get d
      = settledCharge (env.potential (electronOn i) d) env.parameters base := by
  rw [get_electronOn]
  by_cases hd : d = i
  · rw [if_pos hd, hd]
    exact (settledCharge_of_lt (h.keeps_electronOn i)).symm
  · rw [if_neg hd]
    obtain ⟨hminus, hplus⟩ := h.neutral_electronOn hd
    exact (settledCharge_of_neutral hminus fun _ => hplus).symm

/-- So they are what an enumeration finds that settles some of the cells, in either base. -/
theorem settled_iff [Nonempty (Fin n)] {base : ℕ} (hbase : base = 2 ∨ base = 3)
    {q : Vector Charge n} {D : Fin n → Prop} :
    ((∀ i, (q.get i).InBase base) ∧ env.IsStable q ∧
      ∀ d, D d → q.get d = settledCharge (env.potential q d) env.parameters base) ↔
        ∃ i, q = electronOn i := by
  rw [h.isStable_iff]
  constructor
  · exact fun hq => hq.2.1
  · rintro ⟨i, rfl⟩
    exact ⟨electronOn_inBase hbase i, ⟨i, rfl⟩,
      fun d _ => h.get_electronOn_eq_settledCharge i d base⟩

end SharesElectron

end Environment

/-! ## Two cells in a row -/

/-- Two cells in a row, so many columns apart. -/
def rowOfTwoCells (columns : ℤ) : List (Site × Role) :=
  [(⟨0, 0, 0⟩, .normal), (⟨columns, 0, 0⟩, .normal)]

theorem rowOfTwoCells_ascending {columns : ℤ} (h : 0 < columns) :
    Ascending (rowOfTwoCells columns) := by
  refine List.pairwise_cons.2 ⟨fun b hb => ?_, List.pairwise_singleton _ _⟩
  rw [List.mem_singleton.1 hb]
  exact .inr ⟨rfl, h⟩

/-- The layout of these cells. -/
noncomputable def rowOfTwo (columns : ℤ) (h : 0 < columns) : Layout ℝ :=
  { Layout.empty .si100 with cells := ⟨rowOfTwoCells columns, rowOfTwoCells_ascending h⟩ }

section RowOfTwo

variable {columns : ℤ} {h : 0 < columns} {p : Parameters ℝ}

/-- Each cell acts on the other with the unit potential at their distance. -/
theorem between_rowOfTwo (i j : Fin (rowOfTwo columns h).size) :
    (Environment.ofLayout (rowOfTwo columns h) p).between i j
      = if i = j then 0 else screenedPotential (columns * 0.384 : ℝ) p.epsilonR p.lambdaTF := by
  rw [Environment.between_ofLayout]
  split
  · rfl
  · rename_i hij
    have hdistance : Lattice.si100.distance ⟨0, 0, 0⟩ ⟨columns, 0, 0⟩ = (columns * 0.384 : ℝ) := by
      rw [distance_row, sub_zero, abs_of_pos (Int.cast_pos.2 h)]
    refine congrArg (screenedPotential · p.epsilonR p.lambdaTF) ?_
    -- the two sites are those of the row, in either order
    change Fin 2 at i j
    fin_cases i
    · fin_cases j
      · exact absurd rfl hij
      · exact hdistance
    · fin_cases j
      · exact (Lattice.distance_comm _ _ _).trans hdistance
      · exact absurd rfl hij

/-- With both cells negative, each feels the other. -/
theorem lowestPotential_rowOfTwo (i : Fin (rowOfTwo columns h).size) :
    (Environment.ofLayout (rowOfTwo columns h) p).lowestPotential i
      = -screenedPotential (columns * 0.384 : ℝ) p.epsilonR p.lambdaTF := by
  set v := screenedPotential (columns * 0.384 : ℝ) p.epsilonR p.lambdaTF
  have hexternal : (Environment.ofLayout (rowOfTwo columns h) p).external.get i = 0 + 0 + 0 :=
    Environment.external_ofLayout (rowOfTwo columns h) p i
  rw [Environment.lowestPotential_eq_sum, hexternal]
  have hterm : ∀ j, (Environment.ofLayout (rowOfTwo columns h) p).between i j
      = v - if i = j then v else 0 := by
    intro j
    rw [between_rowOfTwo]
    split
    · exact (sub_self v).symm
    · exact (sub_zero v).symm
  have hcard : Fintype.card (Fin (rowOfTwo columns h).size) = 2 := Fintype.card_fin 2
  simp only [hterm, Finset.sum_sub_distrib, Finset.sum_const, Finset.card_univ, hcard,
    Finset.sum_ite_eq, Finset.mem_univ, if_true, nsmul_eq_mul]
  ring

/-- One of them can be positive if they act on each other by more than the upper level. -/
theorem admitsPositive_rowOfTwo_iff : (rowOfTwo columns h).admitsPositive p = true ↔
    -stabilityTolerance
      < screenedPotential (columns * 0.384 : ℝ) p.epsilonR p.lambdaTF + p.muPlus := by
  rw [← not_iff_not, Bool.not_eq_true, admitsPositive_eq_false_iff, not_lt]
  simp only [Environment.canBePositive_eq_false_iff, lowestPotential_rowOfTwo, neg_neg]
  exact ⟨fun hlow => hlow ⟨0, Nat.two_pos⟩, fun hlow _ => hlow⟩

/-- **Two cells in a row** share one electron if they act on each other by more than the lower level
and by less than the upper one. -/
theorem rowOfTwo_sharesElectron (hkeeps : p.muMinus ≤ -stabilityTolerance)
    (hlower : stabilityTolerance
      ≤ screenedPotential (columns * 0.384 : ℝ) p.epsilonR p.lambdaTF + p.muMinus)
    (hupper : screenedPotential (columns * 0.384 : ℝ) p.epsilonR p.lambdaTF + p.muPlus
      ≤ -stabilityTolerance) :
    (Environment.ofLayout (rowOfTwo columns h) p).SharesElectron where
  reciprocal := Environment.ofLayout_isReciprocal (rowOfTwo columns h) p
  external i := by
    refine (Environment.external_ofLayout (rowOfTwo columns h) p i).trans ?_
    show (0 : ℝ) + 0 + 0 = 0
    norm_num
  keeps := hkeeps
  repels := by
    intro i j hij
    rw [between_rowOfTwo, if_neg hij]
    exact hlower
  canBePositive_eq_false i := by
    rw [Environment.canBePositive_eq_false_iff, lowestPotential_rowOfTwo, neg_neg]
    exact hupper

end RowOfTwo

/-! ## Two columns apart -/

/-- Two cells two columns apart. -/
noncomputable def twinCells : Layout ℝ :=
  rowOfTwo 2 (by decide)

/-- Parameters with a transition level that leaves one electron to the two cells. -/
noncomputable def twinParameters (base : ℕ) : Parameters ℝ :=
  ⟨base, 5.6, 5.0, -0.2⟩

theorem check_twinParameters {base : ℕ} (h : base = 2 ∨ base = 3) :
    (twinParameters base).check = .ok () := by
  refine Parameters.check_eq_ok_iff.2 ⟨h, ?_, ?_⟩
  · show (0 : ℝ) < 5.6
    norm_num
  · show (0 : ℝ) < 5.0
    norm_num

/-- The assignments of two cells are few. -/
theorem pow_size_twinCells_le {base : ℕ} (h : base = 2 ∨ base = 3) :
    base ^ twinCells.size ≤ 2 ^ 64 := by
  show base ^ 2 ≤ 2 ^ 64
  rcases h with rfl | rfl <;> norm_num

instance nonempty_twinCells : Nonempty (Fin twinCells.size) :=
  ⟨⟨0, Nat.two_pos⟩⟩

/-- How far apart they are, in nanometres. -/
theorem two_columns_eq : ((2 : ℤ) : ℝ) * 0.384 = 0.768 := by norm_num

section TwinCells

variable {p : Parameters ℝ} (hε : p.epsilonR = 5.6) (hlambda : p.lambdaTF = 5.0)

include hε hlambda

/-- The cells act on each other by more than a fifth of a volt, but not much more. -/
theorem between_twinCells {i j : Fin twinCells.size} (hij : i ≠ j) :
    0.21 ≤ (Environment.ofLayout twinCells p).between i j ∧
      (Environment.ofLayout twinCells p).between i j ≤ 0.36 := by
  have hbetween : (Environment.ofLayout twinCells p).between i j
      = screenedPotential (((2 : ℤ) : ℝ) * 0.384) p.epsilonR p.lambdaTF :=
    (between_rowOfTwo i j).trans (if_neg hij)
  rw [hbetween, two_columns_eq, hε, hlambda]
  exact ⟨le_screenedPotential_two_columns (by norm_num) le_rfl, screenedPotential_two_columns_le⟩

/-- So the potential of a cell is never much below that from outside. -/
theorem le_lowestPotential_twinCells (i : Fin twinCells.size) :
    -0.36 ≤ (Environment.ofLayout twinCells p).lowestPotential i := by
  have hlowest : (Environment.ofLayout twinCells p).lowestPotential i
      = -screenedPotential (((2 : ℤ) : ℝ) * 0.384) p.epsilonR p.lambdaTF :=
    lowestPotential_rowOfTwo i
  rw [hlowest, two_columns_eq, hε, hlambda]
  linarith [screenedPotential_two_columns_le]

end TwinCells

/-- **Two cells two columns apart** share one electron. -/
theorem twinCells_sharesElectron (base : ℕ) :
    (Environment.ofLayout twinCells (twinParameters base)).SharesElectron := by
  have hge := le_screenedPotential_two_columns (d := 0.768) (by norm_num) le_rfl
  have hle := screenedPotential_two_columns_le
  refine rowOfTwo_sharesElectron ?_ ?_ ?_
  · show (-0.2 : ℝ) ≤ -1e-6
    norm_num
  · rw [two_columns_eq]
    show (1e-6 : ℝ) ≤ screenedPotential 0.768 5.6 5.0 + -0.2
    linarith
  · rw [two_columns_eq]
    show screenedPotential 0.768 5.6 5.0 + (-0.2 - 0.59) ≤ -(1e-6 : ℝ)
    linarith

end DanglingBonds
