/-
# Electrostatics of an assignment

Potentials and energy of a charge assignment in closed form, and how they change when one cell
changes its charge.

* `Environment.potential`, `Environment.electrostaticEnergy` : the closed forms.
* `Environment.IsReciprocal` : two cells act on each other alike, and no cell acts on itself.
* `potential_set`, `electrostaticEnergy_set` : the change by one cell.
* `coulombConstant_mul_div_le`, `le_coulombConstant_mul_div` : bounds from bounds on `π`.
* `screenedPotential_nonneg`, `screenedPotential_le`, `le_screenedPotential` : bounds on unit
  potentials.
* `Lattice.distance_comm`, `distance_row` : distances, also along a row.
* `ofLayout_isReciprocal`, `ofLayout_between_nonneg` : what the environment of a layout provides.
-/
import Mathlib
import DanglingBonds.Proofs.AcceptedInputs

namespace DanglingBonds

variable {n : ℕ}

/-! ## Entries of vectors -/

section Entries

variable {β γ : Type}

/-- A vector with a new entry for one cell. -/
def setCell (q : Vector β n) (i : Fin n) (c : β) : Vector β n :=
  q.set i c i.isLt

theorem get_setCell (q : Vector β n) (i j : Fin n) (c : β) :
    (setCell q i c).get j = if j = i then c else q.get j := by
  rw [setCell, Vector.get_eq_getElem, Vector.getElem_set, Vector.get_eq_getElem]
  simp only [Fin.ext_iff, eq_comm]

theorem get_setCell_self (q : Vector β n) (i : Fin n) (c : β) : (setCell q i c).get i = c := by
  rw [get_setCell, if_pos rfl]

theorem get_setCell_of_ne (q : Vector β n) {i j : Fin n} (h : j ≠ i) (c : β) :
    (setCell q i c).get j = q.get j := by
  rw [get_setCell, if_neg h]

@[simp] theorem get_replicate (i : Fin n) (c : β) : (Vector.replicate n c).get i = c := by
  rw [Vector.get_eq_getElem, Vector.getElem_replicate]

@[simp] theorem get_ofFn (f : Fin n → β) (i : Fin n) : (Vector.ofFn f).get i = f i := by
  rw [Vector.get_eq_getElem, Vector.getElem_ofFn]

theorem get_zipWith (f : β → β → γ) (v w : Vector β n) (i : Fin n) :
    (Vector.zipWith f v w).get i = f (v.get i) (w.get i) := by
  simp only [Vector.get_eq_getElem, Vector.getElem_zipWith]

/-- Vectors with the same entries are equal. -/
theorem ext_get {q q' : Vector β n} (h : ∀ i, q.get i = q'.get i) : q = q' := by
  apply Vector.ext
  intro k hk
  have hk' := h ⟨k, hk⟩
  rwa [Vector.get_eq_getElem, Vector.get_eq_getElem] at hk'

/-- Setting an entry to what it is changes nothing. -/
theorem setCell_get_self (q : Vector β n) (i : Fin n) : setCell q i (q.get i) = q := by
  apply ext_get
  intro j
  rw [get_setCell]
  split
  · rename_i h
    rw [h]
  · rfl

end Entries

/-! ## Charges as numbers -/

@[simp] theorem value_negative : (Charge.negative.value : ℝ) = -1 := rfl

@[simp] theorem value_neutral : (Charge.neutral.value : ℝ) = 0 := rfl

@[simp] theorem value_positive : (Charge.positive.value : ℝ) = 1 := rfl

/-- No charge is below that of a negative cell. -/
theorem neg_one_le_value (c : Charge) : (-1 : ℝ) ≤ c.value := by
  cases c <;> norm_num

/-! ## Closed forms -/

namespace Environment

/-- The local potential of cell `i` under the charges `q`. -/
noncomputable def potential (env : Environment ℝ n) (q : Vector Charge n) (i : Fin n) : ℝ :=
  env.external.get i + ∑ j, env.between i j * (q.get j).value

/-- The electrostatic energy of the charges `q`. -/
noncomputable def electrostaticEnergy (env : Environment ℝ n) (q : Vector Charge n) : ℝ :=
  ∑ i, (q.get i).value * (env.potential q i + env.external.get i) / 2

/-- The potentials computed anew are the closed form. -/
theorem get_potentialsOf (env : Environment ℝ n) (q : Vector Charge n) (i : Fin n) :
    (env.potentialsOf q).get i = env.potential q i := by
  rw [potentialsOf, get_ofFn, potential, add_comm (env.external.get i),
    ← foldl_add_eq_sum fun j => env.between i j * (q.get j).value]

/-- The energy computed anew is a sum over the cells. -/
theorem energyOf_eq_sum (env : Environment ℝ n) (q : Vector Charge n) (v : Vector ℝ n) :
    env.energyOf q v = ∑ i, (q.get i).value * (v.get i + env.external.get i) / 2 := by
  have hterm : ∀ i, (q.get i).value * (v.get i + env.external.get i) / 2
      = (0.5 : ℝ) * (q.get i).value * (v.get i + env.external.get i) := by
    intro i
    norm_num
    ring
  rw [Finset.sum_congr rfl fun i _ => hterm i, ← foldl_add_eq_sum]
  rfl

/-- The energy computed anew from potentials computed anew is the closed form. -/
theorem energyOf_potentialsOf (env : Environment ℝ n) (q : Vector Charge n) :
    env.energyOf q (env.potentialsOf q) = env.electrostaticEnergy q := by
  rw [energyOf_eq_sum, electrostaticEnergy]
  simp only [get_potentialsOf]

/-! ## The change by one cell -/

/-- Two cells act on each other alike, and no cell acts on itself. -/
structure IsReciprocal (env : Environment ℝ n) : Prop where
  between_comm : ∀ i j, env.between i j = env.between j i
  between_self : ∀ i, env.between i i = 0

/-- A new charge on cell `k` moves the potential of every cell by the pair's unit potential. -/
theorem potential_set (env : Environment ℝ n) (q : Vector Charge n) (k i : Fin n) (c : Charge) :
    env.potential (setCell q k c) i
      = env.potential q i + env.between i k * (c.value - (q.get k).value) := by
  have hterm : ∀ j, env.between i j * ((setCell q k c).get j).value
      = env.between i j * (q.get j).value
        + if j = k then env.between i k * (c.value - (q.get k).value) else 0 := by
    intro j
    rw [get_setCell]
    split
    · rename_i h
      rw [h]
      ring
    · ring
  simp only [potential, hterm, Finset.sum_add_distrib, Finset.sum_ite_eq', Finset.mem_univ,
    if_true]
  ring

/-- A cell on its own feels what is applied to it. -/
theorem potential_of_subsingleton [Subsingleton (Fin n)] {env : Environment ℝ n}
    (h : env.IsReciprocal) (q : Vector Charge n) (i : Fin n) :
    env.potential q i = env.external.get i := by
  have hbetween : ∀ j, env.between i j = 0 := fun j => Subsingleton.elim i j ▸ h.between_self i
  rw [potential]
  simp only [hbetween, zero_mul, Finset.sum_const_zero, add_zero]

/-- A cell's own charge does not move its potential. -/
theorem potential_set_self {env : Environment ℝ n} (h : env.IsReciprocal) (q : Vector Charge n)
    (k : Fin n) (c : Charge) : env.potential (setCell q k c) k = env.potential q k := by
  rw [potential_set, h.between_self]
  ring

/-- A new charge on cell `k` costs its change times the potential of the cell. -/
theorem electrostaticEnergy_set {env : Environment ℝ n} (h : env.IsReciprocal)
    (q : Vector Charge n) (k : Fin n) (c : Charge) :
    env.electrostaticEnergy (setCell q k c)
      = env.electrostaticEnergy q + (c.value - (q.get k).value) * env.potential q k := by
  set δ : ℝ := c.value - (q.get k).value with hδ
  -- half of the change comes from cell `k` itself, the other half from all cells that feel it
  have hterm : ∀ i, ((setCell q k c).get i).value
        * (env.potential (setCell q k c) i + env.external.get i) / 2
      = (q.get i).value * (env.potential q i + env.external.get i) / 2
        + δ / 2 * (env.between k i * (q.get i).value)
        + if i = k then δ * (env.potential q k + env.external.get k) / 2 else 0 := by
    intro i
    rw [potential_set, get_setCell, h.between_comm i k, ← hδ]
    split
    · rename_i hi
      subst hi
      rw [h.between_self, hδ]
      ring
    · ring
  have hpot : ∑ i, env.between k i * (q.get i).value
      = env.potential q k - env.external.get k := by
    rw [potential]
    ring
  simp only [electrostaticEnergy, hterm, Finset.sum_add_distrib, ← Finset.mul_sum, hpot,
    Finset.sum_ite_eq', Finset.mem_univ, if_true]
  ring

/-! ## All other cells negative -/

/-- The lowest potential of a cell, as a sum. -/
theorem lowestPotential_eq_sum (env : Environment ℝ n) (i : Fin n) :
    env.lowestPotential i = env.external.get i - ∑ j, env.between i j := by
  have hsum := foldl_vector_eq_sum (env.pair.get i)
  rw [lowestPotential]
  exact congrArg (env.external.get i - ·) hsum

/-- With all cells negative every potential is at its lowest. -/
theorem potential_replicate_negative (env : Environment ℝ n) (i : Fin n) :
    env.potential (Vector.replicate n .negative) i = env.lowestPotential i := by
  rw [potential, lowestPotential_eq_sum]
  simp only [get_replicate, value_negative, mul_neg, mul_one, Finset.sum_neg_distrib]
  ring

/-- No assignment brings a potential below its lowest. -/
theorem lowestPotential_le {env : Environment ℝ n} (h : ∀ i j, 0 ≤ env.between i j)
    (q : Vector Charge n) (i : Fin n) : env.lowestPotential i ≤ env.potential q i := by
  rw [potential, lowestPotential_eq_sum, sub_eq_add_neg, ← Finset.sum_neg_distrib]
  refine add_le_add le_rfl (Finset.sum_le_sum fun j _ => ?_)
  have hq := mul_le_mul_of_nonneg_left (neg_one_le_value (q.get j)) (h i j)
  linarith

/-- Where cells repel each other, the lowest potential is below what is applied from outside. -/
theorem lowestPotential_le_external {env : Environment ℝ n} (h : ∀ i j, 0 ≤ env.between i j)
    (i : Fin n) : env.lowestPotential i ≤ env.external.get i := by
  rw [lowestPotential_eq_sum, sub_le_self_iff]
  exact Finset.sum_nonneg fun j _ => h i j

end Environment

/-! ## The environment of a layout -/

theorem elementaryCharge_pos : (0 : ℝ) < elementaryCharge := by
  show (0 : ℝ) < 1.602e-19
  norm_num

section Coulomb

variable {c x epsilonR bound : ℝ} (hε : 0 < epsilonR)

include hε

theorem coulombConstant_pos : 0 < coulombConstant epsilonR := by
  show 0 < 1 / (4.0 * Real.pi * 8.854e-12 * epsilonR)
  positivity

variable (hx : 0 < x) (hbound : 0 ≤ bound)

include hx hbound

/-- An upper bound on a potential without screening, from a lower bound on `π`. -/
theorem coulombConstant_mul_div_le (hc : c ≤ Real.pi)
    (h : elementaryCharge ≤ bound * (4 * c * 8.854e-12 * epsilonR * (x * 1e-9))) :
    coulombConstant epsilonR * elementaryCharge / (x * 1e-9) ≤ bound := by
  show 1 / (4.0 * Real.pi * 8.854e-12 * epsilonR) * elementaryCharge / (x * 1e-9) ≤ bound
  rw [div_mul_eq_mul_div, one_mul, div_div, div_le_iff₀ (by positivity)]
  refine h.trans (mul_le_mul_of_nonneg_left ?_ hbound)
  have hpi : 4 * c ≤ 4.0 * Real.pi := by linarith
  gcongr

/-- A lower bound on a potential without screening, from an upper bound on `π`. -/
theorem le_coulombConstant_mul_div (hc : Real.pi ≤ c)
    (h : bound * (4 * c * 8.854e-12 * epsilonR * (x * 1e-9)) ≤ elementaryCharge) :
    bound ≤ coulombConstant epsilonR * elementaryCharge / (x * 1e-9) := by
  show bound ≤ 1 / (4.0 * Real.pi * 8.854e-12 * epsilonR) * elementaryCharge / (x * 1e-9)
  rw [div_mul_eq_mul_div, one_mul, div_div, le_div_iff₀ (by positivity)]
  refine le_trans (mul_le_mul_of_nonneg_left ?_ hbound) h
  have hpi : 4.0 * Real.pi ≤ 4 * c := by linarith
  gcongr

end Coulomb

/-- A unit potential is never negative. -/
theorem screenedPotential_nonneg {epsilonR : ℝ} (hε : 0 < epsilonR) (d lambdaTF : ℝ) :
    0 ≤ screenedPotential d epsilonR lambdaTF := by
  unfold screenedPotential
  split
  · exact le_rfl
  · rename_i hd
    have hd' : (0 : ℝ) < d := lt_of_lt_of_le (by norm_num) (not_lt.1 hd)
    have hprefactor := mul_pos (coulombConstant_pos hε) elementaryCharge_pos
    exact mul_nonneg (div_nonneg hprefactor.le (by positivity)) (Real.exp_pos _).le

/-- **A bound on unit potentials.** Screening only lowers a unit potential, and so does a greater
distance. -/
theorem screenedPotential_le {d d' epsilonR lambdaTF bound : ℝ} (hε : 0 < epsilonR)
    (hlambda : 0 < lambdaTF) (hd' : 0 < d') (h : d' ≤ d)
    (hbound : elementaryCharge ≤ bound * (4 * 3 * 8.854e-12 * epsilonR * (d' * 1e-9))) :
    screenedPotential d epsilonR lambdaTF ≤ bound := by
  have hbound' : 0 < bound := by
    refine pos_of_mul_pos_left (elementaryCharge_pos.trans_le hbound) ?_
    positivity
  have hd : 0 < d := hd'.trans_le h
  have hunscreened : coulombConstant epsilonR * elementaryCharge / (d * 1e-9) ≤ bound := by
    refine coulombConstant_mul_div_le hε hd hbound'.le Real.pi_gt_three.le (hbound.trans ?_)
    gcongr
  have hexp : Real.exp (-d / lambdaTF) ≤ 1 := by
    rw [Real.exp_le_one_iff, neg_div, neg_nonpos]
    positivity
  unfold screenedPotential
  split
  · exact hbound'.le
  · calc coulombConstant epsilonR * elementaryCharge / (d * 1e-9) * Real.exp (-d / lambdaTF)
        ≤ bound * 1 := mul_le_mul hunscreened hexp (Real.exp_pos _).le hbound'.le
      _ = bound := mul_one bound

/-- **A lower bound on unit potentials**, from one without screening. -/
theorem le_screenedPotential {d epsilonR lambdaTF bound : ℝ} (hε : 0 < epsilonR)
    (hd : 1e-9 ≤ d) (hbound : 0 ≤ bound)
    (h : bound * (4 * 3.15 * 8.854e-12 * epsilonR * (d * 1e-9)) ≤ elementaryCharge) :
    bound * (1 - d / lambdaTF) ≤ screenedPotential d epsilonR lambdaTF := by
  have hd' : 0 < d := lt_of_lt_of_le (by norm_num) hd
  have hunscreened : bound ≤ coulombConstant epsilonR * elementaryCharge / (d * 1e-9) :=
    le_coulombConstant_mul_div hε hd' hbound Real.pi_lt_d2.le h
  have hscreening : 1 - d / lambdaTF ≤ Real.exp (-d / lambdaTF) := by
    rw [neg_div]
    exact Real.one_sub_le_exp_neg _
  rw [screenedPotential, if_neg hd.not_gt]
  calc bound * (1 - d / lambdaTF)
      ≤ bound * Real.exp (-d / lambdaTF) := mul_le_mul_of_nonneg_left hscreening hbound
    _ ≤ _ := mul_le_mul_of_nonneg_right hunscreened (Real.exp_pos _).le

/-- Two sites are as far from each other either way. -/
theorem Lattice.distance_comm (l : Lattice) (a b : Site) :
    (l.distance a b : ℝ) = l.distance b a := by
  have hsq : squaredDistance (l.position a) (l.position b)
      = (squaredDistance (l.position b) (l.position a) : ℝ) := by
    simp only [squaredDistance]
    ring
  rw [distance, distance, hsq]

/-- The distance of two sites in a row is that of their columns. -/
theorem distance_row (x x' : ℤ) :
    (Lattice.si100.distance ⟨x, 0, 0⟩ ⟨x', 0, 0⟩ : ℝ) = |((x' - x : ℤ) : ℝ)| * 0.384 := by
  have hsq : Lattice.squaredDistance (Lattice.si100.position ⟨x, 0, 0⟩)
      (Lattice.si100.position ⟨x', 0, 0⟩) = (((x' - x : ℤ) : ℝ) * 0.384) ^ 2 := by
    show ((x : ℝ) * 0.384 + ((0 : ℤ) : ℝ) * 0 - ((x' : ℝ) * 0.384 + ((0 : ℤ) : ℝ) * 0)) *
        (x * 0.384 + ((0 : ℤ) : ℝ) * 0 - ((x' : ℝ) * 0.384 + ((0 : ℤ) : ℝ) * 0)) +
      (((0 : ℤ) : ℝ) * 0.768 + ((0 : ℤ) : ℝ) * 0.225
          - (((0 : ℤ) : ℝ) * 0.768 + ((0 : ℤ) : ℝ) * 0.225)) *
        (((0 : ℤ) : ℝ) * 0.768 + ((0 : ℤ) : ℝ) * 0.225
          - (((0 : ℤ) : ℝ) * 0.768 + ((0 : ℤ) : ℝ) * 0.225))
        = (((x' - x : ℤ) : ℝ) * 0.384) ^ 2
    push_cast
    ring
  rw [Lattice.distance, hsq]
  show Real.sqrt _ = _
  rw [Real.sqrt_sq_eq_abs, abs_mul]
  congr 1
  norm_num

/-- Sites two columns apart form a pair. -/
theorem distance_two_columns (x : ℤ) :
    (Lattice.si100.distance ⟨x, 0, 0⟩ ⟨x + 2, 0, 0⟩ : ℝ) = 0.768 := by
  rw [distance_row, add_sub_cancel_left]
  norm_num

/-- Two columns apart, a unit charge is felt with at most 0.36 V under the preset parameters. -/
theorem screenedPotential_two_columns_le : screenedPotential (0.768 : ℝ) 5.6 5.0 ≤ 0.36 := by
  refine screenedPotential_le (by norm_num) (by norm_num) (by norm_num) le_rfl ?_
  show (1.602e-19 : ℝ) ≤ 0.36 * (4 * 3 * 8.854e-12 * 5.6 * (0.768 * 1e-9))
  norm_num

/-- At most two columns away, it is felt with at least 0.21 V. -/
theorem le_screenedPotential_two_columns {d : ℝ} (hd : 1e-9 ≤ d) (hd' : d ≤ 0.768) :
    0.21 ≤ screenedPotential d 5.6 5.0 := by
  have hscreened : (0.26 : ℝ) * (1 - d / 5.0) ≤ screenedPotential d 5.6 5.0 := by
    refine le_screenedPotential (by norm_num) hd (by norm_num) ?_
    show 0.26 * (4 * 3.15 * 8.854e-12 * 5.6 * (d * 1e-9)) ≤ (1.602e-19 : ℝ)
    linarith
  refine le_trans ?_ hscreened
  linarith

namespace Environment

/-- The unit potential between two cells of a layout. -/
theorem between_ofLayout (l : Layout ℝ) (p : Parameters ℝ) (i j : Fin l.size) :
    (ofLayout l p).between i j = if i = j then 0 else
      screenedPotential
        (l.lattice.distance ((ofLayout l p).sites.get i) ((ofLayout l p).sites.get j))
        p.epsilonR p.lambdaTF := by
  simp only [between, ofLayout, get_ofFn]

/-- What defects and applied potentials put on a cell of a layout. -/
theorem external_ofLayout (l : Layout ℝ) (p : Parameters ℝ) (i : Fin l.size) :
    (ofLayout l p).external.get i = l.defectPotential ((ofLayout l p).sites.get i)
      + l.localPotential ((ofLayout l p).sites.get i) + l.globalPotential := by
  rw [Vector.get_eq_getElem, Vector.get_eq_getElem]
  exact Vector.getElem_map _ i.isLt

/-- The cells of a layout act on each other alike, and none acts on itself. -/
theorem ofLayout_isReciprocal (l : Layout ℝ) (p : Parameters ℝ) : (ofLayout l p).IsReciprocal where
  between_comm i j := by
    rw [between_ofLayout, between_ofLayout, Lattice.distance_comm]
    simp only [eq_comm]
  between_self i := by
    rw [between_ofLayout, if_pos rfl]

/-- Under accepted parameters cells repel each other. -/
theorem ofLayout_between_nonneg (l : Layout ℝ) {p : Parameters ℝ} (hp : p.check = .ok ())
    (i j : Fin l.size) : 0 ≤ (ofLayout l p).between i j := by
  rw [between_ofLayout]
  split
  · exact le_rfl
  · exact screenedPotential_nonneg (Parameters.check_eq_ok_iff.1 hp).2.1 _ _

end Environment

end DanglingBonds
