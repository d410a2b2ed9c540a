/-
# Threshold distances

The potential of a unit charge falls with the distance. So the first distance on a grid at which it
is down to a target is a threshold: it stays down at every greater distance, and was above at every
smaller one on the grid. The search compares potentials that are cut off where sites coincide,
though. With up to nine decimals no distance of the grid is that short. With more the first one is,
and the search ends there whatever the target is.

* `unitPotential`, `unitPotential_strictAntiOn` : the closed form, without the cut-off.
* `exists_of_firstDistance_eq_some`, `firstDistance_eq_none_iff` : the search.
* `distanceForPotential_eq_firstDistance` : the grid of the search.
* `IsThreshold`, `IsThreshold.eq` : the threshold of a grid.
* `distanceForPotential_isThreshold_iff` : which results are thresholds.
* `distanceForPotential_cutOff` : a result that is none.
-/
import Mathlib
import DanglingBonds.Potential
import DanglingBonds.Proofs.Electrostatics

namespace DanglingBonds

/-! ## The search -/

section Search

variable {α : Type} [Scalar α] {target epsilonR lambdaTF step d : α} {k count : ℕ}

/-- **The distance found** is the first one at which the potential is down to the target. -/
theorem exists_of_firstDistance_eq_some
    (h : firstDistance target epsilonR lambdaTF step k count = some d) :
    ∃ m, k ≤ m ∧ d = Scalar.ofNat m * step ∧ screenedPotential d epsilonR lambdaTF ≤ target ∧
      ∀ i, k ≤ i → i < m →
        ¬ screenedPotential (Scalar.ofNat i * step) epsilonR lambdaTF ≤ target := by
  induction count generalizing k with
  | zero => cases h
  | succ count ih =>
    simp only [firstDistance] at h
    split at h
    · rename_i hdown
      obtain rfl := Option.some.inj h
      exact ⟨k, le_rfl, rfl, hdown, fun i hk hi => absurd hi (not_lt.2 hk)⟩
    · rename_i habove
      obtain ⟨m, hm, hd, hdown, hbefore⟩ := ih h
      refine ⟨m, (Nat.le_succ k).trans hm, hd, hdown, fun i hk hi => ?_⟩
      rcases eq_or_lt_of_le hk with rfl | hlt
      · exact habove
      · exact hbefore i hlt hi

/-- No distance is found if the potential is above the target at all of them. -/
theorem firstDistance_eq_none_iff :
    firstDistance target epsilonR lambdaTF step k count = none ↔ ∀ i, k ≤ i → i < k + count →
      ¬ screenedPotential (Scalar.ofNat i * step) epsilonR lambdaTF ≤ target := by
  induction count generalizing k with
  | zero => exact iff_of_true rfl fun i hk hi => absurd hi (not_lt.2 hk)
  | succ count ih =>
    simp only [firstDistance]
    split
    · rename_i hdown
      exact iff_of_false (by simp) fun h => h k le_rfl (by omega) hdown
    · rename_i habove
      rw [ih]
      refine ⟨fun h i hk hi => ?_, fun h i hk hi => h i (by omega) (by omega)⟩
      rcases eq_or_lt_of_le hk with rfl | hlt
      · exact habove
      · exact h i hlt (by omega)

end Search

/-! ## The unit potential -/

variable {target epsilonR lambdaTF : ℝ}

/-- The potential of a unit charge at a distance in nanometres, however short. -/
noncomputable def unitPotential (epsilonR lambdaTF x : ℝ) : ℝ :=
  coulombConstant epsilonR * elementaryCharge / (x * 1e-9) * Real.exp (-x / lambdaTF)

/-- The potential between two sites is the unit potential, unless they coincide. -/
theorem screenedPotential_eq (x : ℝ) : screenedPotential x epsilonR lambdaTF =
    if x < 1e-9 then 0 else unitPotential epsilonR lambdaTF x := rfl

/-- **The unit potential falls** with the distance. -/
theorem unitPotential_strictAntiOn (hε : 0 < epsilonR) (hlambda : 0 < lambdaTF) :
    StrictAntiOn (unitPotential epsilonR lambdaTF) (Set.Ioi 0) := by
  intro x hx y hy hxy
  have hx : 0 < x := hx
  have hconstant := mul_pos (coulombConstant_pos hε) elementaryCharge_pos
  have hunscreened : coulombConstant epsilonR * elementaryCharge / (y * 1e-9)
      < coulombConstant epsilonR * elementaryCharge / (x * 1e-9) := by
    refine div_lt_div_of_pos_left hconstant (by positivity) ?_
    exact mul_lt_mul_of_pos_right hxy (by norm_num)
  have hscreening : Real.exp (-y / lambdaTF) < Real.exp (-x / lambdaTF) :=
    Real.exp_lt_exp.2 (div_lt_div_of_pos_right (neg_lt_neg hxy) hlambda)
  have hy : 0 < y := hy
  exact mul_lt_mul'' hunscreened hscreening (by positivity) (Real.exp_pos _).le

/-! ## The grid -/

/-- A number of places in the signed range keeps its sign. -/
theorem gridExponent_eq {places : ℕ} (h : places < 2 ^ 31) :
    gridExponent places = -(places : ℤ) := by
  have hself : ∀ x : ℤ, -2 ^ 31 < x → x < 2 ^ 31 → x.bmod (Nat.pow 2 32) = x := by
    intro x hlow hhigh
    refine Int.bmod_eq_of_le ?_ ?_
    · rw [Nat.pow_eq]
      norm_num
      omega
    · rw [Nat.pow_eq]
      norm_num
      omega
  unfold gridExponent Scalar.signedPlaces
  rw [hself places (by omega) (by omega)]
  exact hself _ (by omega) (by omega)

/-- The step of the grid. -/
theorem powInt_gridExponent {places : ℕ} (h : places < 2 ^ 31) :
    (Scalar.powInt 10.0 (gridExponent places) : ℝ) = (10 ^ places)⁻¹ := by
  have hten : (10.0 : ℝ) = 10 := by norm_num
  rw [gridExponent_eq h, Scalar.powInt, powNat_eq_pow, Int.natAbs_neg, Int.natAbs_natCast, hten]
  split
  · exact one_div _
  · rename_i hzero
    obtain rfl : places = 0 := by omega
    simp

/-- A count is truncated to 64 bits. -/
theorem toNat_ceil_natCast (k : ℕ) :
    Scalar.toNat (Scalar.ceil (k : ℝ)) = min k (2 ^ 64 - 1) := by
  show min ⌊((⌈(k : ℝ)⌉ : ℤ) : ℝ)⌋₊ (2 ^ 64 - 1) = min k (2 ^ 64 - 1)
  rw [Int.ceil_natCast, Int.cast_natCast, Nat.floor_natCast]

/-- **The grid of the search** goes in steps of the last decimal up to 1000 nanometres. -/
theorem distanceForPotential_eq_firstDistance (htarget : 0 < target) {places : ℕ}
    (h : places < 2 ^ 31) :
    distanceForPotential target epsilonR lambdaTF places
      = firstDistance target epsilonR lambdaTF (10 ^ places)⁻¹ 1
          (min (1000 * 10 ^ places) (2 ^ 64 - 1)) := by
  have hratio : (1000.0 : ℝ) / (10 ^ places)⁻¹ = (1000 * 10 ^ places : ℕ) := by
    rw [div_inv_eq_mul]
    norm_num
  rw [distanceForPotential, if_pos htarget]
  dsimp only
  rw [powInt_gridExponent h, hratio, toNat_ceil_natCast]

/-- With up to nine decimals the grid is counted through. -/
theorem min_gridCount {places : ℕ} (h : places ≤ 9) :
    min (1000 * 10 ^ places) (2 ^ 64 - 1) = 1000 * 10 ^ places := by
  refine min_eq_left ?_
  calc 1000 * 10 ^ places ≤ 1000 * 10 ^ 9 := by gcongr; norm_num
    _ ≤ 2 ^ 64 - 1 := by norm_num

/-- Then no distance of the grid is cut off. -/
theorem screenedPotential_mul {places : ℕ} (h : places ≤ 9) {m : ℕ} (hm : 1 ≤ m) :
    screenedPotential ((m : ℝ) * (10 ^ places)⁻¹) epsilonR lambdaTF
      = unitPotential epsilonR lambdaTF (m * (10 ^ places)⁻¹) := by
  have hstep : (1e-9 : ℝ) ≤ (10 ^ places)⁻¹ := by
    calc (1e-9 : ℝ) = (10 ^ 9)⁻¹ := by norm_num
      _ ≤ (10 ^ places)⁻¹ := by gcongr; norm_num
  have hone : (1 : ℝ) ≤ m := Nat.one_le_cast.2 hm
  have hd : (1e-9 : ℝ) ≤ m * (10 ^ places)⁻¹ :=
    hstep.trans (le_mul_of_one_le_left (by positivity) hone)
  rw [screenedPotential_eq, if_neg (not_lt.2 hd)]

/-! ## Thresholds -/

/-- A distance of a grid such that the unit potential is down to a target at every distance from
there on, and above it at every shorter distance of the grid. -/
structure IsThreshold (target epsilonR lambdaTF step d : ℝ) : Prop where
  exists_eq_mul : ∃ m : ℕ, 1 ≤ m ∧ d = m * step
  le_of_le : ∀ x, d ≤ x → unitPotential epsilonR lambdaTF x ≤ target
  lt_of_lt : ∀ m : ℕ, 1 ≤ m → m * step < d → target < unitPotential epsilonR lambdaTF (m * step)

/-- A grid has one threshold at most. -/
theorem IsThreshold.eq {step d d' : ℝ} (h : IsThreshold target epsilonR lambdaTF step d)
    (h' : IsThreshold target epsilonR lambdaTF step d') : d = d' := by
  have hle : ∀ {a b : ℝ}, IsThreshold target epsilonR lambdaTF step a →
      IsThreshold target epsilonR lambdaTF step b → a ≤ b := by
    intro a b ha hb
    obtain ⟨m, hm, rfl⟩ := hb.exists_eq_mul
    by_contra hlt
    exact absurd (hb.le_of_le _ le_rfl) (not_le.2 (ha.lt_of_lt m hm (not_le.1 hlt)))
  exact le_antisymm (hle h h') (hle h' h)

section Results

variable (hε : 0 < epsilonR) (hlambda : 0 < lambdaTF)

include hε hlambda

/-- From a distance on at which the unit potential is down to a target, it stays down. -/
theorem unitPotential_le_of_le {d x : ℝ} (hd : 0 < d)
    (hdown : unitPotential epsilonR lambdaTF d ≤ target) (hx : d ≤ x) :
    unitPotential epsilonR lambdaTF x ≤ target :=
  ((unitPotential_strictAntiOn hε hlambda).antitoneOn hd (hd.trans_le hx) hx).trans hdown

/-- The first distance of a grid is a threshold if the potential is down there. -/
theorem isThreshold_step_iff {step : ℝ} (hstep : 0 < step) :
    IsThreshold target epsilonR lambdaTF step step
      ↔ unitPotential epsilonR lambdaTF step ≤ target := by
  refine ⟨fun h => h.le_of_le step le_rfl, fun hdown => ?_⟩
  refine ⟨⟨1, le_rfl, by rw [Nat.cast_one, one_mul]⟩,
    fun x hx => unitPotential_le_of_le hε hlambda hstep hdown hx, fun m hm hlt => ?_⟩
  have hone : (1 : ℝ) ≤ m := Nat.one_le_cast.2 hm
  exact absurd hlt (not_lt.2 (le_mul_of_one_le_left hstep.le hone))

variable (htarget : 0 < target) {places : ℕ}

include htarget

/-- **Up to nine decimals** a distance that is found is a threshold. -/
theorem isThreshold_of_le_nine (h : places ≤ 9) {d : ℝ}
    (hd : distanceForPotential target epsilonR lambdaTF places = some d) :
    IsThreshold target epsilonR lambdaTF (10 ^ places)⁻¹ d := by
  rw [distanceForPotential_eq_firstDistance htarget (h.trans_lt (by norm_num))] at hd
  obtain ⟨m, hm, rfl, hdown, hbefore⟩ := exists_of_firstDistance_eq_some hd
  rw [ofNat_eq_natCast, screenedPotential_mul h hm] at hdown
  have hone : (1 : ℝ) ≤ m := Nat.one_le_cast.2 hm
  have hstep : (0 : ℝ) < (10 ^ places)⁻¹ := by positivity
  refine ⟨⟨m, hm, rfl⟩, fun x hx => unitPotential_le_of_le hε hlambda (by positivity) hdown hx,
    fun i hi hlt => ?_⟩
  have hbelow : i < m := Nat.cast_lt.1 (lt_of_mul_lt_mul_right hlt hstep.le)
  have habove := hbefore i hi hbelow
  rw [ofNat_eq_natCast, screenedPotential_mul h hi] at habove
  exact not_le.1 habove

/-- Then no distance is found exactly if the potential is above the target at 1000 nanometres. -/
theorem distanceForPotential_eq_none_iff (h : places ≤ 9) :
    distanceForPotential target epsilonR lambdaTF places = none
      ↔ target < unitPotential epsilonR lambdaTF 1000 := by
  rw [distanceForPotential_eq_firstDistance htarget (h.trans_lt (by norm_num)), min_gridCount h,
    firstDistance_eq_none_iff]
  have hlast : ((1000 * 10 ^ places : ℕ) : ℝ) * (10 ^ places)⁻¹ = 1000 := by
    rw [Nat.cast_mul, Nat.cast_pow, mul_assoc]
    norm_num
  constructor
  · intro hall
    have hcount : 1 ≤ 1000 * 10 ^ places := Nat.mul_pos (by norm_num) (by positivity)
    have habove := hall _ hcount (by omega)
    rw [ofNat_eq_natCast, screenedPotential_mul h hcount, hlast] at habove
    exact not_le.1 habove
  · intro hfar i hi hle
    rw [ofNat_eq_natCast, screenedPotential_mul h hi]
    intro hdown
    have hone : (1 : ℝ) ≤ i := Nat.one_le_cast.2 hi
    refine absurd (unitPotential_le_of_le hε hlambda (by positivity) hdown ?_) (not_le.2 hfar)
    rw [← hlast]
    gcongr
    omega

end Results

/-- **With ten decimals and more** the first distance of the grid is found, because sites that close
count as coincident. -/
theorem distanceForPotential_of_ten_le (htarget : 0 < target) {places : ℕ}
    (hplaces : places < 2 ^ 31) (h : 10 ≤ places) :
    distanceForPotential target epsilonR lambdaTF places = some (10 ^ places)⁻¹ := by
  rw [distanceForPotential_eq_firstDistance htarget hplaces]
  -- however many distances there are, the first one ends the search: its potential is cut off
  obtain ⟨count, hcount⟩ : ∃ count, min (1000 * 10 ^ places) (2 ^ 64 - 1) = count + 1 := by
    refine Nat.exists_eq_add_one.2 (lt_min ?_ (by norm_num))
    positivity
  have hstep : ((10 : ℝ) ^ places)⁻¹ < 1e-9 := by
    calc ((10 : ℝ) ^ places)⁻¹ ≤ (10 ^ 10)⁻¹ := by gcongr; norm_num
      _ < 1e-9 := by norm_num
  have hfirst : Scalar.ofNat 1 * ((10 : ℝ) ^ places)⁻¹ = (10 ^ places)⁻¹ := by
    rw [ofNat_eq_natCast, Nat.cast_one, one_mul]
  rw [hcount, firstDistance, hfirst, screenedPotential_eq, if_pos hstep, if_pos htarget.le]

/-- **Which distances are thresholds.** For a positive target, permittivity and screening length and
places in the signed range, the distance that is found is a threshold exactly if there are up to
nine places, or if the potential is down to the target at the first distance of the grid already.
Up to nine places no distance is found exactly if the potential is above the target at 1000
nanometres. With more it is always the first one of the grid. -/
theorem distanceForPotential_isThreshold_iff (htarget : 0 < target) (hε : 0 < epsilonR)
    (hlambda : 0 < lambdaTF) {places : ℕ} (hplaces : places < 2 ^ 31) :
    (∀ d, distanceForPotential target epsilonR lambdaTF places = some d →
      (IsThreshold target epsilonR lambdaTF (10 ^ places)⁻¹ d
        ↔ places ≤ 9 ∨ unitPotential epsilonR lambdaTF (10 ^ places)⁻¹ ≤ target)) ∧
    (places ≤ 9 → (distanceForPotential target epsilonR lambdaTF places = none
      ↔ target < unitPotential epsilonR lambdaTF 1000)) ∧
    (10 ≤ places →
      distanceForPotential target epsilonR lambdaTF places = some (10 ^ places)⁻¹) := by
  refine ⟨fun d hd => ?_, distanceForPotential_eq_none_iff hε hlambda htarget,
    distanceForPotential_of_ten_le htarget hplaces⟩
  rcases Nat.lt_or_ge 9 places with h | h
  · rw [distanceForPotential_of_ten_le htarget hplaces h] at hd
    obtain rfl := Option.some.inj hd
    rw [isThreshold_step_iff hε hlambda (by positivity), or_iff_right (not_le.2 h)]
  · exact iff_of_true (isThreshold_of_le_nine hε hlambda htarget h hd) (.inl h)

/-! ## The preset surroundings -/

/-- At 0.77 nanometres the potential is down to 0.29 volts. -/
theorem unitPotential_seventySeven_le : unitPotential 5.6 5.0 0.77 ≤ 0.29 := by
  have hunscreened : coulombConstant 5.6 * elementaryCharge / (0.77 * 1e-9) ≤ (0.3341 : ℝ) := by
    refine coulombConstant_mul_div_le (by norm_num) (by norm_num) (by norm_num)
      Real.pi_gt_d2.le ?_
    show (1.602e-19 : ℝ) ≤ 0.3341 * (4 * 3.14 * 8.854e-12 * 5.6 * (0.77 * 1e-9))
    norm_num
  have hscreening : Real.exp (-0.77 / 5.0) ≤ (0.8666 : ℝ) := by
    have hexp := Real.add_one_le_exp (0.77 / 5.0 : ℝ)
    rw [neg_div, Real.exp_neg]
    exact inv_le_of_inv_le₀ (by norm_num) (le_trans (by norm_num) hexp)
  calc unitPotential 5.6 5.0 0.77 ≤ 0.3341 * 0.8666 :=
        mul_le_mul hunscreened hscreening (Real.exp_pos _).le (by norm_num)
    _ ≤ 0.29 := by norm_num

/-- At 0.76 nanometres it is above. -/
theorem lt_unitPotential_seventySix : 0.29 < unitPotential 5.6 5.0 0.76 := by
  have hunscreened : (0.3382 : ℝ) ≤ coulombConstant 5.6 * elementaryCharge / (0.76 * 1e-9) := by
    refine le_coulombConstant_mul_div (by norm_num) (by norm_num) (by norm_num)
      Real.pi_lt_d4.le ?_
    show 0.3382 * (4 * 3.1416 * 8.854e-12 * 5.6 * (0.76 * 1e-9)) ≤ (1.602e-19 : ℝ)
    norm_num
  have hscreening : (0.8576 : ℝ) ≤ Real.exp (-0.76 / 5.0) := by
    -- the square of the bound that `1 + x ≤ exp x` gives is too weak, its eighth power is not
    have hexp := Real.one_sub_div_pow_le_exp_neg (n := 8) (t := 0.152) (by norm_num)
    have harg : (-0.76 / 5.0 : ℝ) = -0.152 := by norm_num
    rw [harg]
    exact le_trans (by norm_num) hexp
  calc (0.29 : ℝ) < 0.3382 * 0.8576 := by norm_num
    _ ≤ unitPotential 5.6 5.0 0.76 :=
      mul_le_mul hunscreened hscreening (by norm_num) (le_trans (by norm_num) hunscreened)

/-- With two decimals the threshold of 0.29 volts is 0.77 nanometres. -/
theorem distanceForPotential_twoPlaces :
    distanceForPotential (0.29 : ℝ) 5.6 5.0 2 = some 0.77 ∧
      IsThreshold 0.29 5.6 5.0 (10 ^ 2)⁻¹ 0.77 := by
  have hε : (0 : ℝ) < 5.6 := by norm_num
  have hlambda : (0 : ℝ) < 5.0 := by norm_num
  have hdown : ∀ x, 0.77 ≤ x → unitPotential 5.6 5.0 x ≤ 0.29 := fun x hx =>
    unitPotential_le_of_le hε hlambda (by norm_num) unitPotential_seventySeven_le hx
  have hthreshold : IsThreshold 0.29 5.6 5.0 (10 ^ 2)⁻¹ 0.77 := by
    refine ⟨⟨77, by norm_num, by norm_num⟩, hdown, fun m hm hlt => ?_⟩
    have hcast : (m : ℝ) ≤ 76 := by
      refine Nat.cast_le_ofNat.2 (Nat.le_of_lt_succ (Nat.cast_lt_ofNat.1 (?_ : (m : ℝ) < 77)))
      linarith
    have hpos : (0 : ℝ) < m := Nat.cast_pos.2 hm
    refine lt_unitPotential_seventySix.trans_le ((unitPotential_strictAntiOn hε hlambda).antitoneOn
      (?_ : (0 : ℝ) < m * (10 ^ 2)⁻¹) (by norm_num) (by linarith))
    positivity
  obtain ⟨hiff, hnone, -⟩ := distanceForPotential_isThreshold_iff
    (by norm_num : (0 : ℝ) < 0.29) hε hlambda (by norm_num : 2 < 2 ^ 31)
  cases hcase : distanceForPotential (0.29 : ℝ) 5.6 5.0 2 with
  | none =>
    have hfar := (hnone (by norm_num)).1 hcase
    exact absurd (hdown 1000 (by norm_num)) (not_le.2 hfar)
  | some d =>
    have hd := (hiff d hcase).2 (.inl (by norm_num))
    exact ⟨congrArg some (hd.eq hthreshold), hthreshold⟩

/-- With ten decimals the distance that is found for 0.29 volts is a ten billionth of a nanometre,
where the unit potential is above. -/
theorem distanceForPotential_cutOff :
    distanceForPotential (0.29 : ℝ) 5.6 5.0 10 = some (10 ^ 10)⁻¹ ∧
      0.29 < unitPotential 5.6 5.0 (10 ^ 10)⁻¹ ∧
      ¬ IsThreshold 0.29 5.6 5.0 (10 ^ 10)⁻¹ (10 ^ 10)⁻¹ := by
  have habove : 0.29 < unitPotential 5.6 5.0 (10 ^ 10)⁻¹ :=
    lt_unitPotential_seventySix.trans (unitPotential_strictAntiOn (by norm_num) (by norm_num)
      (by norm_num) (by norm_num) (by norm_num))
  exact ⟨distanceForPotential_of_ten_le (by norm_num) (by norm_num) le_rfl, habove,
    fun h => absurd (h.le_of_le _ le_rfl) (not_le.2 habove)⟩

end DanglingBonds
