/-
# The values of a sweep axis

An axis takes as many steps as fit between its bounds; a multiple of the step that passes the
maximum by less than the tolerance fits as well, and its value is then the maximum itself. So the
values rise from the minimum in equal steps, the last of which may be shorter by less than the
tolerance, and no multiple of the step between the bounds is left out.

* `SweepAxis.check_eq_ok_iff` : the axes that are accepted.
* `SweepAxis.exists_steps_eq` : the number of steps.
* `SweepAxis.strictMonoOn_value` : all values are different.
* `SweepAxis.values_formGrid` : the values of an accepted axis.
-/
import Mathlib
import DanglingBonds.Domain.Exploration
import DanglingBonds.Proofs.ExactScalar

namespace DanglingBonds

namespace SweepAxis

variable {a : SweepAxis ℝ}

/-! ## Accepted axes -/

/-- An axis is accepted if it has a positive step and its bounds are in order. -/
theorem check_eq_ok_iff : a.check = .ok () ↔ 0 < a.step ∧ a.min ≤ a.max := by
  have hfinite : (!(Scalar.isFinite a.min && Scalar.isFinite a.max && Scalar.isFinite a.step))
      = false := rfl
  rw [check, fault?, hfinite, if_neg Bool.false_ne_true]
  by_cases hstep : 0 < a.step
  · rw [if_neg (not_not.2 hstep)]
    by_cases hbounds : a.max < a.min
    · rw [if_pos hbounds]
      exact iff_of_false (fun h => by cases h) fun h => h.2.not_gt hbounds
    · rw [if_neg hbounds]
      exact iff_of_true rfl ⟨hstep, not_lt.1 hbounds⟩
  · rw [if_pos hstep]
    exact iff_of_false (fun h => by cases h) fun h => hstep h.1

/-! ## The number of steps -/

/-- The length of an axis, in steps. -/
noncomputable def extent (a : SweepAxis ℝ) : ℝ :=
  (a.max - a.min) / a.step

/-- The number of steps before it is limited to 64 bits. -/
noncomputable def wholeSteps (a : SweepAxis ℝ) : ℝ :=
  if |a.extent - Scalar.round a.extent| < 1e-6 then Scalar.round a.extent
  else Scalar.floor a.extent

theorem steps_eq (a : SweepAxis ℝ) : a.steps = ⌊a.wholeSteps⌋₊ ⊓ (2 ^ 64 - 1) := rfl

/-- An extent is counted as the whole number that it passes once it is lengthened by the tolerance.
-/
theorem exists_wholeSteps_eq (h : 0 ≤ a.extent) :
    ∃ k : ℕ, a.wholeSteps = k ∧ k < a.extent + 1e-6 ∧ a.extent + 1e-6 ≤ k + 1 := by
  rw [wholeSteps]
  split_ifs with hnear
  · obtain ⟨z, hz⟩ := exists_round_eq a.extent
    rw [hz] at hnear ⊢
    have hbounds := abs_lt.1 hnear
    have hnonneg : 0 ≤ z := by
      have hlt : (-1 : ℝ) < z := by linarith [hbounds.2]
      have hlt' : -1 < z := by exact_mod_cast hlt
      omega
    lift z to ℕ using hnonneg
    refine ⟨z, rfl, ?_, ?_⟩
    · rw [Int.cast_natCast] at hbounds
      linarith [hbounds.1]
    · rw [Int.cast_natCast] at hbounds
      linarith [hbounds.2]
  · have hfloor : (Scalar.floor a.extent : ℝ) = ⌊a.extent⌋₊ := by
      show ((⌊a.extent⌋ : ℤ) : ℝ) = _
      exact (natCast_floor_eq_intCast_floor h).symm
    have hle := Nat.floor_le h
    refine ⟨⌊a.extent⌋₊, hfloor, by linarith, ?_⟩
    by_contra hlt
    have hgt := Nat.lt_floor_add_one a.extent
    -- the next whole number would be the nearest one, and within the tolerance
    have hnext : |a.extent - ((⌊a.extent⌋₊ + 1 : ℕ) : ℝ)| < 1e-6 := by
      rw [abs_lt, Nat.cast_add_one]
      constructor <;> linarith
    rw [round_eq_natCast (hnext.trans (by norm_num))] at hnear
    exact hnear hnext

/-- The number of steps of an axis whose extent is known. -/
theorem steps_eq_of_extent {k : ℕ} (hk : k ≤ 2 ^ 64 - 1) (h : 0 ≤ a.extent)
    (hlt : k < a.extent + 1e-6) (hle : a.extent + 1e-6 ≤ k + 1) : a.steps = k := by
  obtain ⟨k', hk', hlt', hle'⟩ := exists_wholeSteps_eq h
  have heq : k' = k := by
    have hbelow : (k' : ℝ) < k + 1 := hlt'.trans_le hle
    have habove : (k : ℝ) < k' + 1 := hlt.trans_le hle'
    have hbelow' : k' < k + 1 := by exact_mod_cast hbelow
    have habove' : k < k' + 1 := by exact_mod_cast habove
    omega
  rw [steps_eq, hk', Nat.floor_natCast, heq, inf_eq_left.2 hk]

/-- An axis has one point more than steps, as long as the points can be counted in 64 bits. -/
theorem points_eq_of_extent {k : ℕ} (hk : k < 2 ^ 64 - 1) (h : 0 ≤ a.extent)
    (hlt : k < a.extent + 1e-6) (hle : a.extent + 1e-6 ≤ k + 1) : a.points = k + 1 := by
  rw [points, steps_eq_of_extent hk.le h hlt hle]
  exact Nat.mod_eq_of_lt (Nat.add_lt_of_lt_sub hk)

/-- An axis whose maximum lies a number of steps above its minimum has one point more. -/
theorem points_of_aligned {k : ℕ} (hk : k < 2 ^ 64 - 1) (h : a.extent = k) :
    a.points = k + 1 := by
  apply points_eq_of_extent hk
  all_goals norm_num [h]

/-- **The number of steps** of an accepted axis: so many fit between the bounds if the maximum is
raised by the tolerance, and one more does not. -/
theorem exists_steps_eq (hcheck : a.check = .ok ()) :
    ∃ k : ℕ, a.steps = k ⊓ (2 ^ 64 - 1) ∧ a.min + k * a.step < a.max + 1e-6 * a.step ∧
      a.max + 1e-6 * a.step ≤ a.min + (k + 1) * a.step := by
  obtain ⟨hstep, hbounds⟩ := check_eq_ok_iff.1 hcheck
  have hextent : a.extent * a.step = a.max - a.min := div_mul_cancel₀ _ hstep.ne'
  obtain ⟨k, hk, hlt, hle⟩ := exists_wholeSteps_eq (div_nonneg (sub_nonneg.2 hbounds) hstep.le)
  refine ⟨k, ?_, ?_, ?_⟩
  · rw [steps_eq, hk, Nat.floor_natCast]
  · have hscaled := mul_lt_mul_of_pos_right hlt hstep
    linarith
  · have hscaled := mul_le_mul_of_nonneg_right hle hstep.le
    linarith

/-! ## The values -/

theorem value_eq_min (a : SweepAxis ℝ) (i : ℕ) :
    a.value i = (a.min + i * a.step) ⊓ a.max := by
  rw [value, least_eq_min, ofNat_eq_natCast]

theorem value_le_max (a : SweepAxis ℝ) (i : ℕ) : a.value i ≤ a.max := by
  rw [value_eq_min]
  exact inf_le_right

section Accepted

variable (hcheck : a.check = .ok ())

include hcheck

theorem min_le_value (i : ℕ) : a.min ≤ a.value i := by
  obtain ⟨hstep, hbounds⟩ := check_eq_ok_iff.1 hcheck
  rw [value_eq_min]
  exact le_inf (le_add_of_nonneg_right (by positivity)) hbounds

variable (hsteps : a.steps < 2 ^ 64 - 1)

include hsteps

/-- The last multiple of the step passes the maximum by less than the tolerance, if at all. -/
theorem min_add_steps_lt : a.min + a.steps * a.step < a.max + 1e-6 * a.step := by
  obtain ⟨k, hk, hlt, -⟩ := exists_steps_eq hcheck
  obtain rfl : a.steps = k := by omega
  exact hlt

/-- One step more leads beyond the maximum. -/
theorem max_lt_min_add : a.max < a.min + (a.steps + 1) * a.step := by
  have hstep := (check_eq_ok_iff.1 hcheck).1
  obtain ⟨k, hk, -, hle⟩ := exists_steps_eq hcheck
  obtain rfl : a.steps = k := by omega
  linarith

/-- Before the last value, values are multiples of the step, and the next multiple is short of the
maximum by nearly a step. -/
theorem value_of_lt {i : ℕ} (hi : i < a.steps) :
    a.value i = a.min + i * a.step ∧ a.min + i * a.step < a.max := by
  have hstep := (check_eq_ok_iff.1 hcheck).1
  have hnext : ((i : ℝ) + 1) * a.step ≤ a.steps * a.step :=
    mul_le_mul_of_nonneg_right (by exact_mod_cast hi) hstep.le
  have hlast := min_add_steps_lt hcheck hsteps
  have hlt : a.min + i * a.step < a.max := by linarith
  exact ⟨by rw [value_eq_min, inf_eq_left.2 hlt.le], hlt⟩

/-- **All values are different**: a later value is greater, also where it is the maximum. -/
theorem strictMonoOn_value : StrictMonoOn a.value (Set.Iic a.steps) := by
  intro i _ j hj hij
  have hstep := (check_eq_ok_iff.1 hcheck).1
  obtain ⟨hvalue, hlt⟩ := value_of_lt hcheck hsteps (hij.trans_le hj)
  have hij' : (i : ℝ) < j := by exact_mod_cast hij
  rw [hvalue, value_eq_min]
  exact lt_inf_iff.2 ⟨by gcongr, hlt⟩

/-- The last value lies below the last multiple of the step by less than the tolerance. -/
theorem abs_value_steps_sub_lt :
    |a.value a.steps - (a.min + a.steps * a.step)| < 1e-6 * a.step := by
  have hstep := (check_eq_ok_iff.1 hcheck).1
  have hlast := min_add_steps_lt hcheck hsteps
  rw [value_eq_min]
  rcases le_total (a.min + a.steps * a.step) a.max with hle | hle
  · rw [inf_eq_left.2 hle, sub_self, abs_zero]
    positivity
  · rw [inf_eq_right.2 hle, abs_sub_lt_iff]
    constructor <;> linarith

/-- A multiple of the step between the bounds is one of the values. -/
theorem value_of_le_max {k : ℕ} (hk : a.min + k * a.step ≤ a.max) :
    k ≤ a.steps ∧ a.value k = a.min + k * a.step := by
  have hstep := (check_eq_ok_iff.1 hcheck).1
  have hbeyond := max_lt_min_add hcheck hsteps
  have hlt : (k : ℝ) < a.steps + 1 := lt_of_mul_lt_mul_right (by linarith) hstep.le
  exact ⟨Nat.lt_succ_iff.1 (by exact_mod_cast hlt), by rw [value_eq_min, inf_eq_left.2 hk]⟩

end Accepted

/-- **The values of an accepted axis** form the grid of the multiples of its step. They rise
strictly and stay between the bounds; all but the last are multiples of the step, and the last is
one up to less than the tolerance. One more step leads beyond the maximum, and every multiple of the
step between the bounds is a value. -/
theorem values_formGrid (a : SweepAxis ℝ) (hcheck : a.check = .ok ())
    (hsteps : a.steps < 2 ^ 64 - 1) :
    StrictMonoOn a.value (Set.Iic a.steps) ∧
      (∀ i, a.min ≤ a.value i ∧ a.value i ≤ a.max) ∧
      (∀ i < a.steps, a.value i = a.min + i * a.step) ∧
      |a.value a.steps - (a.min + a.steps * a.step)| < 1e-6 * a.step ∧
      a.max < a.min + (a.steps + 1) * a.step ∧
      ∀ k : ℕ, a.min + k * a.step ≤ a.max → k ≤ a.steps ∧ a.value k = a.min + k * a.step :=
  ⟨strictMonoOn_value hcheck hsteps,
    fun i => ⟨min_le_value hcheck i, value_le_max a i⟩,
    fun _ hi => (value_of_lt hcheck hsteps hi).1,
    abs_value_steps_sub_lt hcheck hsteps,
    max_lt_min_add hcheck hsteps,
    fun _ hk => value_of_le_max hcheck hsteps hk⟩

/-- An axis of permittivities whose maximum is short of the third step by half the tolerance. -/
noncomputable def nearlyAligned : SweepAxis ℝ :=
  ⟨.epsilonR, 1.0, 3.9999995, 1⟩

/-- The nearly aligned axis has four values, the last of which is its maximum instead of the third
multiple of the step. -/
theorem values_formGrid_nearlyAligned :
    nearlyAligned.check = .ok () ∧ nearlyAligned.steps < 2 ^ 64 - 1 ∧ nearlyAligned.steps = 3 ∧
      nearlyAligned.value 2 = 3 ∧ nearlyAligned.value 2 < nearlyAligned.value 3 ∧
      nearlyAligned.value 3 = 3.9999995 ∧ |nearlyAligned.value 3 - 4| < 1e-6 := by
  have hmin : nearlyAligned.min = 1.0 := rfl
  have hmax : nearlyAligned.max = 3.9999995 := rfl
  have hstep : nearlyAligned.step = 1 := rfl
  have hcheck : nearlyAligned.check = .ok () := by
    rw [check_eq_ok_iff, hmin, hmax, hstep]
    norm_num
  have hthree : nearlyAligned.steps = 3 := by
    apply steps_eq_of_extent
    all_goals norm_num [extent, hmin, hmax, hstep]
  have hsteps : nearlyAligned.steps < 2 ^ 64 - 1 := by
    rw [hthree]
    norm_num
  obtain ⟨hmono, -, hvalue, hlast, -⟩ := values_formGrid nearlyAligned hcheck hsteps
  rw [hthree] at hmono hvalue hlast
  refine ⟨hcheck, hsteps, hthree, ?_, ?_, ?_, ?_⟩
  · rw [hvalue 2 (by norm_num), hmin, hstep]
    norm_num
  · exact hmono (by norm_num) (by norm_num) (by norm_num)
  · rw [value_eq_min, hmin, hmax, hstep]
    norm_num
  · rw [hmin, hstep] at hlast
    norm_num at hlast ⊢
    exact hlast

end SweepAxis

end DanglingBonds
