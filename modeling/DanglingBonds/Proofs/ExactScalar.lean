/-
# Exact arithmetic

Real numbers are scalars too: every operation without rounding, and every number finite. What the
program computes in exact arithmetic is what its definitions say at this type.

* `abs_round_sub_le`, `round_mono` : rounding to the nearest integer.
* `powNat_eq_pow` : repeated squaring gives the power.
* `foldl_add_eq_sum` : a running sum over all cells is a finite sum.
-/
import Mathlib
import DanglingBonds.Parameters

namespace DanglingBonds

/-- Real numbers as scalars. -/
noncomputable instance instScalarReal : Scalar ℝ where
  ofInt := Int.cast
  toNat x := min ⌊x⌋₊ (2 ^ 64 - 1)
  abs x := |x|
  exp := Real.exp
  sqrt := Real.sqrt
  round x := if 0 ≤ x then ⌊x + 0.5⌋ else ⌈x - 0.5⌉
  floor x := ⌊x⌋
  ceil x := ⌈x⌉
  pi := Real.pi
  isFinite _ := true

/-! ## Tolerance and transition levels -/

/-- The tolerance is positive. -/
theorem stabilityTolerance_pos : (0 : ℝ) < stabilityTolerance := by
  show (0 : ℝ) < 1e-6
  norm_num

/-- The transition levels are far apart, compared with the tolerance. -/
theorem two_mul_stabilityTolerance_lt_transitionGap :
    2 * stabilityTolerance < (transitionGap : ℝ) := by
  show 2 * (1e-6 : ℝ) < 0.59
  norm_num

/-- The upper transition level lies one gap below the lower one. -/
theorem Parameters.muPlus_eq (p : Parameters ℝ) : p.muPlus = p.muMinus - transitionGap := rfl

/-! ## Comparing and rounding -/

/-- Numbers always compare, so the lesser of two is their minimum. -/
theorem least_eq_min (a b : ℝ) : Scalar.least a b = min a b := by
  rw [Scalar.least]
  rcases le_total a b with h | h
  · rw [if_pos h, min_eq_left h]
  · by_cases hle : a ≤ b
    · rw [if_pos hle, min_eq_left hle]
    · rw [if_neg hle, if_pos h, min_eq_right h]

theorem exists_round_eq (x : ℝ) : ∃ z : ℤ, (Scalar.round x : ℝ) = z := by
  show ∃ z : ℤ, (if 0 ≤ x then ((⌊x + 0.5⌋ : ℤ) : ℝ) else ((⌈x - 0.5⌉ : ℤ) : ℝ)) = z
  split
  · exact ⟨_, rfl⟩
  · exact ⟨_, rfl⟩

/-- The nearest integer is half away at most. -/
theorem abs_round_sub_le (x : ℝ) : |Scalar.round x - x| ≤ 1 / 2 := by
  show |(if 0 ≤ x then ((⌊x + 0.5⌋ : ℤ) : ℝ) else ((⌈x - 0.5⌉ : ℤ) : ℝ)) - x| ≤ 1 / 2
  rw [abs_le]
  split
  · have hle := Int.floor_le (x + 0.5)
    have hlt := Int.lt_floor_add_one (x + 0.5)
    constructor <;> linarith
  · have hle := Int.le_ceil (x - 0.5)
    have hlt := Int.ceil_lt_add_one (x - 0.5)
    constructor <;> linarith

/-- A whole number less than half away is the nearest one. -/
theorem round_eq_natCast {x : ℝ} {k : ℕ} (h : |x - k| < 1 / 2) : (Scalar.round x : ℝ) = k := by
  obtain ⟨z, hz⟩ := exists_round_eq x
  have hround := abs_le.1 (abs_round_sub_le x)
  have hx := abs_lt.1 h
  rw [hz] at hround ⊢
  have hlt : (z : ℝ) < k + 1 := by linarith [hround.2, hx.2]
  have hgt : (k : ℝ) < z + 1 := by linarith [hround.1, hx.1]
  have heq : z = k := by
    have hlt' : z < k + 1 := by exact_mod_cast hlt
    have hgt' : (k : ℤ) < z + 1 := by exact_mod_cast hgt
    omega
  rw [heq, Int.cast_natCast]

/-- Greater numbers are not rounded to smaller ones. -/
theorem round_mono {x y : ℝ} (h : x ≤ y) : (Scalar.round x : ℝ) ≤ Scalar.round y := by
  show (if 0 ≤ x then ((⌊x + 0.5⌋ : ℤ) : ℝ) else ((⌈x - 0.5⌉ : ℤ) : ℝ))
    ≤ if 0 ≤ y then ((⌊y + 0.5⌋ : ℤ) : ℝ) else ((⌈y - 0.5⌉ : ℤ) : ℝ)
  by_cases hx : 0 ≤ x
  · rw [if_pos hx, if_pos (hx.trans h), Int.cast_le]
    exact Int.floor_le_floor (by linarith)
  · rw [if_neg hx]
    by_cases hy : 0 ≤ y
    · -- zero lies between the two
      rw [if_pos hy, Int.cast_le]
      have hneg : ⌈x - 0.5⌉ ≤ 0 := Int.ceil_le.2 (by push_cast; linarith)
      have hnonneg : 0 ≤ ⌊y + 0.5⌋ := Int.le_floor.2 (by push_cast; linarith)
      exact hneg.trans hnonneg
    · rw [if_neg hy, Int.cast_le]
      exact Int.ceil_le_ceil (by linarith)

/-! ## Numbers and powers -/

/-- A natural number is itself. -/
theorem ofNat_eq_natCast (k : ℕ) : (Scalar.ofNat k : ℝ) = k := Int.cast_natCast k

/-- Repeated squaring computes a power. -/
theorem powNat_go_eq (x : ℝ) (n : ℕ) (acc : ℝ) : Scalar.powNat.go x n acc = acc * x ^ n := by
  induction n using Nat.strong_induction_on generalizing x acc with
  | _ n ih =>
    rw [Scalar.powNat.go]
    by_cases hzero : n = 0
    · rw [if_pos hzero, hzero, pow_zero, mul_one]
    · rw [if_neg hzero]
      -- the lowest digit goes to `acc`, the others to the square
      have hodd : (if n % 2 = 1 then acc * x else acc) = acc * x ^ (n % 2) := by
        rcases Nat.mod_two_eq_zero_or_one n with h | h
        · rw [h, if_neg (by decide), pow_zero, mul_one]
        · rw [h, if_pos rfl, pow_one]
      have hsplit : x ^ n = x ^ (n % 2) * (x * x) ^ (n / 2) := by
        rw [← pow_two, ← pow_mul, ← pow_add, Nat.mod_add_div]
      dsimp only
      rw [hodd]
      by_cases hhalf : n / 2 = 0
      · rw [if_pos hhalf, hsplit, hhalf, pow_zero, mul_one]
      · rw [if_neg hhalf, ih (n / 2) (by omega), hsplit, mul_assoc]

theorem powNat_eq_pow (x : ℝ) (n : ℕ) : Scalar.powNat x n = x ^ n := by
  rw [Scalar.powNat, powNat_go_eq, one_mul]

/-! ## Sums -/

variable {n : ℕ}

/-- A running sum over all cells is a finite sum. -/
theorem foldl_add_eq_sum (f : Fin n → ℝ) :
    (List.finRange n).foldl (fun acc i => acc + f i) 0 = ∑ i, f i := by
  rw [Fin.sum_univ_def, List.sum_eq_foldl, List.foldl_map]

/-- The running sum over a vector is the sum of its entries. -/
theorem foldl_vector_eq_sum (v : Vector ℝ n) : v.foldl (· + ·) 0 = ∑ i, v.get i := by
  have hv : v.toList = (List.finRange n).map v.get := by
    apply List.ext_getElem
    · simp
    · intro k h₁ h₂
      simp [Vector.get_eq_getElem]
  rw [← Vector.foldl_toList, hv, List.foldl_map, foldl_add_eq_sum]

end DanglingBonds
