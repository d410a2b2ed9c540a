/-
# The order of assignments

Assignments are ordered like words: the first cell in which two of them differ decides, negative
before neutral before positive. The order does not depend on a base, so the assignments of base 2
come in the same order among those of base 3 as among themselves.

* `LexBefore` : the order.
* `lexBefore_of_readDigits_lt` : greater numbers have later digits.
* `pairwise_exhaustiveTests` : the exhaustive enumeration tests in ascending order.
* `filter_exhaustiveTests_three` : what base 3 adds to the tests is positive somewhere.
-/
import Mathlib
import DanglingBonds.Proofs.TestedAssignments

namespace DanglingBonds

variable {n : ℕ} {q q' : Vector Charge n}

/-- In the first cell in which `q` and `q'` differ, `q` has the lower charge. -/
def LexBefore (q q' : Vector Charge n) : Prop :=
  ∃ i, (∀ j < i, q.get j = q'.get j) ∧ (q.get i).digit < (q'.get i).digit

/-- No assignment comes before itself. -/
instance LexBefore.instIrrefl : Std.Irrefl (LexBefore (n := n)) where
  irrefl := by
    rintro q ⟨i, -, hi⟩
    exact lt_irrefl _ hi

/-- Of two assignments at most one comes before the other. -/
theorem LexBefore.asymm (h : LexBefore q q') : ¬ LexBefore q' q := by
  rintro ⟨i', hbefore', hlt'⟩
  obtain ⟨i, hbefore, hlt⟩ := h
  rcases lt_trichotomy i i' with hi | rfl | hi
  · rw [hbefore' i hi] at hlt
    exact lt_irrefl _ hlt
  · exact absurd hlt hlt'.asymm
  · rw [hbefore i' hi] at hlt'
    exact lt_irrefl _ hlt'

instance LexBefore.instAntisymm : Std.Antisymm (LexBefore (n := n)) where
  antisymm _ _ h h' := absurd h' h.asymm

/-! ## Numbers and their digits -/

/-- A charge is known from its digit. -/
theorem Charge.digit_injective : Function.Injective Charge.digit := by
  intro c c' h
  have hsome : Charge.ofDigit? c.digit = Charge.ofDigit? c'.digit := congrArg Charge.ofDigit? h
  rwa [Charge.ofDigit?_digit, Charge.ofDigit?_digit, Option.some.injEq] at hsome

/-- Higher digits outweigh the last one. -/
theorem add_mul_lt_add_mul {base d d' x x' : ℕ} (hd : d < base) (h : x < x') :
    d + base * x < d' + base * x' := by
  calc d + base * x < base + base * x := Nat.add_lt_add_right hd _
    _ = base * (x + 1) := by ring
    _ ≤ base * x' := Nat.mul_le_mul_left base h
    _ ≤ d' + base * x' := Nat.le_add_left _ _

section Digits

variable {base : ℕ} {cells : List (Fin n)}

/-- Charges of the base that are read as the same number are the same. -/
theorem eq_of_readDigits_eq (hq : ∀ i ∈ cells, (q.get i).InBase base)
    (hq' : ∀ i ∈ cells, (q'.get i).InBase base)
    (h : readDigits base cells q = readDigits base cells q') :
    ∀ i ∈ cells, q.get i = q'.get i := by
  induction cells with
  | nil => simp
  | cons i is ih =>
    obtain ⟨hi, his⟩ := List.forall_mem_cons.1 hq
    obtain ⟨hi', his'⟩ := List.forall_mem_cons.1 hq'
    rw [readDigits, readDigits] at h
    rcases lt_trichotomy (readDigits base is q) (readDigits base is q') with hlt | heq | hgt
    · exact absurd h (add_mul_lt_add_mul hi hlt).ne
    · rw [heq, Nat.add_right_cancel_iff] at h
      exact List.forall_mem_cons.2 ⟨Charge.digit_injective h, ih his his' heq⟩
    · exact absurd h (add_mul_lt_add_mul hi' hgt).ne'

/-- **Greater numbers have later digits.** Of two numbers the lesser has the lower digit at the
first cell, counted from the most significant, in which their digits differ. -/
theorem exists_lower_digit (hcells : cells.Pairwise (· > ·))
    (hq : ∀ i ∈ cells, (q.get i).InBase base) (hq' : ∀ i ∈ cells, (q'.get i).InBase base)
    (h : readDigits base cells q < readDigits base cells q') :
    ∃ i ∈ cells, (∀ j ∈ cells, j < i → q.get j = q'.get j)
      ∧ (q.get i).digit < (q'.get i).digit := by
  -- the first cell of the list is the least significant, and comes last among the cells
  induction cells with
  | nil => exact absurd h (lt_irrefl _)
  | cons i is ih =>
    obtain ⟨hlater, hcells⟩ := List.pairwise_cons.1 hcells
    obtain ⟨hi, his⟩ := List.forall_mem_cons.1 hq
    obtain ⟨hi', his'⟩ := List.forall_mem_cons.1 hq'
    rw [readDigits, readDigits] at h
    rcases lt_trichotomy (readDigits base is q) (readDigits base is q') with hlt | heq | hgt
    · obtain ⟨k, hk, hbefore, hdigit⟩ := ih hcells his his' hlt
      refine ⟨k, List.mem_cons_of_mem i hk, fun j hj hjk => ?_, hdigit⟩
      rcases List.mem_cons.1 hj with rfl | hj
      · exact absurd hjk (hlater k hk).asymm
      · exact hbefore j hj hjk
    · rw [heq, Nat.add_lt_add_iff_right] at h
      refine ⟨i, List.mem_cons_self, fun j hj hji => ?_, h⟩
      rcases List.mem_cons.1 hj with rfl | hj
      · exact absurd hji (lt_irrefl _)
      · exact eq_of_readDigits_eq his his' heq j hj
    · exact absurd h (add_mul_lt_add_mul hi' hgt).asymm

/-- With all cells as digits, the first most significant, numbers are ordered like assignments. -/
theorem lexBefore_of_readDigits_lt (hq : ∀ i, (q.get i).InBase base)
    (hq' : ∀ i, (q'.get i).InBase base)
    (h : readDigits base (List.finRange n).reverse q
      < readDigits base (List.finRange n).reverse q') : LexBefore q q' := by
  have hcells : (List.finRange n).reverse.Pairwise (· > ·) :=
    List.pairwise_reverse.2 (List.pairwise_lt_finRange n)
  obtain ⟨i, -, hbefore, hdigit⟩ :=
    exists_lower_digit hcells (fun i _ => hq i) (fun i _ => hq' i) h
  exact ⟨i, fun j => hbefore j (List.mem_reverse.2 (List.mem_finRange j)), hdigit⟩

end Digits

/-! ## The tests of the exhaustive enumeration -/

namespace Environment

/-- **Tests in ascending order.** The exhaustive enumeration tests assignments in ascending
order. -/
theorem pairwise_exhaustiveTests {base : ℕ} (hbase : base = 2 ∨ base = 3) :
    (exhaustiveTests n base).Pairwise LexBefore := by
  rw [exhaustiveTests, List.pairwise_map]
  refine List.pairwise_lt_range.imp_of_mem fun {x y} hx hy hxy => ?_
  have hinBase : ∀ z < base ^ n, ∀ i, ((setDigits base (List.finRange n).reverse z
      (Vector.replicate n .negative)).get i).InBase base := fun z _ i =>
    get_setDigits_inBase hbase (List.mem_reverse.2 (List.mem_finRange i)) z _
  have hread : ∀ z < base ^ n, readDigits base (List.finRange n).reverse
      (setDigits base (List.finRange n).reverse z (Vector.replicate n .negative)) = z := by
    intro z hz
    refine readDigits_setDigits hbase (List.nodup_reverse.2 (List.nodup_finRange n)) ?_ _
    rwa [List.length_reverse, List.length_finRange]
  rw [List.mem_range] at hx hy
  refine lexBefore_of_readDigits_lt (hinBase x hx) (hinBase y hy) ?_
  rwa [hread x hx, hread y hy]

/-- Where no assignment with a positive cell passes, the assignments of base 3 that pass are those
of base 2, in the same order. -/
theorem filter_exhaustiveTests_three {passes : Vector Charge n → Bool}
    (h : ∀ q, passes q = true → ∀ i, (q.get i).InBase 2) :
    (exhaustiveTests n 3).filter passes = (exhaustiveTests n 2).filter passes := by
  refine List.Pairwise.eq_of_mem_iff ((pairwise_exhaustiveTests (.inr rfl)).filter passes)
    ((pairwise_exhaustiveTests (.inl rfl)).filter passes) fun q => ?_
  rw [List.mem_filter, List.mem_filter, mem_exhaustiveTests_iff (.inr rfl),
    mem_exhaustiveTests_iff (.inl rfl)]
  exact and_congr_left fun hq => iff_of_true (fun i => Charge.inBase_three _) (h q hq)

end Environment

end DanglingBonds
