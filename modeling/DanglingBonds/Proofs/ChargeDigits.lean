/-
# Charges as digits

The charges of a list of cells are the digits of a number, the first cell least significant. Setting
the digits of a number and reading them back are inverse to each other.

* `setDigits`, `readDigits` : a number to charges, and charges to a number.
* `readDigits_setDigits`, `setDigits_readDigits` : the two directions.
* `setDigits_xor_two_pow` : in base 2, flipping one bit toggles one cell.
-/
import Mathlib
import DanglingBonds.Proofs.Electrostatics

namespace DanglingBonds

variable {n : ℕ}

/-! ## Charges of a base -/

/-- A charge whose digit is one of the base. -/
def Charge.InBase (base : ℕ) (c : Charge) : Prop :=
  c.digit < base

instance Charge.decidableInBase (base : ℕ) (c : Charge) : Decidable (c.InBase base) :=
  inferInstanceAs (Decidable (c.digit < base))

theorem Charge.inBase_three (c : Charge) : c.InBase 3 := by
  cases c <;> decide

theorem Charge.inBase_two_iff {c : Charge} : c.InBase 2 ↔ c ≠ .positive := by
  cases c <;> decide

theorem Charge.negative_inBase {base : ℕ} (h : base = 2 ∨ base = 3) :
    Charge.negative.InBase base := by
  rcases h with rfl | rfl <;> decide

theorem Charge.neutral_inBase {base : ℕ} (h : base = 2 ∨ base = 3) :
    Charge.neutral.InBase base := by
  rcases h with rfl | rfl <;> decide

/-- The negative assignment is one of either base. -/
theorem inBase_replicate_negative {base : ℕ} (h : base = 2 ∨ base = 3) (i : Fin n) :
    ((Vector.replicate n Charge.negative).get i).InBase base := by
  rw [get_replicate]
  exact Charge.negative_inBase h

/-- Every digit of base 3 is that of a charge. -/
theorem Charge.exists_ofDigit? {d : ℕ} (h : d < 3) :
    ∃ c, Charge.ofDigit? d = some c ∧ c.digit = d := by
  interval_cases d
  · exact ⟨.negative, rfl, rfl⟩
  · exact ⟨.neutral, rfl, rfl⟩
  · exact ⟨.positive, rfl, rfl⟩

theorem Charge.ofDigit?_digit (c : Charge) : Charge.ofDigit? c.digit = some c := by
  cases c <;> rfl

/-! ## Setting and reading digits -/

/-- The charges `q` with the digits of `index`, least significant first, on `cells`. -/
def setDigits (base : ℕ) : List (Fin n) → ℕ → Vector Charge n → Vector Charge n
  | [], _, q => q
  | i :: is, index, q =>
    setDigits base is (index / base)
      (match Charge.ofDigit? (index % base) with
        | some c => setCell q i c
        | none => q)

/-- The number whose digits are the charges of `cells`, least significant first. -/
def readDigits (base : ℕ) : List (Fin n) → Vector Charge n → ℕ
  | [], _ => 0
  | i :: is, q => (q.get i).digit + base * readDigits base is q

section

variable {base : ℕ} (hbase : base = 2 ∨ base = 3)

include hbase

/-- The first cell gets the last digit. -/
theorem setDigits_cons (i : Fin n) (is : List (Fin n)) (index : ℕ) (q : Vector Charge n) :
    ∃ c : Charge, c.digit = index % base ∧
      setDigits base (i :: is) index q = setDigits base is (index / base) (setCell q i c) := by
  have hlt : index % base < 3 :=
    lt_of_lt_of_le (Nat.mod_lt _ (by omega)) (by omega)
  obtain ⟨c, hc, hdigit⟩ := Charge.exists_ofDigit? hlt
  refine ⟨c, hdigit, ?_⟩
  rw [setDigits, hc]

/-- Cells outside the list keep their charges. -/
theorem get_setDigits_of_notMem {cells : List (Fin n)} {j : Fin n} (hj : j ∉ cells) (index : ℕ)
    (q : Vector Charge n) : (setDigits base cells index q).get j = q.get j := by
  induction cells generalizing index q with
  | nil => rfl
  | cons i is ih =>
    obtain ⟨c, -, heq⟩ := setDigits_cons hbase i is index q
    rw [List.mem_cons, not_or] at hj
    rw [heq, ih hj.2, get_setCell_of_ne q hj.1]

/-- Cells of the list get charges of the base. -/
theorem get_setDigits_inBase {cells : List (Fin n)} {j : Fin n} (hj : j ∈ cells) (index : ℕ)
    (q : Vector Charge n) : ((setDigits base cells index q).get j).InBase base := by
  induction cells generalizing index q with
  | nil => cases hj
  | cons i is ih =>
    obtain ⟨c, hdigit, heq⟩ := setDigits_cons hbase i is index q
    rw [heq]
    by_cases hmem : j ∈ is
    · exact ih hmem _ _
    · have hji : j = i := (List.mem_cons.1 hj).resolve_right hmem
      rw [get_setDigits_of_notMem hbase hmem, hji, get_setCell_self, Charge.InBase, hdigit]
      exact Nat.mod_lt _ (by omega)

/-- What a cell of the list held before does not matter. -/
theorem get_setDigits_congr {cells : List (Fin n)} {q q' : Vector Charge n} {j : Fin n}
    (h : j ∉ cells → q.get j = q'.get j) (index : ℕ) :
    (setDigits base cells index q).get j = (setDigits base cells index q').get j := by
  induction cells generalizing index q q' with
  | nil => exact h List.not_mem_nil
  | cons i is ih =>
    obtain ⟨c, hc, -⟩ := Charge.exists_ofDigit?
      (lt_of_lt_of_le (Nat.mod_lt index (by omega : 0 < base)) (by omega))
    -- cell `i` gets its digit in both, so the two may differ there
    rw [setDigits, setDigits, hc]
    apply ih
    intro hj
    simp only [get_setCell]
    split
    · rfl
    · rename_i hji
      exact h (by rw [List.mem_cons, not_or]; exact ⟨hji, hj⟩)

/-- What the cells of the list held before does not matter. -/
theorem setDigits_congr {cells : List (Fin n)} {q q' : Vector Charge n}
    (h : ∀ j, j ∉ cells → q.get j = q'.get j) (index : ℕ) :
    setDigits base cells index q = setDigits base cells index q' :=
  ext_get fun j => get_setDigits_congr hbase (h j) index

/-- **Reading what was set** gives the number back. -/
theorem readDigits_setDigits {cells : List (Fin n)} (hcells : cells.Nodup) {index : ℕ}
    (hindex : index < base ^ cells.length) (q : Vector Charge n) :
    readDigits base cells (setDigits base cells index q) = index := by
  induction cells generalizing index q with
  | nil =>
    rw [List.length_nil, pow_zero] at hindex
    rw [readDigits]
    omega
  | cons i is ih =>
    obtain ⟨hi, his⟩ := List.nodup_cons.1 hcells
    obtain ⟨c, hdigit, heq⟩ := setDigits_cons hbase i is index q
    have hdiv : index / base < base ^ is.length := by
      rw [List.length_cons, pow_succ'] at hindex
      exact Nat.div_lt_of_lt_mul hindex
    rw [heq, readDigits, ih his hdiv, get_setDigits_of_notMem hbase hi, get_setCell_self, hdigit]
    exact Nat.mod_add_div index base

omit hbase in
/-- The number read from charges of the base is small enough. -/
theorem readDigits_lt {cells : List (Fin n)} {q : Vector Charge n}
    (hq : ∀ i ∈ cells, (q.get i).InBase base) : readDigits base cells q < base ^ cells.length := by
  induction cells with
  | nil => exact Nat.one_pos
  | cons i is ih =>
    have hi : (q.get i).digit < base := hq i List.mem_cons_self
    have his := ih fun j hj => hq j (List.mem_cons_of_mem i hj)
    rw [readDigits, List.length_cons, pow_succ']
    calc (q.get i).digit + base * readDigits base is q
        < base + base * readDigits base is q := Nat.add_lt_add_right hi _
      _ = base * (readDigits base is q + 1) := by ring
      _ ≤ base * base ^ is.length := Nat.mul_le_mul_left base his

omit hbase in
/-- **Setting what was read** changes nothing. -/
theorem setDigits_readDigits {cells : List (Fin n)} {q : Vector Charge n}
    (hq : ∀ i ∈ cells, (q.get i).InBase base) :
    setDigits base cells (readDigits base cells q) q = q := by
  induction cells with
  | nil => rfl
  | cons i is ih =>
    have hi : (q.get i).digit < base := hq i List.mem_cons_self
    have hmod : ((q.get i).digit + base * readDigits base is q) % base = (q.get i).digit := by
      rw [Nat.add_mul_mod_self_left, Nat.mod_eq_of_lt hi]
    have hdiv : ((q.get i).digit + base * readDigits base is q) / base = readDigits base is q := by
      rw [Nat.add_mul_div_left _ _ (by omega), Nat.div_eq_of_lt hi, zero_add]
    rw [readDigits, setDigits, hmod, hdiv, Charge.ofDigit?_digit]
    dsimp only
    rw [setCell_get_self]
    exact ih fun j hj => hq j (List.mem_cons_of_mem i hj)

omit hbase in
/-- The digits of zero change no negative cells. -/
theorem setDigits_zero_of_negative {cells : List (Fin n)} {q : Vector Charge n}
    (hbase : 0 < base) (hq : ∀ i ∈ cells, q.get i = .negative) :
    setDigits base cells 0 q = q := by
  have hread : readDigits base cells q = 0 := by
    induction cells with
    | nil => rfl
    | cons i is ih =>
      rw [readDigits, hq i List.mem_cons_self, ih fun j hj => hq j (List.mem_cons_of_mem i hj)]
      rfl
  have hdigits : ∀ i ∈ cells, (q.get i).InBase base := by
    intro i hi
    rw [hq i hi]
    exact hbase
  have hself := setDigits_readDigits hdigits
  rwa [hread] at hself

omit hbase in
/-- Reading looks at the cells of the list alone. -/
theorem readDigits_congr {cells : List (Fin n)} {q q' : Vector Charge n}
    (h : ∀ i ∈ cells, q.get i = q'.get i) : readDigits base cells q = readDigits base cells q' := by
  induction cells with
  | nil => rfl
  | cons i is ih =>
    rw [readDigits, readDigits, h i List.mem_cons_self,
      ih fun j hj => h j (List.mem_cons_of_mem i hj)]

end

/-! ## Base 2 -/

/-- In base 2 a cell is neutral where its bit is set, and negative elsewhere. -/
theorem get_setDigits_two {cells : List (Fin n)} (hcells : cells.Nodup) (word : ℕ)
    (q : Vector Charge n) {k : ℕ} (hk : k < cells.length) :
    (setDigits 2 cells word q).get cells[k]
      = if word.testBit k then .neutral else .negative := by
  induction cells generalizing word q k with
  | nil => cases hk
  | cons i is ih =>
    obtain ⟨hi, his⟩ := List.nodup_cons.1 hcells
    obtain ⟨c, hdigit, heq⟩ := setDigits_cons (.inl rfl) i is word q
    rw [heq]
    cases k with
    | zero =>
      rw [List.getElem_cons_zero, get_setDigits_of_notMem (.inl rfl) hi, get_setCell_self,
        Nat.testBit_zero]
      rcases Nat.mod_two_eq_zero_or_one word with h | h <;> rw [h] at hdigit ⊢
      · cases c <;> first | rfl | cases hdigit
      · cases c <;> first | rfl | cases hdigit
    | succ k =>
      rw [List.getElem_cons_succ, ih his, Nat.testBit_succ]

/-- **One bit, one cell.** Flipping a bit of the word toggles the cell of that bit. -/
theorem setDigits_xor_two_pow {cells : List (Fin n)} (hcells : cells.Nodup) (word : ℕ)
    (q : Vector Charge n) {b : ℕ} (hb : b < cells.length) :
    setDigits 2 cells (word ^^^ 2 ^ b) q
      = setCell (setDigits 2 cells word q) cells[b]
          (if (setDigits 2 cells word q).get cells[b] = .negative then .neutral
            else .negative) := by
  apply ext_get
  intro j
  rw [get_setCell]
  by_cases hj : j ∈ cells
  · obtain ⟨k, hk, rfl⟩ := List.mem_iff_getElem.1 hj
    rw [get_setDigits_two hcells _ _ hk, get_setDigits_two hcells _ _ hk,
      get_setDigits_two hcells _ _ hb, Nat.testBit_xor, Nat.testBit_two_pow]
    -- the bits of all other cells are the same in both words
    by_cases hkb : k = b
    · subst hkb
      cases word.testBit k <;> simp
    · have hne : cells[k] ≠ cells[b] := fun h => hkb (hcells.getElem_inj_iff.1 h)
      rw [if_neg hne, decide_eq_false (Ne.symm hkb), Bool.xor_false]
  · have hne : j ≠ cells[b] := by
      rintro rfl
      exact hj (List.getElem_mem hb)
    rw [if_neg hne, get_setDigits_of_notMem (.inl rfl) hj, get_setDigits_of_notMem (.inl rfl) hj]

end DanglingBonds
