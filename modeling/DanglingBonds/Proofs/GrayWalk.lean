/-
# The Gray walk

The word after `c` steps determines the words after `c / 2` steps and the parity of `c`, so every
fact about words is an induction on halves.

* `word_injective`, `exists_word_eq` : the words of `k` bits are passed once each.
* `exists_word_xor_word_succ` : one step flips one bit.
* `step?_place` : the walk steps from one place to the next.
* `places` : all places of a walk, up to the one with no step left.
* `places_start_isFullWalk` : a walk passes every word once and flips one bit a step.
-/
import Mathlib
import DanglingBonds.GrayCode

namespace DanglingBonds

namespace GrayCode

/-! ## Halves -/

/-- All bits but the last are those of the word for half the steps. -/
theorem word_div_two (c : ℕ) : word c / 2 = word (c / 2) := by
  rw [word, word, Nat.shiftRight_one, Nat.shiftRight_one, Nat.xor_div_two]

/-- The last bit is the parity of the steps and half of them together. -/
theorem word_mod_two (c : ℕ) : word c % 2 = (c + c / 2) % 2 := by
  rw [word, Nat.shiftRight_one, Nat.xor_mod_two_eq]

/-- Words of fewer than `2 ^ k` steps have `k` bits. -/
theorem word_lt_two_pow {c k : ℕ} (h : c < 2 ^ k) : word c < 2 ^ k := by
  rw [word, Nat.shiftRight_one]
  exact Nat.xor_lt_two_pow h (lt_of_le_of_lt (Nat.div_le_self c 2) h)

/-! ## Every word once -/

/-- Among the words of `k` bits none is passed twice. -/
theorem eq_of_word_eq_of_lt {k a b : ℕ} (ha : a < 2 ^ k) (hb : b < 2 ^ k)
    (h : word a = word b) : a = b := by
  induction k generalizing a b with
  | zero => omega
  | succ k ih =>
    rw [pow_succ] at ha hb
    have hword : word (a / 2) = word (b / 2) := by
      rw [← word_div_two, ← word_div_two, h]
    have hhalf : a / 2 = b / 2 := ih (by omega) (by omega) hword
    -- the halves agree, so the last bits of the words tell the parities
    have hmod : (a + a / 2) % 2 = (b + b / 2) % 2 := by
      rw [← word_mod_two, ← word_mod_two, h]
    omega

/-- No word is passed twice. -/
theorem word_injective : Function.Injective word := by
  intro a b h
  have hlt : a + b < 2 ^ (a + b) := Nat.lt_two_pow_self
  exact eq_of_word_eq_of_lt (k := a + b) (by omega) (by omega) h

/-- Every word of `k` bits is passed within the first `2 ^ k` words. -/
theorem exists_word_eq {w k : ℕ} (h : w < 2 ^ k) : ∃ c, c < 2 ^ k ∧ word c = w := by
  have hmaps : Set.MapsTo word (Finset.range (2 ^ k)) (Finset.range (2 ^ k)) := by
    intro c hc
    rw [Finset.coe_range, Set.mem_Iio] at hc ⊢
    exact word_lt_two_pow hc
  have hsurj := Finset.surjOn_of_injOn_of_card_le word hmaps (word_injective.injOn) le_rfl
  obtain ⟨c, hc, rfl⟩ := hsurj (Finset.mem_coe.2 (Finset.mem_range.2 h))
  exact ⟨c, Finset.mem_range.1 hc, rfl⟩

/-! ## One bit a step -/

/-- **One step flips one bit.** -/
theorem exists_word_xor_word_succ (c : ℕ) : ∃ b, word c ^^^ word (c + 1) = 2 ^ b := by
  induction c using Nat.strong_induction_on with
  | _ c ih =>
    have hmod : (word c ^^^ word (c + 1)) % 2 = (c + c / 2 + (c + 1 + (c + 1) / 2)) % 2 := by
      rw [Nat.xor_mod_two_eq, Nat.add_mod, word_mod_two, word_mod_two, ← Nat.add_mod]
    have hdiv : (word c ^^^ word (c + 1)) / 2 = word (c / 2) ^^^ word ((c + 1) / 2) := by
      rw [Nat.xor_div_two, word_div_two, word_div_two]
    -- after an even number of steps the last bit flips, after an odd number the bit that half as
    -- many steps flip, one place higher
    rcases Nat.mod_two_eq_zero_or_one c with hc | hc
    · have hhalf : (c + 1) / 2 = c / 2 := by omega
      rw [hhalf, Nat.xor_self] at hdiv
      exact ⟨0, by omega⟩
    · have hhalf : (c + 1) / 2 = c / 2 + 1 := by omega
      obtain ⟨b, hb⟩ := ih (c / 2) (by omega)
      rw [hhalf, hb] at hdiv
      exact ⟨b + 1, by rw [pow_succ]; omega⟩

/-- Within the words of `k` bits the flipped bit is one of them. -/
theorem exists_lt_word_xor_word_succ {c k : ℕ} (h : c + 1 < 2 ^ k) :
    ∃ b, b < k ∧ word c ^^^ word (c + 1) = 2 ^ b := by
  obtain ⟨b, hb⟩ := exists_word_xor_word_succ c
  refine ⟨b, ?_, hb⟩
  have hlt : word c ^^^ word (c + 1) < 2 ^ k :=
    Nat.xor_lt_two_pow (word_lt_two_pow (by omega)) (word_lt_two_pow h)
  rw [hb] at hlt
  exact (Nat.pow_lt_pow_iff_right (by omega)).1 hlt

/-- The lowest set bit of a power of two is its exponent. -/
theorem trailingZeros_two_pow {width b : ℕ} (h : b < width) : trailingZeros width (2 ^ b) = b := by
  induction width generalizing b with
  | zero => cases h
  | succ width ih =>
    rw [trailingZeros]
    cases b with
    | zero => rfl
    | succ b =>
      have hmod : ¬2 ^ (b + 1) % 2 = 1 := by
        rw [pow_succ]
        omega
      have hdiv : 2 ^ (b + 1) / 2 = 2 ^ b := by
        rw [pow_succ]
        omega
      rw [if_neg hmod, hdiv, ih (by omega)]

/-! ## Places -/

/-- The place after `c` steps of the walk over words of `k` bits. -/
def place (k c : ℕ) : GrayCode :=
  ⟨2 ^ k - 1, c, word c, word (c - 1)⟩

/-- The walk over words of at most 64 bits starts at its first place. -/
theorem start_eq_place {k : ℕ} (h : k ≤ 64) : start k = place k 0 := by
  rw [start, min_eq_left h]
  rfl

/-- From a place before the last the walk flips one bit and stands at the next place. -/
theorem step?_place {k c : ℕ} (hk : k ≤ 64) (h : c + 1 < 2 ^ k) :
    ∃ b, b < k ∧ word (c + 1) = word c ^^^ 2 ^ b ∧
      (place k c).step? = some (b, place k (c + 1)) := by
  obtain ⟨b, hbk, hb⟩ := exists_lt_word_xor_word_succ h
  refine ⟨b, hbk, ?_, ?_⟩
  · rw [← hb, ← Nat.xor_assoc, Nat.xor_self, Nat.zero_xor]
  · have hbit : trailingZeros 64 (word (c + 1) ^^^ word c) = b := by
      rw [Nat.xor_comm, hb, trailingZeros_two_pow (by omega)]
    have hlt : c < 2 ^ k - 1 := by omega
    show (if c < 2 ^ k - 1 then
      some (trailingZeros 64 (word (c + 1) ^^^ word c), _) else none) = _
    rw [if_pos hlt, hbit]
    rfl

/-- At the last place the walk is over. -/
theorem step?_place_last (k : ℕ) : (place k (2 ^ k - 1)).step? = none :=
  if_neg (lt_irrefl _)

/-! ## Whole walks -/

/-- The places of the walk from `g` on, `g` first, up to the one with no step left. -/
def places (g : GrayCode) : List GrayCode :=
  match h : g.step? with
  | none => [g]
  | some (_, g') =>
    have := left_lt_of_step? h
    g :: places g'
termination_by g.left

/-- A walk that is over stays where it is. -/
theorem places_of_none {g : GrayCode} (h : g.step? = none) : g.places = [g] := by
  unfold places
  split
  · rfl
  · rename_i heq
    rw [h] at heq
    cases heq

/-- Before the end the places after `g` are those from the next place on. -/
theorem places_of_some {g g' : GrayCode} {bit : ℕ} (h : g.step? = some (bit, g')) :
    g.places = g :: g'.places := by
  rw [places]
  split
  · rename_i heq
    rw [h] at heq
    cases heq
  · rename_i heq
    rw [h] at heq
    cases heq
    rfl

/-- A walk over words of at most 64 bits passes its places in order of their numbers. -/
theorem places_place {k : ℕ} (hk : k ≤ 64) (steps : ℕ) {c : ℕ} (hc : c + steps + 1 = 2 ^ k) :
    (place k c).places = (List.range' c (steps + 1)).map (place k) := by
  induction steps generalizing c with
  | zero =>
    have hlast : c = 2 ^ k - 1 := by omega
    rw [places_of_none (hlast ▸ step?_place_last k)]
    rfl
  | succ steps ih =>
    obtain ⟨b, -, -, hstep⟩ := step?_place hk (show c + 1 < 2 ^ k by omega)
    rw [places_of_some hstep, ih (by omega), ← List.map_cons, ← List.range'_succ]

/-- A whole walk over words of `k` bits passes `2 ^ k` places. -/
theorem places_start {k : ℕ} (hk : k ≤ 64) :
    (start k).places = (List.range (2 ^ k)).map (place k) := by
  have hpow : 0 < 2 ^ k := Nat.two_pow_pos k
  rw [start_eq_place hk, places_place hk (2 ^ k - 1) (by omega), List.range_eq_range',
    Nat.sub_add_cancel hpow]

/-- Its words are those after each number of steps. -/
theorem map_current_places_start {k : ℕ} (hk : k ≤ 64) :
    (start k).places.map (·.current) = (List.range (2 ^ k)).map word := by
  rw [places_start hk, List.map_map]
  rfl

/-- A list of places is a run of steps over all words of `k` bits. -/
structure IsFullWalk (k : ℕ) (places : List GrayCode) : Prop where
  head?_eq : places.head? = some (start k)
  current_start : (start k).current = 0
  /-- Each place comes from the one before by a step, which reports the one bit in which the current
  word differs from the previous one. -/
  step : places.IsChain fun g g' => ∃ bit < k, g.step? = some (bit, g') ∧
    g'.previous = g.current ∧ g'.current ^^^ g'.previous = 2 ^ bit
  /-- The last place has no step left. -/
  ended : ∀ g ∈ places.getLast?, g.step? = none
  nodup : (places.map (·.current)).Nodup
  mem_iff : ∀ w, w ∈ places.map (·.current) ↔ w < 2 ^ k

/-- **Every word once, one bit a step.** -/
theorem places_start_isFullWalk {k : ℕ} (hk : k ≤ 64) : IsFullWalk k (start k).places where
  head?_eq := by
    rw [places_start hk, start_eq_place hk, List.head?_map, List.head?_range,
      if_neg (Nat.two_pow_pos k).ne']
    rfl
  current_start := rfl
  step := by
    rw [places_start hk, List.isChain_map, List.isChain_range]
    intro c hc
    obtain ⟨b, hb, hword, hstep⟩ := step?_place (c := c) hk (by omega)
    refine ⟨b, hb, hstep, rfl, ?_⟩
    show word (c + 1) ^^^ word c = 2 ^ b
    rw [hword, Nat.xor_comm, ← Nat.xor_assoc, Nat.xor_self, Nat.zero_xor]
  ended := by
    rw [places_start hk, List.getLast?_map, List.getLast?_range, if_neg (Nat.two_pow_pos k).ne']
    intro g hg
    cases hg
    exact step?_place_last k
  nodup := by
    rw [map_current_places_start hk]
    exact List.nodup_range.map word_injective
  mem_iff := by
    intro w
    rw [map_current_places_start hk, List.mem_map]
    constructor
    · rintro ⟨c, hc, rfl⟩
      exact word_lt_two_pow (List.mem_range.1 hc)
    · intro hw
      obtain ⟨c, hc, rfl⟩ := exists_word_eq hw
      exact ⟨c, List.mem_range.2 hc, rfl⟩

end GrayCode

end DanglingBonds
