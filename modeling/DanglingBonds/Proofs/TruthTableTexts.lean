/-
# Truth tables and their texts

A text lists the values of a truth table from the highest input combination to the lowest, one digit
for each. The texts that are read are those of tables, each stands for one table, and a text that is
refused has a length that is no power of two or, failing that, a last character that is no digit.

* `TruthTable.readBits_eq_ok_iff`, `TruthTable.readBits_eq_error_iff` : reading character by
  character.
* `TruthTable.IsText` : the text that lists the values of a table.
* `TruthTable.ofText_eq_ok_iff`, `TruthTable.text_eq_iff` : reading and writing.
* `TruthTable.ofText_roundTrip` : texts that are read, texts that are written, texts that are
  refused.
-/
import Mathlib
import DanglingBonds.TruthTable

namespace DanglingBonds

/-- Nothing is trimmed off a text without blanks. -/
theorem Text.trim_eq_self {cs : List Char} (h : ∀ c ∈ cs, Text.isBlank c = false) :
    Text.trim cs = cs := by
  have hdrop : ∀ ds : List Char, (∀ c ∈ ds, Text.isBlank c = false) →
      ds.dropWhile Text.isBlank = ds := by
    intro ds hds
    cases ds with
    | nil => rfl
    | cons d ds => rw [List.dropWhile_cons, hds d List.mem_cons_self, if_neg Bool.false_ne_true]
  rw [Text.trim, hdrop cs h, hdrop, List.reverse_reverse]
  exact fun c hc => h c (List.mem_reverse.1 hc)

namespace TruthTable

/-! ## Digits -/

/-- The characters that stand for a value. -/
def IsDigit (c : Char) : Prop :=
  c = '0' ∨ c = '1'

/-- The character that stands for a value. -/
def digit (b : Bool) : Char :=
  if b then '1' else '0'

theorem digit_injective : Function.Injective digit := by decide

theorem isDigit_iff {c : Char} : IsDigit c ↔ ∃ b, digit b = c := by
  rw [IsDigit, Bool.exists_bool, eq_comm (b := '0'), eq_comm (b := '1')]
  rfl

/-- The characters of a list are digits if they are those of a list of values. -/
theorem forall_isDigit_iff {cs : List Char} :
    (∀ c ∈ cs, IsDigit c) ↔ ∃ bs : List Bool, bs.map digit = cs := by
  simp only [isDigit_iff]
  exact (Set.ext_iff.1 (Set.range_list_map digit) cs).symm

theorem bitOfChar?_digit (b : Bool) : bitOfChar? (digit b) = some b := by
  cases b <;> rfl

theorem bitOfChar?_of_not_isDigit {c : Char} (h : ¬ IsDigit c) : bitOfChar? c = none := by
  rw [bitOfChar?.eq_def]
  split
  · exact absurd (.inl rfl) h
  · exact absurd (.inr rfl) h
  · rfl

/-! ## Reading characters -/

/-- Digits at the front are read as the values they stand for. -/
theorem readBits_digits_append (bs : List Bool) (rest : List Char) :
    readBits (bs.map digit ++ rest) = (readBits rest).map (bs ++ ·) := by
  induction bs with
  | nil =>
    cases h : readBits rest <;> simp [h, Except.map]
  | cons b bs ih =>
    rw [List.map_cons, List.cons_append, readBits, bitOfChar?_digit]
    dsimp only
    rw [ih]
    cases readBits rest <;> rfl

/-- A list of digits is read as the values they stand for. -/
theorem readBits_digits (bs : List Bool) : readBits (bs.map digit) = .ok bs := by
  have h := readBits_digits_append bs []
  rwa [List.append_nil, readBits, Except.map, List.append_nil] at h

/-- The first character that is no digit is reported. -/
theorem readBits_of_not_isDigit {before after : List Char} {c : Char}
    (hbefore : ∀ d ∈ before, IsDigit d) (hc : ¬ IsDigit c) :
    readBits (before ++ c :: after) = .error (.invalidCharacter c) := by
  obtain ⟨bs, rfl⟩ := forall_isDigit_iff.1 hbefore
  rw [readBits_digits_append, readBits, bitOfChar?_of_not_isDigit hc]
  rfl

/-- A list of characters that are not all digits has a first that is none. -/
theorem exists_first_not_isDigit {cs : List Char} (h : ¬ ∀ c ∈ cs, IsDigit c) :
    ∃ before c after, cs = before ++ c :: after ∧ (∀ d ∈ before, IsDigit d) ∧ ¬ IsDigit c := by
  induction cs with
  | nil => exact absurd (by simp) h
  | cons c cs ih =>
    by_cases hc : IsDigit c
    · obtain ⟨before, c', after, rfl, hbefore, hc'⟩ := ih fun hcs =>
        h (List.forall_mem_cons.2 ⟨hc, hcs⟩)
      exact ⟨c :: before, c', after, rfl, List.forall_mem_cons.2 ⟨hc, hbefore⟩, hc'⟩
    · exact ⟨[], c, cs, rfl, by simp, hc⟩

/-- **Characters that are read** are digits, and stand for their values. -/
theorem readBits_eq_ok_iff {cs : List Char} {bs : List Bool} :
    readBits cs = .ok bs ↔ bs.map digit = cs := by
  constructor
  · intro h
    by_cases hcs : ∀ c ∈ cs, IsDigit c
    · obtain ⟨bs', rfl⟩ := forall_isDigit_iff.1 hcs
      rw [readBits_digits] at h
      cases h
      rfl
    · obtain ⟨before, c, after, rfl, hbefore, hc⟩ := exists_first_not_isDigit hcs
      rw [readBits_of_not_isDigit hbefore hc] at h
      cases h
  · rintro rfl
    exact readBits_digits bs

/-- **Characters that are refused**: the first that is no digit is reported. -/
theorem readBits_eq_error_iff {cs : List Char} {e : TruthTableError} :
    readBits cs = .error e ↔ ∃ before c after, cs = before ++ c :: after ∧
      (∀ d ∈ before, IsDigit d) ∧ ¬ IsDigit c ∧ e = .invalidCharacter c := by
  constructor
  · intro h
    have hcs : ¬ ∀ c ∈ cs, IsDigit c := by
      intro hcs
      obtain ⟨bs, rfl⟩ := forall_isDigit_iff.1 hcs
      rw [readBits_digits] at h
      cases h
    obtain ⟨before, c, after, rfl, hbefore, hc⟩ := exists_first_not_isDigit hcs
    rw [readBits_of_not_isDigit hbefore hc] at h
    cases h
    exact ⟨before, c, after, rfl, hbefore, hc, rfl⟩
  · rintro ⟨before, c, after, rfl, hbefore, hc, rfl⟩
    exact readBits_of_not_isDigit hbefore hc

/-! ## Reading and writing tables -/

/-- A table is determined by its values. -/
theorem eq_of_bits_eq {t t' : TruthTable} (h : t.bits = t'.bits) : t = t' := by
  rcases t with ⟨vars, bits, hbits⟩
  rcases t' with ⟨vars', bits', hbits'⟩
  obtain rfl : bits = bits' := h
  obtain rfl : vars = vars' :=
    Nat.pow_right_injective le_rfl (by simpa only [Nat.pow_eq] using hbits.symm.trans hbits')
  rfl

theorem chars_eq (t : TruthTable) : t.chars = t.bits.reverse.map digit := rfl

theorem length_chars (t : TruthTable) : t.chars.length = 2 ^ t.vars := by
  rw [chars_eq, List.length_map, List.length_reverse, t.length_bits, Nat.pow_eq]

/-- The characters of a table stand for its values, the last for the lowest input combination. -/
theorem chars_eq_iff {t : TruthTable} {cs : List Char} :
    t.chars = cs ↔ t.bits.map digit = cs.reverse := by
  rw [chars_eq, List.map_reverse, List.reverse_eq_iff]

theorem length_eq_pow_log2_iff {n : ℕ} : n = Nat.pow 2 n.log2 ↔ ∃ k, n = 2 ^ k := by
  rw [Nat.pow_eq]
  constructor
  · exact fun h => ⟨_, h⟩
  · rintro ⟨k, rfl⟩
    rw [Nat.log2_two_pow]

/-- A length that is no power of two is reported before any character is read. -/
theorem ofChars_of_length {cs : List Char} (h : ¬ ∃ k, cs.length = 2 ^ k) :
    ofChars cs = .error (.invalidLength cs.length) := by
  rw [ofChars, dif_neg (length_eq_pow_log2_iff.not.2 h)]

/-- With a length that is a power of two, the values are read from the last character on. -/
theorem map_bits_ofChars {cs : List Char} (h : ∃ k, cs.length = 2 ^ k) :
    (ofChars cs).map TruthTable.bits = readBits cs.reverse := by
  rw [ofChars, dif_pos (length_eq_pow_log2_iff.2 h)]
  split
  · rename_i e hbits
    exact hbits.symm
  · rename_i bits hbits
    exact hbits.symm

theorem ofChars_eq_ok_iff_of_length {cs : List Char} (h : ∃ k, cs.length = 2 ^ k)
    {t : TruthTable} : ofChars cs = .ok t ↔ readBits cs.reverse = .ok t.bits := by
  rw [← map_bits_ofChars h]
  cases ofChars cs with
  | error e => exact iff_of_false (fun h => by cases h) fun h => by cases h
  | ok t' =>
    rw [Except.map, Except.ok.injEq, Except.ok.injEq]
    exact ⟨congrArg bits, eq_of_bits_eq⟩

/-- With such a length, what is reported is a character. -/
theorem ofChars_eq_error_iff_of_length {cs : List Char} (h : ∃ k, cs.length = 2 ^ k)
    {e : TruthTableError} : ofChars cs = .error e ↔ readBits cs.reverse = .error e := by
  rw [← map_bits_ofChars h]
  cases ofChars cs with
  | error e' => rw [Except.map, Except.error.injEq, Except.error.injEq]
  | ok t' => exact iff_of_false (fun h => by cases h) fun h => by cases h

/-- **Reading undoes writing**: the characters that are read as a table are those of the table. -/
theorem ofChars_eq_ok_iff {cs : List Char} {t : TruthTable} :
    ofChars cs = .ok t ↔ t.chars = cs := by
  by_cases hlen : ∃ k, cs.length = 2 ^ k
  · rw [ofChars_eq_ok_iff_of_length hlen, readBits_eq_ok_iff, chars_eq_iff]
  · rw [ofChars_of_length hlen]
    refine iff_of_false (fun h => by cases h) ?_
    rintro rfl
    exact hlen ⟨t.vars, t.length_chars⟩

/-- A text that is read as a table is its text. -/
theorem ofText_eq_ok_iff {s : String} {t : TruthTable} : ofText s = .ok t ↔ t.text = s := by
  rw [ofText, ofChars_eq_ok_iff, text, ← String.toList_inj, String.toList_ofList]

/-- The length of a text is reported if it is no power of two. -/
theorem ofText_eq_invalidLength_iff {s : String} {n : ℕ} :
    ofText s = .error (.invalidLength n) ↔ n = s.length ∧ ¬ ∃ k, s.length = 2 ^ k := by
  rw [ofText, ← String.length_toList]
  by_cases hlen : ∃ k, s.toList.length = 2 ^ k
  · rw [ofChars_eq_error_iff_of_length hlen, readBits_eq_error_iff]
    refine iff_of_false ?_ fun h => h.2 hlen
    rintro ⟨_, _, _, _, _, _, h⟩
    cases h
  · rw [ofChars_of_length hlen, Except.error.injEq, TruthTableError.invalidLength.injEq, eq_comm,
      and_iff_left hlen]

/-- In a text of another length the last character that is no digit is reported. -/
theorem ofText_eq_invalidCharacter_iff {s : String} {c : Char} :
    ofText s = .error (.invalidCharacter c) ↔ (∃ k, s.length = 2 ^ k) ∧
      ∃ before after, s.toList = before ++ c :: after ∧ ¬ IsDigit c ∧ ∀ d ∈ after, IsDigit d := by
  rw [ofText, ← String.length_toList]
  by_cases hlen : ∃ k, s.toList.length = 2 ^ k
  · rw [ofChars_eq_error_iff_of_length hlen, readBits_eq_error_iff, and_iff_right hlen]
    constructor
    · rintro ⟨after, c', before, hsplit, hafter, hc, heq⟩
      cases heq
      refine ⟨before.reverse, after.reverse, ?_, hc, fun d hd => hafter d (List.mem_reverse.1 hd)⟩
      rw [List.reverse_eq_iff] at hsplit
      rw [hsplit, List.reverse_append, List.reverse_cons, List.append_assoc]
      rfl
    · rintro ⟨before, after, hsplit, hc, hafter⟩
      refine ⟨after.reverse, c, before.reverse, ?_, fun d hd => hafter d (List.mem_reverse.1 hd),
        hc, rfl⟩
      rw [hsplit, List.reverse_append, List.reverse_cons, List.append_assoc]
      rfl
  · rw [ofChars_of_length hlen]
    exact iff_of_false (fun h => by cases h) fun h => hlen h.1

/-- A text lists the values of a table from the highest input combination to the lowest. -/
structure IsText (t : TruthTable) (s : String) : Prop where
  length : s.length = 2 ^ t.vars
  digits : ∀ c ∈ s.toList, c = '0' ∨ c = '1'
  /-- The value for combination `i` stands `i` places before the end. -/
  values : ∀ i, t.bit? i = (s.toList.reverse[i]?).map (· == '1')

theorem toList_text (t : TruthTable) : t.text.toList = t.chars := String.toList_ofList

theorem digit_beq (b : Bool) : (digit b == '1') = b := by
  cases b <;> rfl

/-- The text of a table lists its values. -/
theorem isText_text (t : TruthTable) : t.IsText t.text where
  length := by rw [← String.length_toList, toList_text, length_chars]
  digits := by
    rw [toList_text]
    exact forall_isDigit_iff.2 ⟨_, rfl⟩
  values i := by
    rw [toList_text, ← chars_eq_iff.1 rfl, List.getElem?_map, Option.map_map, bit?]
    simp [Function.comp_def, digit_beq]

/-- No other text does. -/
theorem text_eq_iff {t : TruthTable} {s : String} : t.text = s ↔ t.IsText s := by
  constructor
  · rintro rfl
    exact t.isText_text
  · intro h
    obtain ⟨bs, hbs⟩ := forall_isDigit_iff.1 h.digits
    have hvalues : t.bits = bs.reverse := by
      refine List.ext_getElem? fun i => ?_
      have hi := h.values i
      rw [bit?, ← hbs, ← List.map_reverse, List.getElem?_map, Option.map_map] at hi
      simpa [Function.comp_def, digit_beq] using hi
    rw [← String.toList_inj, toList_text, chars_eq, hvalues, List.reverse_reverse, hbs]

/-- The text of a table is read as the table, also where white space around it is disregarded. -/
theorem parse_text (t : TruthTable) : parse t.text = .ok t := by
  have hblank : ∀ c ∈ t.chars, Text.isBlank c = false := by
    intro c hc
    rcases t.isText_text.digits c (t.toList_text ▸ hc) with rfl | rfl
    · rfl
    · rfl
  rw [parse, toList_text, Text.trim_eq_self hblank, ofChars_eq_ok_iff]

/-- **Truth tables and their texts.** A text is read exactly if its length is a power of two and all
its characters are digits; it is read as the table whose values it lists, and the text of that table
is the text itself. So the text of a table is read as that table, also where white space is
disregarded. A text that is refused is refused for its length if that is no power of two, and
otherwise for the last of its characters that is no digit. -/
theorem ofText_roundTrip :
    (∀ s, (∃ t, ofText s = .ok t) ↔
      (∃ k, s.length = 2 ^ k) ∧ ∀ c ∈ s.toList, c = '0' ∨ c = '1') ∧
    (∀ s t, ofText s = .ok t ↔ t.IsText s) ∧
    (∀ s t, ofText s = .ok t ↔ t.text = s) ∧
    (∀ t : TruthTable, ofText t.text = .ok t ∧ parse t.text = .ok t) ∧
    (∀ s n, ofText s = .error (.invalidLength n) ↔ n = s.length ∧ ¬ ∃ k, s.length = 2 ^ k) ∧
    ∀ s c, ofText s = .error (.invalidCharacter c) ↔ (∃ k, s.length = 2 ^ k) ∧
      ∃ before after, s.toList = before ++ c :: after ∧ ¬ (c = '0' ∨ c = '1') ∧
        ∀ d ∈ after, d = '0' ∨ d = '1' := by
  refine ⟨fun s => ?_, fun s t => ofText_eq_ok_iff.trans text_eq_iff, fun s t => ofText_eq_ok_iff,
    fun t => ⟨ofText_eq_ok_iff.2 rfl, t.parse_text⟩, fun s n => ofText_eq_invalidLength_iff,
    fun s c => ofText_eq_invalidCharacter_iff⟩
  constructor
  · rintro ⟨t, ht⟩
    have htext := text_eq_iff.1 (ofText_eq_ok_iff.1 ht)
    exact ⟨⟨t.vars, htext.length⟩, htext.digits⟩
  · rintro ⟨hlen, hdigits⟩
    cases h : ofText s with
    | ok t => exact ⟨t, rfl⟩
    | error e =>
      cases e with
      | invalidLength n => exact absurd hlen (ofText_eq_invalidLength_iff.1 h).2
      | invalidCharacter c =>
        obtain ⟨-, before, after, hsplit, hc, -⟩ := ofText_eq_invalidCharacter_iff.1 h
        exact absurd (hdigits c (hsplit ▸ List.mem_append_right _ List.mem_cons_self)) hc

end TruthTable

end DanglingBonds
