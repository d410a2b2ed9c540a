/-
# Comparing by one thing, then by another

Candidates, pairs and the cells of a pair are all compared in the same way: by one number, where
that ties by the next, and so on. Such a comparison is a strict weak order as long as each number is
compared like one, which holds for all numbers that a distance or a position can be.

* `IsWeakOrderOn` : a strict weak order on some values.
* `IsWeakOrderOn.exists_rank` : finitely many values are ordered like their ranks.
* `exists_firstMin_of_isWeakOrderOn` : the first minimum of values in a weak order.
* `ThenBy` : one comparison, and where it ties another.
* `Comparable` : scalars that compare like numbers.
* `Site.before_or_before` : of two cells of different rank one comes first.
-/
import Mathlib
import DanglingBonds.Site
import DanglingBonds.Proofs.ExactScalar
import DanglingBonds.Proofs.StableSorting

namespace DanglingBonds

variable {β : Type}

/-! ## Weak orders -/

/-- A strict order on `xs` in which values that tie with a third tie with each other. -/
structure IsWeakOrderOn (xs : Set β) (r : β → β → Prop) : Prop where
  asymm : ∀ a ∈ xs, ∀ b ∈ xs, r a b → ¬ r b a
  not_trans : ∀ a ∈ xs, ∀ b ∈ xs, ∀ c ∈ xs, ¬ r a b → ¬ r b c → ¬ r a c

namespace IsWeakOrderOn

variable {xs : Set β} {r s : β → β → Prop}

/-- Nothing comes before itself. -/
theorem irrefl (h : IsWeakOrderOn xs r) {a : β} (ha : a ∈ xs) : ¬ r a a :=
  fun haa => h.asymm a ha a ha haa haa

/-- What comes before a value comes before everything that ties with it. -/
theorem of_lt_of_tie (h : IsWeakOrderOn xs r) {a b c : β} (ha : a ∈ xs) (hb : b ∈ xs) (hc : c ∈ xs)
    (hab : r a b) (hcb : ¬ r c b) : r a c := by
  by_contra hac
  exact h.not_trans a ha c hc b hb hac hcb hab

/-- What ties with a value comes before everything that comes after it. -/
theorem of_tie_of_lt (h : IsWeakOrderOn xs r) {a b c : β} (ha : a ∈ xs) (hb : b ∈ xs) (hc : c ∈ xs)
    (hba : ¬ r b a) (hbc : r b c) : r a c := by
  by_contra hac
  exact h.not_trans b hb a ha c hc hba hac hbc

/-- What comes before a value comes before everything that comes after it. -/
theorem trans (h : IsWeakOrderOn xs r) {a b c : β} (ha : a ∈ xs) (hb : b ∈ xs) (hc : c ∈ xs)
    (hab : r a b) (hbc : r b c) : r a c :=
  h.of_lt_of_tie ha hb hc hab (h.asymm b hb c hc hbc)

end IsWeakOrderOn

/-- A weak order on the images of some values is one on the values. -/
theorem IsWeakOrderOn.comap {γ : Type} {ys : Set γ} {r : γ → γ → Prop} (h : IsWeakOrderOn ys r)
    {f : β → γ} {xs : Set β} (hf : ∀ a ∈ xs, f a ∈ ys) :
    IsWeakOrderOn xs fun a b => r (f a) (f b) where
  asymm a ha b hb := h.asymm (f a) (hf a ha) (f b) (hf b hb)
  not_trans a ha b hb c hc := h.not_trans (f a) (hf a ha) (f b) (hf b hb) (f c) (hf c hc)

/-- Sorting puts values of a weak order in order. -/
theorem pairwise_sortBy_of_isWeakOrderOn {lt : β → β → Bool} {r : β → β → Prop}
    (hlt : ∀ a b, lt a b = true ↔ r a b) {xs : List β}
    (h : IsWeakOrderOn {x | x ∈ sortBy lt xs} r) :
    (sortBy lt xs).Pairwise fun a b => ¬ r b a := by
  have hmem : ∀ x ∈ xs, x ∈ sortBy lt xs := fun x => mem_sortBy.2
  have hnot : ∀ a b, lt a b = false ↔ ¬ r a b := fun a b => by rw [← hlt, Bool.not_eq_true]
  have hsorted : (sortBy lt xs).Pairwise fun a b => lt b a = false := by
    refine pairwise_sortBy_of_mem (fun a ha b hb hab => ?_) fun a ha b hb c hc hab hbc => ?_
    · exact (hnot b a).2 (h.asymm a (hmem a ha) b (hmem b hb) ((hlt a b).1 hab))
    · exact (hnot a c).2 (h.not_trans a (hmem a ha) b (hmem b hb) c (hmem c hc)
        ((hnot a b).1 hab) ((hnot b c).1 hbc))
  exact hsorted.imp fun {a b} => (hnot b a).1

/-- **Ranks.** A weak order on finitely many values is the order of their ranks: a value is ranked
by the number of values that come before it. -/
theorem IsWeakOrderOn.exists_rank {xs : List β} {r : β → β → Prop}
    (h : IsWeakOrderOn {x | x ∈ xs} r) :
    ∃ rank : β → ℕ, ∀ a ∈ xs, ∀ b ∈ xs, r a b ↔ rank a < rank b := by
  classical
  have hmem : ∀ a x, x ∈ xs.toFinset.filter (r · a) ↔ x ∈ xs ∧ r x a := by
    intro a x
    rw [Finset.mem_filter, List.mem_toFinset]
  refine ⟨fun a => (xs.toFinset.filter (r · a)).card, fun a ha b hb =>
    ⟨fun hab => ?_, fun hlt => ?_⟩⟩
  · -- what comes before `a` comes before `b`, and so does `a` itself
    refine Finset.card_lt_card ((Finset.ssubset_iff_of_subset fun x hx => ?_).2 ⟨a, ?_, ?_⟩)
    · obtain ⟨hx, hxa⟩ := (hmem a x).1 hx
      exact (hmem b x).2 ⟨hx, h.trans hx ha hb hxa hab⟩
    · exact (hmem b a).2 ⟨ha, hab⟩
    · exact fun haa => h.irrefl ha ((hmem a a).1 haa).2
  · by_contra hab
    refine absurd hlt (not_lt.2 (Finset.card_le_card fun x hx => ?_))
    obtain ⟨hx, hxb⟩ := (hmem b x).1 hx
    exact (hmem a x).2 ⟨hx, h.of_lt_of_tie hx hb ha hxb hab⟩

/-- **The first minimum** of values in a weak order: it comes before what stands before it, and
nothing behind it comes before it. -/
theorem exists_firstMin_of_isWeakOrderOn {lt : β → β → Bool} {r : β → β → Prop}
    (hlt : ∀ a b, lt a b = true ↔ r a b) {xs : List β} (h : IsWeakOrderOn {x | x ∈ xs} r)
    (hne : xs ≠ []) :
    ∃ before x after, xs = before ++ x :: after ∧ firstMin lt xs = some x ∧
      (∀ y ∈ before, r x y) ∧ ∀ y ∈ after, ¬ r y x := by
  obtain ⟨rank, hrank⟩ := h.exists_rank
  have hne' : xs.attach ≠ [] := fun hnil => hne (List.attach_eq_nil_iff.1 hnil)
  -- the entries with their membership are a type that is ordered by rank throughout
  have hlt' : ∀ a b : {x // x ∈ xs}, lt a b = true ↔ rank a < rank b := fun a b =>
    (hlt a b).trans (hrank a a.2 b b.2)
  obtain ⟨before, x, after, heq, hmin, hbefore, hafter⟩ :=
    exists_firstMin (fun a : {x // x ∈ xs} => rank a) hlt' hne'
  have hmap : firstMin lt (xs.attach.map Subtype.val)
      = (firstMin (fun a b : {x // x ∈ xs} => lt a b) xs.attach).map Subtype.val :=
    firstMin_map (fun _ _ => rfl) _
  rw [List.attach_map_subtype_val, hmin] at hmap
  refine ⟨before.map Subtype.val, x, after.map Subtype.val, ?_, hmap, ?_, ?_⟩
  · rw [← List.map_cons (f := Subtype.val), ← List.map_append, ← heq, List.attach_map_subtype_val]
  · exact List.forall_mem_map.2 fun y hy => (hrank x x.2 y y.2).2 (hbefore y hy)
  · exact List.forall_mem_map.2 fun y hy hyx => (hafter y hy).not_gt ((hrank y y.2 x x.2).1 hyx)

/-! ## One comparison, then another -/

/-- `r` decides, and where it ties `s` does. -/
def ThenBy (r s : β → β → Prop) (a b : β) : Prop :=
  r a b ∨ ¬ r b a ∧ s a b

/-- The two comparisons as a chain of tests. -/
theorem thenBy_iff_ite {r s : β → β → Prop} {a b : β} [Decidable (r a b)] [Decidable (r b a)]
    {t : Bool} (ht : s a b ↔ t = true) :
    ThenBy r s a b ↔ (if r a b then true else if r b a then false else t) = true := by
  unfold ThenBy
  split
  · rename_i hab
    exact iff_of_true (.inl hab) rfl
  · rename_i hab
    split
    · rename_i hba
      refine iff_of_false ?_ Bool.false_ne_true
      rintro (h | ⟨h, -⟩)
      · exact hab h
      · exact h hba
    · rename_i hba
      rw [← ht, or_iff_right hab, and_iff_right hba]

/-- One weak order after another is a weak order. -/
theorem IsWeakOrderOn.thenBy {xs : Set β} {r s : β → β → Prop} (hr : IsWeakOrderOn xs r)
    (hs : IsWeakOrderOn xs s) : IsWeakOrderOn xs (ThenBy r s) where
  asymm a ha b hb := by
    rintro (hab | ⟨hba, hsab⟩) (h | ⟨h, hsba⟩)
    · exact hr.asymm a ha b hb hab h
    · exact h hab
    · exact hba h
    · exact hs.asymm a ha b hb hsab hsba
  not_trans a ha b hb c hc := by
    intro hab hbc
    obtain ⟨hrab, hab⟩ := not_or.1 hab
    obtain ⟨hrbc, hbc⟩ := not_or.1 hbc
    have hrac := hr.not_trans a ha b hb c hc hrab hrbc
    rintro (h | ⟨hrca, hsac⟩)
    · exact hrac h
    -- where `r` ties for `a` and `c` it ties for `b` as well, so `s` decides all three
    · have hrba : ¬ r b a := fun h => hrca (hr.of_tie_of_lt hc hb ha hrbc h)
      have hrcb : ¬ r c b := fun h => hrca (hr.of_lt_of_tie hc hb ha h hrab)
      exact hs.not_trans a ha b hb c hc (fun h => hab ⟨hrba, h⟩) (fun h => hbc ⟨hrcb, h⟩) hsac

/-- If nothing ties under the second comparison, nothing ties under both. -/
theorem thenBy_or_thenBy {r s : β → β → Prop} {a b : β} (h : s a b ∨ s b a) :
    ThenBy r s a b ∨ ThenBy r s b a := by
  unfold ThenBy
  tauto

/-! ## What is compared -/

/-- Scalars that compare like numbers: `<` is a strict weak order on them, and `≤` is what it
leaves. All scalars a program meets do, other than those that are not numbers. -/
structure Comparable {α : Type} [Scalar α] (values : Set α) : Prop where
  isWeakOrderOn : IsWeakOrderOn values fun a b => a < b
  le_iff_not_lt : ∀ a ∈ values, ∀ b ∈ values, a ≤ b ↔ ¬ b < a

/-- Real numbers compare. -/
theorem comparable_real (values : Set ℝ) : Comparable values where
  isWeakOrderOn :=
    { asymm := fun _ _ _ _ hab => hab.asymm
      not_trans := fun _ _ _ _ _ _ hab hbc => not_lt.2 ((not_lt.1 hbc).trans (not_lt.1 hab)) }
  le_iff_not_lt := fun _ _ _ _ => not_lt.symm

namespace Site

/-- The order of sites is a weak one. -/
theorem isWeakOrderOn_before (sites : Set Site) : IsWeakOrderOn sites Before where
  asymm a _ b _ hab := by
    unfold Before RankBefore at *
    omega
  not_trans a _ b _ c _ hab hbc := by
    unfold Before RankBefore at *
    omega

/-- Of two sites of different rank one comes first. -/
theorem before_or_before {a b : Site} (h : Ranked.rank a ≠ Ranked.rank b) :
    a.Before b ∨ b.Before a := by
  by_cases hab : a.Before b
  · exact .inl hab
  · exact .inr ((rankBefore_or_eq_of_not hab).resolve_right h)

end Site

end DanglingBonds
