/-
# What sorting does

Sorting puts the entries of a list in order and neither adds nor loses one. The first minimum is
the earliest of the least entries.

* `perm_sortBy`, `mem_sortBy` : a sorted list has the entries it had before.
* `pairwise_sortBy`, `pairwise_sortBy_of_mem` : no entry of a sorted list precedes an earlier one.
* `exists_firstMin` : what stands before the first minimum is greater, and nothing is less.
* `eraseReps_sortBy_eq_iff` : a sorted list without repeats is a set.
* `sortBy_map`, `firstMin_map` : images under a map that keeps the order.
-/
import Mathlib
import DanglingBonds.Sorting

namespace DanglingBonds

variable {β : Type}

/-! ## The same entries -/

section Entries

variable {lt : β → β → Bool} {x y : β} {xs : List β}

theorem perm_insertBack : (insertBack lt x xs).Perm (x :: xs) := by
  induction xs with
  | nil => exact List.Perm.refl _
  | cons z zs ih =>
    rw [insertBack]
    split
    · exact (ih.cons z).trans (List.Perm.swap x z zs)
    · exact List.Perm.refl _

theorem perm_foldl_insertBack {acc : List β} :
    (xs.foldl (fun acc x => insertBack lt x acc) acc).Perm (xs ++ acc) := by
  induction xs generalizing acc with
  | nil => exact List.Perm.refl _
  | cons z zs ih =>
    rw [List.foldl_cons]
    exact ih.trans ((perm_insertBack.append_left zs).trans List.perm_middle)

/-- Sorting neither adds nor loses an entry. -/
theorem perm_sortBy : (sortBy lt xs).Perm xs := by
  rw [sortBy]
  refine (List.reverse_perm _).trans (perm_foldl_insertBack.trans ?_)
  rw [List.append_nil]

/-- A sorted list has the entries it had before. -/
theorem mem_sortBy : y ∈ sortBy lt xs ↔ y ∈ xs :=
  perm_sortBy.mem_iff

end Entries

/-! ## In order -/

section Order

variable {lt : β → β → Bool} (hasymm : ∀ a b, lt a b = true → lt b a = false)
  (htrans : ∀ a b c, lt a b = false → lt b c = false → lt a c = false)

include hasymm htrans

/-- Insertion keeps a list in order, its last entry first. -/
theorem pairwise_insertBack (x : β) {xs : List β}
    (h : xs.Pairwise fun a b => lt a b = false) :
    (insertBack lt x xs).Pairwise fun a b => lt a b = false := by
  induction xs with
  | nil => exact List.pairwise_singleton _ _
  | cons y ys ih =>
    obtain ⟨hy, hys⟩ := List.pairwise_cons.1 h
    rw [insertBack]
    cases hlt : lt x y with
    | true =>
      refine List.pairwise_cons.2 ⟨fun z hz => ?_, ih hys⟩
      rcases List.mem_cons.1 (perm_insertBack.mem_iff.1 hz) with rfl | hz
      · exact hasymm z y hlt
      · exact hy z hz
    | false =>
      refine List.pairwise_cons.2 ⟨fun z hz => ?_, h⟩
      rcases List.mem_cons.1 hz with rfl | hz
      · exact hlt
      · exact htrans x y z hlt (hy z hz)

/-- **Sorted.** No entry of a sorted list precedes an earlier one. -/
theorem pairwise_sortBy (xs : List β) :
    (sortBy lt xs).Pairwise fun a b => lt b a = false := by
  have hfold : ∀ acc : List β, (acc.Pairwise fun a b => lt a b = false) →
      (xs.foldl (fun acc x => insertBack lt x acc) acc).Pairwise fun a b => lt a b = false := by
    induction xs with
    | nil => exact fun acc h => h
    | cons x xs ih => exact fun acc h => ih _ (pairwise_insertBack hasymm htrans x h)
  exact List.pairwise_reverse.2 (hfold [] List.Pairwise.nil)

end Order

/-! ## The first minimum -/

/-- An entry that no later one precedes is the first minimum. -/
theorem firstMin_cons_of_forall {lt : β → β → Bool} {x : β} {xs : List β}
    (h : ∀ y ∈ xs, lt y x = false) : firstMin lt (x :: xs) = some x := by
  rw [firstMin]
  induction xs with
  | nil => rfl
  | cons y ys ih =>
    obtain ⟨hy, hys⟩ := List.forall_mem_cons.1 h
    rw [List.foldl_cons, hy, if_neg Bool.false_ne_true]
    exact ih hys

section FirstMin

variable {γ : Type} [LinearOrder γ] (key : β → γ) {lt : β → β → Bool}
  (hlt : ∀ a b, lt a b = true ↔ key a < key b)

include hlt

/-- The minimum so far, after more entries: it stays if none is less, and otherwise is the earliest
of the least entries. -/
theorem foldl_min_cases (xs : List β) (m : β) :
    (xs.foldl (fun m y => if lt y m then y else m) m = m ∧ ∀ y ∈ xs, key m ≤ key y) ∨
    ∃ before x after, xs = before ++ x :: after ∧
      xs.foldl (fun m y => if lt y m then y else m) m = x ∧ key x < key m ∧
      (∀ y ∈ before, key x < key y) ∧ ∀ y ∈ after, key x ≤ key y := by
  induction xs generalizing m with
  | nil => exact .inl ⟨rfl, by simp⟩
  | cons y ys ih =>
    rw [List.foldl_cons]
    split
    · rename_i hym
      rw [hlt] at hym
      rcases ih y with ⟨hy, hle⟩ | ⟨before, x, after, hys, hx, hxy, hbefore, hafter⟩
      · exact .inr ⟨[], y, ys, rfl, hy, hym, by simp, hle⟩
      · refine .inr ⟨y :: before, x, after, by rw [hys]; rfl, hx, hxy.trans hym, ?_, hafter⟩
        exact List.forall_mem_cons.2 ⟨hxy, hbefore⟩
    · rename_i hym
      rw [hlt, not_lt] at hym
      rcases ih m with ⟨hm, hle⟩ | ⟨before, x, after, hys, hx, hxm, hbefore, hafter⟩
      · exact .inl ⟨hm, List.forall_mem_cons.2 ⟨hym, hle⟩⟩
      · refine .inr ⟨y :: before, x, after, by rw [hys]; rfl, hx, hxm, ?_, hafter⟩
        exact List.forall_mem_cons.2 ⟨hxm.trans_le hym, hbefore⟩

/-- **The first minimum** of a list with entries: what stands before it is greater, and nothing
behind it is less. -/
theorem exists_firstMin {xs : List β} (h : xs ≠ []) :
    ∃ before x after, xs = before ++ x :: after ∧ firstMin lt xs = some x ∧
      (∀ y ∈ before, key x < key y) ∧ ∀ y ∈ after, key x ≤ key y := by
  obtain ⟨m, ys, rfl⟩ := List.exists_cons_of_ne_nil h
  rw [firstMin]
  rcases foldl_min_cases key hlt ys m with
    ⟨hm, hle⟩ | ⟨before, x, after, rfl, hx, hxm, hbefore, hafter⟩
  · exact ⟨[], m, ys, rfl, congrArg some hm, by simp, hle⟩
  · exact ⟨m :: before, x, after, rfl, congrArg some hx,
      List.forall_mem_cons.2 ⟨hxm, hbefore⟩, hafter⟩

end FirstMin

/-! ## Without repeats -/

section Repeats

variable [BEq β]

theorem eraseReps_cons_cons (x y : β) (ys : List β) :
    (x :: y :: ys).eraseReps
      = if x == y then (x :: ys).eraseReps else x :: (y :: ys).eraseReps := by
  -- the loop keeps what is done apart from what is left
  have hloop : ∀ (zs : List β) (z : β) (acc : List β),
      List.eraseRepsBy.loop (· == ·) z zs acc
        = acc.reverse ++ List.eraseRepsBy.loop (· == ·) z zs [] := by
    intro zs
    induction zs with
    | nil => simp [List.eraseRepsBy.loop]
    | cons w ws ih =>
      intro z acc
      simp only [List.eraseRepsBy.loop]
      split
      · exact ih z acc
      · rw [ih w (z :: acc), ih w [z]]
        simp
  show List.eraseRepsBy.loop (· == ·) x (y :: ys) [] = _
  rw [List.eraseRepsBy.loop, hloop ys y [x]]
  cases x == y with
  | true => rfl
  | false => rfl

variable [LawfulBEq β]

/-- No entry is lost. -/
theorem mem_eraseReps {x : β} {xs : List β} : x ∈ xs.eraseReps ↔ x ∈ xs := by
  have hcons : ∀ (ys : List β) (y : β), x ∈ (y :: ys).eraseReps ↔ x ∈ y :: ys := by
    intro ys
    induction ys with
    | nil => exact fun y => Iff.rfl
    | cons z zs ih =>
      intro y
      rw [eraseReps_cons_cons]
      split
      · rename_i heq
        rw [ih, ← beq_iff_eq.1 heq]
        simp
      · rw [List.mem_cons, ih, ← List.mem_cons]
  cases xs with
  | nil => rfl
  | cons y ys => exact hcons ys y

variable {γ : Type} [LinearOrder γ] {key : β → γ} (hkey : Function.Injective key)

include hkey

/-- Without repeats a list in order is strictly in order. -/
theorem pairwise_eraseReps {xs : List β} (h : xs.Pairwise fun x y => key x ≤ key y) :
    xs.eraseReps.Pairwise fun x y => key x < key y := by
  have hcons : ∀ (ys : List β) (y : β), ((y :: ys).Pairwise fun x y => key x ≤ key y) →
      (y :: ys).eraseReps.Pairwise fun x y => key x < key y := by
    intro ys
    induction ys with
    | nil => exact fun y _ => List.pairwise_singleton _ _
    | cons z zs ih =>
      intro y hyz
      obtain ⟨hy, hz⟩ := List.pairwise_cons.1 hyz
      obtain ⟨hyz, hyzs⟩ := List.forall_mem_cons.1 hy
      obtain ⟨hzs, hrest⟩ := List.pairwise_cons.1 hz
      rw [eraseReps_cons_cons]
      split
      · exact ih y (List.pairwise_cons.2 ⟨hyzs, hrest⟩)
      · rename_i hne
        have hlt : key y < key z := lt_of_le_of_ne hyz fun heq => hne (beq_iff_eq.2 (hkey heq))
        refine List.pairwise_cons.2 ⟨fun x hx => ?_, ih z hz⟩
        rcases List.mem_cons.1 (mem_eraseReps.1 hx) with rfl | hx
        · exact hlt
        · exact hlt.trans_le (hzs x hx)
  cases xs with
  | nil => exact List.Pairwise.nil
  | cons y ys => exact hcons ys y h

variable {lt : β → β → Bool} (hlt : ∀ a b, lt a b = true ↔ key a < key b)

include hlt

/-- A sorted list without repeats is strictly in order. -/
theorem pairwise_eraseReps_sortBy (xs : List β) :
    (sortBy lt xs).eraseReps.Pairwise fun x y => key x < key y := by
  have hfalse : ∀ a b, lt a b = false ↔ key b ≤ key a := fun a b => by
    rw [← Bool.not_eq_true, hlt, not_lt]
  have hsorted := pairwise_sortBy (fun a b hab => (hfalse b a).2 ((hlt a b).1 hab).le)
    (fun a b c hab hbc => (hfalse a c).2 (((hfalse b c).1 hbc).trans ((hfalse a b).1 hab))) xs
  exact pairwise_eraseReps hkey (hsorted.imp fun {a b} hab => (hfalse b a).1 hab)

/-- **Sorted lists without repeats** are equal if they have the same entries. -/
theorem eraseReps_sortBy_eq_iff {xs ys : List β} :
    (sortBy lt xs).eraseReps = (sortBy lt ys).eraseReps ↔ ∀ x, x ∈ xs ↔ x ∈ ys := by
  have hmem : ∀ (zs : List β) (x : β), x ∈ (sortBy lt zs).eraseReps ↔ x ∈ zs :=
    fun zs x => mem_eraseReps.trans mem_sortBy
  have hordered := pairwise_eraseReps_sortBy hkey hlt
  have hnodup : ∀ zs : List β, (sortBy lt zs).eraseReps.Nodup :=
    fun zs => (hordered zs).imp fun hab heq => hab.ne (congrArg key heq)
  constructor
  · intro heq x
    rw [← hmem xs, heq, hmem ys]
  · intro h
    have hperm : (sortBy lt xs).eraseReps.Perm (sortBy lt ys).eraseReps := by
      rw [List.perm_ext_iff_of_nodup (hnodup xs) (hnodup ys)]
      exact fun x => (hmem xs x).trans ((h x).trans (hmem ys x).symm)
    exact hperm.eq_of_pairwise (fun a b _ _ hab hba => absurd hba hab.asymm) (hordered xs)
      (hordered ys)

/-- More than one entry is left if two entries differ. -/
theorem one_lt_length_eraseReps_sortBy_iff {xs : List β} :
    1 < (sortBy lt xs).eraseReps.length ↔ {x | x ∈ xs}.Nontrivial := by
  have hmem : ∀ x, x ∈ (sortBy lt xs).eraseReps ↔ x ∈ xs :=
    fun x => mem_eraseReps.trans mem_sortBy
  have hordered := pairwise_eraseReps_sortBy hkey hlt xs
  constructor
  · intro hlength
    match hcase : (sortBy lt xs).eraseReps with
    | [] => simp [hcase] at hlength
    | [x] => simp [hcase] at hlength
    | x :: y :: rest =>
      rw [hcase] at hmem hordered
      have hxy := (List.pairwise_cons.1 hordered).1 y List.mem_cons_self
      exact ⟨x, (hmem x).1 (by simp), y, (hmem y).1 (by simp),
        fun heq => hxy.ne (congrArg key heq)⟩
  · rintro ⟨x, hx, y, hy, hne⟩
    have hx' := (hmem x).2 hx
    have hy' := (hmem y).2 hy
    match hcase : (sortBy lt xs).eraseReps with
    | [] => simp [hcase] at hx'
    | [z] =>
      rw [hcase, List.mem_singleton] at hx' hy'
      exact absurd (hx'.trans hy'.symm) hne
    | _ :: _ :: _ => exact Nat.one_lt_succ_succ _

end Repeats

/-! ## Images of lists -/

section Images

variable {β' : Type} {lt : β → β → Bool} {lt' : β' → β' → Bool} {f : β → β'}
  (h : ∀ a b, lt' (f a) (f b) = lt a b)

include h

theorem insertBack_map (x : β) (xs : List β) :
    insertBack lt' (f x) (xs.map f) = (insertBack lt x xs).map f := by
  induction xs with
  | nil => rfl
  | cons y ys ih =>
    rw [List.map_cons, insertBack, insertBack, h]
    split
    · rw [List.map_cons, ih]
    · rfl

/-- Sorting carries over to the images under a map that keeps the order. -/
theorem sortBy_map (xs : List β) : sortBy lt' (xs.map f) = (sortBy lt xs).map f := by
  have hfold : ∀ acc : List β,
      (xs.map f).foldl (fun acc x => insertBack lt' x acc) (acc.map f)
        = (xs.foldl (fun acc x => insertBack lt x acc) acc).map f := by
    induction xs with
    | nil => exact fun acc => rfl
    | cons x xs ih =>
      intro acc
      rw [List.map_cons, List.foldl_cons, List.foldl_cons, insertBack_map h, ih]
  rw [sortBy, sortBy, List.map_reverse, ← hfold, List.map_nil]

/-- The first minimum of a list carries over to the images under a map that keeps the order. -/
theorem firstMin_map (xs : List β) :
    firstMin lt' (xs.map f) = (firstMin lt xs).map f := by
  have hfold : ∀ (ys : List β) (m : β),
      (ys.map f).foldl (fun m y => if lt' y m then y else m) (f m)
        = f (ys.foldl (fun m y => if lt y m then y else m) m) := by
    intro ys
    induction ys with
    | nil => exact fun m => rfl
    | cons y ys ih =>
      intro m
      rw [List.map_cons, List.foldl_cons, List.foldl_cons, h, ← ih]
      split
      · rfl
      · rfl
  cases xs with
  | nil => rfl
  | cons m ys =>
    rw [List.map_cons, firstMin, firstMin, hfold]
    rfl

end Images

/-- It is enough that the entries of a list are in a strict weak order: no entry of the sorted list
precedes an earlier one. -/
theorem pairwise_sortBy_of_mem {lt : β → β → Bool} {xs : List β}
    (hasymm : ∀ a ∈ xs, ∀ b ∈ xs, lt a b = true → lt b a = false)
    (htrans : ∀ a ∈ xs, ∀ b ∈ xs, ∀ c ∈ xs, lt a b = false → lt b c = false → lt a c = false) :
    (sortBy lt xs).Pairwise fun a b => lt b a = false := by
  -- the entries with their membership are a type on which the order has both laws throughout
  have hsorted : (sortBy (fun a b : {x // x ∈ xs} => lt a b) xs.attach).Pairwise
      fun a b : {x // x ∈ xs} => lt b a = false := by
    refine pairwise_sortBy ?_ ?_ xs.attach
    · exact fun a b => hasymm a a.2 b b.2
    · exact fun a b c => htrans a a.2 b b.2 c c.2
  have hmap : sortBy lt (xs.attach.map Subtype.val)
      = (sortBy (fun a b : {x // x ∈ xs} => lt a b) xs.attach).map Subtype.val :=
    sortBy_map (fun _ _ => rfl) _
  rw [List.attach_map_subtype_val] at hmap
  rw [hmap, List.pairwise_map]
  exact hsorted

end DanglingBonds
