/-
# What tables hold

The entries of a table have different ranks, so a key finds one entry at most, and an entry of a new
rank is added without touching the others.

* `Table.get?_eq_some_iff` : the value of a key is that of the entry with its rank.
* `Table.get?_insert`, `Table.get?_erase` : one value is set or dropped.
* `Table.perm_entries_insert` : an entry of a new rank is added to the others.
* `Table.size_erase`, `Table.mem_keys_erase` : one key is erased.
* `Table.eq_of_perm` : a table is determined by its entries, in whatever order they came.
-/
import Mathlib
import DanglingBonds.Table

namespace DanglingBonds

open Ranked

variable {κ β : Type} [Ranked κ]

theorem RankBefore.ne {a b : Int × Int} (h : RankBefore a b) : a ≠ b := by
  rintro rfl
  unfold RankBefore at h
  omega

namespace Table

/-- Entries of a table with the same rank are the same entry. -/
theorem eq_of_rank_eq (t : Table κ β) {e e' : κ × β} (he : e ∈ t.entries) (he' : e' ∈ t.entries)
    (hrank : rank e.1 = rank e'.1) : e = e' := by
  by_contra hne
  have hdistinct : t.entries.Pairwise fun a b => rank a.1 ≠ rank b.1 :=
    t.sorted.imp RankBefore.ne
  have hsymm : Std.Symm fun a b : κ × β => rank a.1 ≠ rank b.1 :=
    ⟨fun _ _ h => h.symm⟩
  exact hdistinct.forall he he' hne hrank

/-- Keys of a table with the same rank are the same key. -/
theorem eq_of_mem_keys (t : Table κ β) {k k' : κ} (hk : k ∈ t.keys) (hk' : k' ∈ t.keys)
    (hrank : rank k = rank k') : k = k' := by
  obtain ⟨e, he, rfl⟩ := List.mem_map.1 hk
  obtain ⟨e', he', rfl⟩ := List.mem_map.1 hk'
  rw [t.eq_of_rank_eq he he' hrank]

/-- A key has the value of the entry with its rank. -/
theorem get?_eq_some_iff {t : Table κ β} {k : κ} {v : β} :
    t.get? k = some v ↔ ∃ e ∈ t.entries, rank e.1 = rank k ∧ e.2 = v := by
  rw [Table.get?, Option.map_eq_some_iff]
  constructor
  · rintro ⟨e, he, rfl⟩
    exact ⟨e, List.mem_of_find?_eq_some he, of_decide_eq_true (List.find?_some he :), rfl⟩
  · rintro ⟨e, he, hrank, rfl⟩
    have hfound : (t.entries.find? fun e => decide (rank e.1 = rank k)).isSome := by
      rw [List.find?_isSome]
      exact ⟨e, he, decide_eq_true hrank⟩
    obtain ⟨e', he'⟩ := Option.isSome_iff_exists.1 hfound
    have hrank' : rank e'.1 = rank k := of_decide_eq_true (List.find?_some he' :)
    have heq := t.eq_of_rank_eq (List.mem_of_find?_eq_some he') he (hrank'.trans hrank.symm)
    exact ⟨e', he', congrArg Prod.snd heq⟩

/-- A key is in a table if an entry has its rank. -/
theorem contains_iff {t : Table κ β} {k : κ} :
    t.contains k = true ↔ ∃ e ∈ t.entries, rank e.1 = rank k := by
  rw [Table.contains, Option.isSome_iff_exists]
  simp only [get?_eq_some_iff]
  constructor
  · rintro ⟨_, e, he, hrank, -⟩
    exact ⟨e, he, hrank⟩
  · rintro ⟨e, he, hrank⟩
    exact ⟨e.2, e, he, hrank, rfl⟩

end Table

/-- In a list of entries, the first of a rank after an insertion. -/
theorem find?_insertEntry (k k' : κ) (v : β) (entries : List (κ × β)) :
    ((insertEntry k v entries).find? fun e => decide (rank e.1 = rank k')).map (·.2)
      = if rank k = rank k' then some v
        else (entries.find? fun e => decide (rank e.1 = rank k')).map (·.2) := by
  induction entries with
  | nil => by_cases h : rank k = rank k' <;> simp [insertEntry, h]
  | cons e rest ih =>
    rw [insertEntry]
    split
    · by_cases h : rank k = rank k' <;> simp [h]
    · rename_i hnot
      split
      · rename_i hbefore
        by_cases he : rank e.1 = rank k'
        · have hk : rank k ≠ rank k' := fun hk => hbefore.ne (he.trans hk.symm)
          simp [he, hk]
        · simp only [List.find?_cons_of_neg, decide_eq_true_eq, he, not_false_eq_true, ih]
      · rename_i hnot'
        have heq : rank e.1 = rank k := (rankBefore_or_eq_of_not hnot').resolve_left hnot
        by_cases h : rank k = rank k' <;> simp [heq, h]

/-- After an insertion the key has the new value, any other key the value it had. -/
theorem Table.get?_insert (t : Table κ β) (k k' : κ) (v : β) :
    (t.insert k v).get? k' = if rank k = rank k' then some v else t.get? k' :=
  find?_insertEntry k k' v t.entries

/-- An erased key has no value, any other key the value it had. -/
theorem Table.get?_erase (t : Table κ β) (k k' : κ) :
    (t.erase k).get? k' = if rank k = rank k' then none else t.get? k' := by
  rw [Table.get?, Table.get?, Table.erase, List.find?_filter]
  split_ifs with h
  · rw [Option.map_eq_none_iff, List.find?_eq_none]
    intro e _
    simp [h]
  · congr 2
    funext e
    by_cases he : rank e.1 = rank k'
    · simp [he, Ne.symm h]
    · simp [he]

/-- In a list of entries, one of a new rank is added to the others. -/
theorem perm_insertEntry {k : κ} {v : β} {entries : List (κ × β)}
    (h : ∀ e ∈ entries, rank e.1 ≠ rank k) :
    (insertEntry k v entries).Perm ((k, v) :: entries) := by
  induction entries with
  | nil => exact List.Perm.refl _
  | cons e rest ih =>
    obtain ⟨he, hrest⟩ := List.forall_mem_cons.1 h
    rw [insertEntry]
    split
    · exact List.Perm.refl _
    · rename_i hbefore
      rw [if_pos ((rankBefore_or_eq_of_not hbefore).resolve_right (Ne.symm he))]
      exact ((ih hrest).cons e).trans (List.Perm.swap _ _ _)

/-- After an insertion an entry has the new value or one that was there. -/
theorem snd_mem_insertEntry {k : κ} {v : β} {entries : List (κ × β)} {e : κ × β}
    (h : e ∈ insertEntry k v entries) : e.2 = v ∨ ∃ e' ∈ entries, e'.2 = e.2 := by
  induction entries with
  | nil => exact .inl (congrArg Prod.snd (List.mem_singleton.1 h))
  | cons a rest ih =>
    rw [insertEntry] at h
    split at h
    · rcases List.mem_cons.1 h with rfl | h
      · exact .inl rfl
      · exact .inr ⟨e, h, rfl⟩
    · split at h
      · rcases List.mem_cons.1 h with rfl | h
        · exact .inr ⟨e, List.mem_cons_self, rfl⟩
        · rcases ih h with heq | ⟨e', he', heq⟩
          · exact .inl heq
          · exact .inr ⟨e', List.mem_cons_of_mem a he', heq⟩
      · rcases List.mem_cons.1 h with rfl | h
        · exact .inl rfl
        · exact .inr ⟨e, List.mem_cons_of_mem a h, rfl⟩

/-- An entry of a new rank is added to the others. -/
theorem Table.perm_entries_insert {t : Table κ β} {k : κ} (v : β) (h : t.contains k = false) :
    (t.insert k v).entries.Perm ((k, v) :: t.entries) := by
  refine perm_insertEntry fun e he hrank => ?_
  rw [Table.contains_iff.2 ⟨e, he, hrank⟩] at h
  cases h

/-- An entry that is dropped from an ascending list is one of it. -/
theorem length_filter_rank_ne {entries : List (κ × β)} (hsorted : Ascending entries) {e : κ × β}
    (he : e ∈ entries) :
    (entries.filter fun e' => !decide (rank e'.1 = rank e.1)).length + 1 = entries.length := by
  induction entries with
  | nil => cases he
  | cons a rest ih =>
    obtain ⟨ha, hrest⟩ := List.pairwise_cons.1 hsorted
    rcases List.mem_cons.1 he with rfl | he
    · have hkept : ∀ e' ∈ rest, (!decide (rank e'.1 = rank e.1)) = true := fun e' he' => by
        rw [decide_eq_false (ha e' he').ne.symm, Bool.not_false]
      rw [List.filter_cons_of_neg (by simp), List.filter_eq_self.2 hkept, List.length_cons]
    · have hkept : (!decide (rank a.1 = rank e.1)) = true := by
        rw [decide_eq_false (ha e he).ne, Bool.not_false]
      rw [List.filter_cons, if_pos hkept, List.length_cons, List.length_cons, ih hrest he]

/-- A key that is in a table is erased from it, and no other. -/
theorem Table.size_erase {t : Table κ β} {k : κ} (hk : k ∈ t.keys) :
    (t.erase k).size + 1 = t.size := by
  obtain ⟨e, he, rfl⟩ := List.mem_map.1 hk
  exact length_filter_rank_ne t.sorted he

/-- The keys that are left are those of other ranks. -/
theorem Table.mem_keys_erase {t : Table κ β} {k k' : κ} :
    k' ∈ (t.erase k).keys ↔ k' ∈ t.keys ∧ rank k' ≠ rank k := by
  rw [Table.keys, Table.keys, Table.erase, List.mem_map, List.mem_map]
  constructor
  · rintro ⟨e, he, rfl⟩
    obtain ⟨he, hrank⟩ := List.mem_filter.1 he
    rw [Bool.not_eq_true', decide_eq_false_iff_not] at hrank
    exact ⟨⟨e, he, rfl⟩, hrank⟩
  · rintro ⟨⟨e, he, rfl⟩, hrank⟩
    refine ⟨e, List.mem_filter.2 ⟨he, ?_⟩, rfl⟩
    rw [decide_eq_false hrank, Bool.not_false]

/-- A table is determined by its entries, in whatever order they came. -/
theorem Table.eq_of_perm {t t' : Table κ β} (h : t.entries.Perm t'.entries) : t = t' := by
  have hasymm : ∀ a b : κ × β, RankBefore (rank a.1) (rank b.1) →
      ¬ RankBefore (rank b.1) (rank a.1) := by
    intro a b hab hba
    unfold RankBefore at hab hba
    omega
  rcases t with ⟨entries, hsorted⟩
  rcases t' with ⟨entries', hsorted'⟩
  obtain rfl : entries = entries' :=
    h.eq_of_pairwise (fun a b _ _ hab hba => absurd hba (hasymm a b hab)) hsorted hsorted'
  rfl

end DanglingBonds
