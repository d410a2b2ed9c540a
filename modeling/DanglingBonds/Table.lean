/-
# Ordered tables

A table maps keys to values and lists its entries in ascending order of a pair of integers that
every key has. Two keys with the same pair are the same entry: a later assignment replaces the value
and the key written first stays.

* `Table.sorted` : the entries are strictly ascending, by construction.
-/
namespace DanglingBonds

/-- Keys ordered by a pair of integers, the first more significant. -/
class Ranked (κ : Type) where
  rank : κ → Int × Int

/-- The strict lexicographic order of ranks. -/
def RankBefore (a b : Int × Int) : Prop :=
  a.1 < b.1 ∨ (a.1 = b.1 ∧ a.2 < b.2)

instance (a b : Int × Int) : Decidable (RankBefore a b) :=
  inferInstanceAs (Decidable (_ ∨ _))

theorem RankBefore.trans {a b c : Int × Int} (h : RankBefore a b) (h' : RankBefore b c) :
    RankBefore a c := by
  unfold RankBefore at *; omega

/-- Of two ranks that are not in order the second comes first, or they are equal. -/
theorem rankBefore_or_eq_of_not {a b : Int × Int} (h : ¬ RankBefore a b) :
    RankBefore b a ∨ a = b := by
  rcases a with ⟨a₁, a₂⟩
  rcases b with ⟨b₁, b₂⟩
  simp only [RankBefore, Prod.mk.injEq] at *
  omega

section Entries

variable {κ β : Type} [Ranked κ]

open Ranked

/-- Sets the value of `k` in an ascending list of entries. -/
def insertEntry (k : κ) (v : β) : List (κ × β) → List (κ × β)
  | [] => [(k, v)]
  | e :: rest =>
    if RankBefore (rank k) (rank e.1) then (k, v) :: e :: rest
    else if RankBefore (rank e.1) (rank k) then e :: insertEntry k v rest
    else (e.1, v) :: rest

/-- Strictly ascending in the order of ranks. -/
def Ascending (entries : List (κ × β)) : Prop :=
  entries.Pairwise fun a b => RankBefore (rank a.1) (rank b.1)

/-- The keys after an insertion: those before it, and a key ranked like the inserted one. -/
theorem rank_mem_insertEntry {k : κ} {v : β} {entries : List (κ × β)} {e : κ × β}
    (h : e ∈ insertEntry k v entries) :
    rank e.1 = rank k ∨ ∃ e' ∈ entries, rank e'.1 = rank e.1 := by
  induction entries with
  | nil => simp only [insertEntry, List.mem_singleton] at h; simp [h]
  | cons a rest ih =>
    simp only [insertEntry] at h
    split at h
    · rcases List.mem_cons.1 h with rfl | h
      · exact .inl rfl
      · exact .inr ⟨e, h, rfl⟩
    · split at h
      · rcases List.mem_cons.1 h with rfl | h
        · exact .inr ⟨_, List.mem_cons_self, rfl⟩
        · rcases ih h with h | ⟨e', he', h⟩
          · exact .inl h
          · exact .inr ⟨e', List.mem_cons_of_mem _ he', h⟩
      · rcases List.mem_cons.1 h with rfl | h
        · exact .inr ⟨a, List.mem_cons_self, rfl⟩
        · exact .inr ⟨e, List.mem_cons_of_mem _ h, rfl⟩

/-- Insertion keeps a list of entries ascending. -/
theorem Ascending.insertEntry {entries : List (κ × β)} (h : Ascending entries) (k : κ) (v : β) :
    Ascending (insertEntry k v entries) := by
  induction entries with
  | nil => exact List.pairwise_singleton _ _
  | cons a rest ih =>
    obtain ⟨ha, hrest⟩ := List.pairwise_cons.1 h
    simp only [DanglingBonds.insertEntry]
    split
    · rename_i hk
      refine List.pairwise_cons.2 ⟨fun e he => ?_, h⟩
      rcases List.mem_cons.1 he with rfl | he
      · exact hk
      · exact hk.trans (ha e he)
    · split
      · rename_i hk
        refine List.pairwise_cons.2 ⟨fun e he => ?_, ih hrest⟩
        rcases rank_mem_insertEntry he with h | ⟨e', he', h⟩
        · rw [h]; exact hk
        · rw [← h]; exact ha e' he'
      · exact List.pairwise_cons.2 ⟨ha, hrest⟩

end Entries

/-- A map from keys to values, listed in ascending order of the keys' ranks. -/
structure Table (κ β : Type) [Ranked κ] where
  entries : List (κ × β) := []
  sorted : Ascending entries := by exact List.Pairwise.nil

namespace Table

open Ranked

variable {κ β : Type} [Ranked κ]

instance : Inhabited (Table κ β) := ⟨{}⟩

/-- Sets the value of `k`. -/
def insert (t : Table κ β) (k : κ) (v : β) : Table κ β :=
  ⟨insertEntry k v t.entries, t.sorted.insertEntry k v⟩

/-- Drops the entry of `k`, if there is one. -/
def erase (t : Table κ β) (k : κ) : Table κ β :=
  ⟨t.entries.filter fun e => !decide (rank e.1 = rank k), t.sorted.filter _⟩

/-- The value of `k`. -/
def get? (t : Table κ β) (k : κ) : Option β :=
  (t.entries.find? fun e => decide (rank e.1 = rank k)).map (·.2)

def contains (t : Table κ β) (k : κ) : Bool :=
  (t.get? k).isSome

def size (t : Table κ β) : Nat :=
  t.entries.length

def isEmpty (t : Table κ β) : Bool :=
  t.entries.isEmpty

def keys (t : Table κ β) : List κ :=
  t.entries.map (·.1)

def values (t : Table κ β) : List β :=
  t.entries.map (·.2)

end Table

end DanglingBonds
