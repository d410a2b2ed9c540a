/-
# Input combinations

The combinations of `k` input pairs are the numbers below `2 ^ k`, and each bit decides which cell
of its pair is left. As no two pairs share a cell, the cells that go are `k` different ones whatever
the bits are, and the cells that are left tell the bits.

* `InputTerminals.allFrom_eq` : the iteration meets every combination once, in order.
* `Layout.HasPairs` : the cells of some pairs are in a layout, and they are all different.
* `Layout.EncodesInputs`, `encodesInputs_ofLayout` : the layouts encode the combinations.
-/
import Mathlib
import DanglingBonds.Proofs.PairDetection

namespace DanglingBonds

variable {α : Type}

/-! ## The iteration -/

namespace InputTerminals

variable {t : InputTerminals α} {current : ℕ}

/-- Among the combinations the iteration yields the current one and goes on behind it. -/
theorem allFrom_of_lt (h : current < t.combinations) :
    t.allFrom current = (current, t.layoutFor current) :: t.allFrom (current + 1) := by
  have hstep := next?_eq_some_iff.2 ⟨h, rfl, rfl⟩
  rw [allFrom]
  split
  · rename_i hnone
    rw [hnone] at hstep
    cases hstep
  · rename_i item next hsome
    rw [hsome] at hstep
    cases hstep
    rfl

/-- Behind them it yields nothing. -/
theorem allFrom_of_le (h : t.combinations ≤ current) : t.allFrom current = [] := by
  rw [allFrom]
  split
  · rfl
  · rename_i hsome
    exact absurd (next?_eq_some_iff.1 hsome).1 (not_lt.2 h)

/-- The iteration meets all combinations from the current one on, each once and in order. -/
theorem allFrom_eq (n : ℕ) (h : t.combinations = current + n) :
    t.allFrom current = (List.range' current n).map fun i => (i, t.layoutFor i) := by
  induction n generalizing current with
  | zero => exact allFrom_of_le h.le
  | succ n ih =>
    rw [allFrom_of_lt (by omega), ih (by omega), List.range'_succ, List.map_cons]

end InputTerminals

/-! ## One cell of every pair -/

/-- The cell that is left. -/
def Pair.kept (p : Pair) (bit : Bool) : Site :=
  if bit then p.lower else p.upper

theorem Pair.removed_mem (p : Pair) (bit : Bool) : p.removed bit ∈ p.sites := by
  cases bit
  · exact List.mem_pair.2 (.inr rfl)
  · exact List.mem_pair.2 (.inl rfl)

theorem Pair.kept_mem (p : Pair) (bit : Bool) : p.kept bit ∈ p.sites := by
  cases bit
  · exact List.mem_pair.2 (.inl rfl)
  · exact List.mem_pair.2 (.inr rfl)

theorem Pair.kept_not (p : Pair) (bit : Bool) : p.kept (!bit) = p.removed bit := by
  cases bit
  · rfl
  · rfl

section Pairs

variable {l : Layout α} {p : Pair} {ps : List Pair} {index : ℕ}

/-- Only the lowest bits count. -/
theorem setPairs_mod {n : ℕ} (h : ps.length ≤ n) :
    InputTerminals.setPairs (index % 2 ^ n) ps l = InputTerminals.setPairs index ps l := by
  induction ps generalizing l with
  | nil => rfl
  | cons p ps ih =>
    rw [List.length_cons] at h
    have hbit : (index % 2 ^ n).testBit ps.length = index.testBit ps.length := by
      rw [Nat.testBit_mod_two_pow, decide_eq_true (by omega : ps.length < n), Bool.true_and]
    rw [InputTerminals.setPairs, InputTerminals.setPairs, hbit]
    exact ih (by omega)

/-- The cells of some pairs are in a layout, and they are all different. -/
structure Layout.HasPairs (l : Layout α) (ps : List Pair) : Prop where
  present : ∀ p ∈ ps, ∀ s ∈ p.sites, s ∈ l.sites
  apart : ∀ p ∈ ps, p.upper ≠ p.lower
  disjoint : ps.Pairwise fun p p' => ¬ Overlap p.sites p'.sites

/-- The cells after some pairs have been set. -/
theorem mem_sites_setPairs_iff {s : Site} :
    s ∈ (InputTerminals.setPairs index ps l).sites ↔
      s ∈ l.sites ∧ ∀ q : Fin ps.length, Ranked.rank s ≠
        Ranked.rank ((ps.get q).removed (index.testBit (ps.length - 1 - q))) := by
  rw [Layout.sites, Layout.sites, Table.keys, Table.keys, List.mem_map, List.mem_map]
  constructor
  · rintro ⟨e, he, rfl⟩
    obtain ⟨he, hremoved⟩ := mem_entries_setPairs_iff.1 he
    exact ⟨⟨e, he, rfl⟩, hremoved⟩
  · rintro ⟨⟨e, he, rfl⟩, hremoved⟩
    exact ⟨e, mem_entries_setPairs_iff.2 ⟨he, hremoved⟩, rfl⟩

namespace Layout.HasPairs

/-- When a pair is set, the cells of the others stay. -/
theorem removeCell (h : l.HasPairs (p :: ps)) {s : Site} (hs : s ∈ p.sites) :
    (l.removeCell s).HasPairs ps where
  present p' hp' s' hs' := by
    have hmem := h.present p' (List.mem_cons_of_mem p hp') s' hs'
    refine Table.mem_keys_erase.2 ⟨hmem, fun hrank => ?_⟩
    exact (List.pairwise_cons.1 h.disjoint).1 p' hp' ⟨s, hs, s', hs', hrank.symm⟩
  apart p' hp' := h.apart p' (List.mem_cons_of_mem p hp')
  disjoint := (List.pairwise_cons.1 h.disjoint).2

/-- One cell goes for each pair. -/
theorem size_setPairs (h : l.HasPairs ps) :
    (InputTerminals.setPairs index ps l).size + ps.length = l.size := by
  induction ps generalizing l with
  | nil => rfl
  | cons p ps ih =>
    have hmem := p.removed_mem (index.testBit ps.length)
    have hsize : (l.removeCell (p.removed (index.testBit ps.length))).size + 1 = l.size :=
      Table.size_erase (h.present p List.mem_cons_self _ hmem)
    rw [List.length_cons, ← hsize, ← ih (h.removeCell hmem), add_assoc]
    rfl

/-- Pairs that share a cell are one. -/
theorem eq_of_overlap (h : l.HasPairs ps) {q q' : Fin ps.length}
    (hoverlap : Overlap (ps.get q).sites (ps.get q').sites) : q = q' := by
  have hdisjoint := List.pairwise_iff_get.1 h.disjoint
  rcases lt_trichotomy q q' with hlt | heq | hlt
  · exact absurd hoverlap (hdisjoint q q' hlt)
  · exact heq
  · exact absurd hoverlap.symm (hdisjoint q' q hlt)

theorem removed_notMem (l : Layout α) (index : ℕ) (ps : List Pair) (q : Fin ps.length) :
    (ps.get q).removed (index.testBit (ps.length - 1 - q)) ∉
      (InputTerminals.setPairs index ps l).sites :=
  fun hmem => (mem_sites_setPairs_iff.1 hmem).2 q rfl

theorem kept_mem (h : l.HasPairs ps) (index : ℕ) (q : Fin ps.length) :
    (ps.get q).kept (index.testBit (ps.length - 1 - q)) ∈
      (InputTerminals.setPairs index ps l).sites := by
  have hpair := ps.get_mem q
  refine mem_sites_setPairs_iff.2 ⟨h.present _ hpair _ (Pair.kept_mem _ _), fun q' hrank => ?_⟩
  -- a removed cell of this rank would be one of the same pair
  obtain rfl := h.eq_of_overlap ⟨_, Pair.kept_mem _ _, _, Pair.removed_mem _ _, hrank⟩
  have heq := l.cells.eq_of_mem_keys (h.present _ hpair _ (Pair.kept_mem _ _))
    (h.present _ hpair _ (Pair.removed_mem _ _)) hrank
  unfold Pair.kept Pair.removed at heq
  split at heq
  · exact h.apart _ hpair heq.symm
  · exact h.apart _ hpair heq

/-- Of each pair the cell that its bit keeps is left, and the other is not. -/
theorem kept_mem_iff (h : l.HasPairs ps) (q : Fin ps.length) (bit : Bool) :
    (ps.get q).kept bit ∈ (InputTerminals.setPairs index ps l).sites ↔
      index.testBit (ps.length - 1 - q) = bit := by
  by_cases hbit : index.testBit (ps.length - 1 - q) = bit
  · refine iff_of_true ?_ hbit
    rw [← hbit]
    exact h.kept_mem index q
  · refine iff_of_false ?_ hbit
    rw [Bool.eq_not_of_ne (Ne.symm hbit), Pair.kept_not]
    exact removed_notMem l index ps q

/-- The cells that are left tell the bits. -/
theorem eq_of_setPairs_eq (h : l.HasPairs ps) {index' : ℕ} (hlt : index < 2 ^ ps.length)
    (hlt' : index' < 2 ^ ps.length)
    (heq : InputTerminals.setPairs index ps l = InputTerminals.setPairs index' ps l) :
    index = index' := by
  refine Nat.eq_of_testBit_eq fun b => ?_
  by_cases hb : b < ps.length
  · have hplace : ps.length - 1 - (ps.length - 1 - b) = b := by omega
    have hkept := h.kept_mem index ⟨ps.length - 1 - b, by omega⟩
    rw [heq, h.kept_mem_iff, hplace] at hkept
    exact hkept.symm
  · have hpow : 2 ^ ps.length ≤ 2 ^ b := Nat.pow_le_pow_right Nat.two_pos (not_lt.1 hb)
    rw [Nat.testBit_lt_two_pow (hlt.trans_le hpow), Nat.testBit_lt_two_pow (hlt'.trans_le hpow)]

/-- A cell that belongs to no pair stays, with its role. -/
theorem mem_entries_iff_of_notMem (h : l.HasPairs ps) {e : Site × Role}
    (hother : ∀ p ∈ ps, e.1 ∉ p.sites) :
    e ∈ (InputTerminals.setPairs index ps l).cells.entries ↔ e ∈ l.cells.entries := by
  rw [mem_entries_setPairs_iff]
  refine and_iff_left_of_imp fun he q hrank => hother _ (ps.get_mem q) ?_
  have hmem := Pair.removed_mem (ps.get q) (index.testBit (ps.length - 1 - q))
  have hsite := h.present _ (ps.get_mem q) _ hmem
  rwa [l.cells.eq_of_mem_keys (List.mem_map.2 ⟨e, he, rfl⟩) hsite hrank]

end Layout.HasPairs

end Pairs

variable [Scalar α]

/-- The cells of the pairs that are found are in the layout, and all different. -/
theorem hasPairs_pairs (l : Layout α) (r : Option Role) (w : PairWindow α) :
    l.HasPairs (l.pairs r w) := by
  have hmem : ∀ p ∈ l.pairs r w, ∀ s ∈ p.sites, s ∈ l.sites := by
    intro p hp s hs
    obtain ⟨hupper, hlower⟩ := mem_sitesWithRole_of_mem_pairs hp
    rcases List.mem_pair.1 hs with rfl | rfl
    · exact Layout.mem_sites_of_mem_sitesWithRole hupper
    · exact Layout.mem_sites_of_mem_sitesWithRole hlower
  refine ⟨hmem, fun p hp => upper_ne_lower_of_mem_pairs hp, ?_⟩
  refine List.Pairwise.imp_of_mem ?_ nodup_pairs
  rintro p p' hp hp' hne ⟨s, hs, s', hs', hrank⟩
  obtain rfl := l.cells.eq_of_mem_keys (hmem p hp s hs) (hmem p' hp' s' hs') hrank
  exact hne (eq_of_mem_sites_of_mem_pairs hp hp' hs hs')

/-! ## The layouts encode the combinations -/

/-- The layouts of the input combinations of `l` encode the combinations. The first pair is the
westernmost and has the highest bit. -/
structure Layout.EncodesInputs (l : Layout α) (t : InputTerminals α) : Prop where
  west : l.IsComparable (some .input) → t.pairs.Pairwise fun p p' => ¬ l.WestOf p' p
  all_eq : t.all = (List.range (2 ^ t.pairs.length)).map fun index => (index, t.layoutFor index)
  /-- Each combination takes away as many cells as there are pairs. -/
  size : ∀ index, (t.layoutFor index).size + t.pairs.length = l.size
  upper : ∀ index, ∀ q : Fin t.pairs.length, (t.pairs.get q).upper ∈ (t.layoutFor index).sites ↔
    index.testBit (t.pairs.length - 1 - q) = false
  lower : ∀ index, ∀ q : Fin t.pairs.length, (t.pairs.get q).lower ∈ (t.layoutFor index).sites ↔
    index.testBit (t.pairs.length - 1 - q) = true
  /-- No cell is added and no role changed. -/
  subset : ∀ index, ∀ e ∈ (t.layoutFor index).cells.entries, e ∈ l.cells.entries
  /-- Cells that belong to no input pair stay. -/
  others : ∀ index, ∀ e : Site × Role, (∀ p ∈ t.pairs, e.1 ∉ p.sites) →
    (e ∈ (t.layoutFor index).cells.entries ↔ e ∈ l.cells.entries)
  /-- Nothing but the cells is changed. -/
  frame : ∀ index, t.layoutFor index = { l with cells := (t.layoutFor index).cells }
  mod : ∀ index, t.layoutFor (index % 2 ^ t.pairs.length) = t.layoutFor index
  injective : ∀ index < 2 ^ t.pairs.length, ∀ index' < 2 ^ t.pairs.length,
    t.layoutFor index = t.layoutFor index' → index = index'

/-- **Input combinations are encoded faithfully**: for any number of input pairs, the iteration
yields the combinations in order, each with the layout in which every pair has the one cell that its
bit says, and all else is as it was. -/
theorem encodesInputs_ofLayout (l : Layout α) (w : PairWindow α) :
    l.EncodesInputs (InputTerminals.ofLayout l w) := by
  have hpairs := hasPairs_pairs l (some .input) w
  refine
    { west := pairwise_pairs
      all_eq := ?_
      size := fun index => hpairs.size_setPairs
      upper := fun index q => hpairs.kept_mem_iff q false
      lower := fun index q => hpairs.kept_mem_iff q true
      subset := fun index e => mem_entries_of_mem_setPairs
      others := fun index e hother => hpairs.mem_entries_iff_of_notMem hother
      frame := fun index => ?_
      mod := fun index => setPairs_mod le_rfl
      injective := fun index hlt index' hlt' => hpairs.eq_of_setPairs_eq hlt hlt' }
  · rw [List.range_eq_range']
    exact InputTerminals.allFrom_eq _ (Nat.zero_add _).symm
  · obtain ⟨cells, hcells⟩ := exists_setPairs_eq index (l.pairs (some .input) w) l
    rw [InputTerminals.layoutFor, InputTerminals.ofLayout, hcells]

end DanglingBonds
