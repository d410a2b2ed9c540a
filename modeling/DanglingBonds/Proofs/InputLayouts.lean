/-
# The layouts of the input combinations

An input combination takes away one cell of every input pair and no other cell. Output cells are no
input cells, so a gate with an output pair has cells left under every combination.

* `mem_sitesWithRole_of_mem_pairs` : both cells of a pair have the role it was sought for.
* `mem_entries_setPairs_iff` : what is left after some pairs have been set.
* `mem_entries_layoutFor`, `isEmpty_layoutFor` : output cells are left.
* `Surface.exists_chargeAt?_eq_some` : a cell that is left has a charge.
-/
import Mathlib
import DanglingBonds.Gate
import DanglingBonds.Proofs.ExactScalar
import DanglingBonds.Proofs.ListedCells
import DanglingBonds.Proofs.StableSorting

namespace DanglingBonds

variable {α : Type} {l : Layout α} {r : Option Role} {w : PairWindow α}

/-! ## Pairs -/

/-- The two sites of an unordered pair are in the list. -/
theorem mem_of_mem_unorderedPairs {β : Type} {xs : List β} {e : β × β}
    (h : e ∈ unorderedPairs xs) : e.1 ∈ xs ∧ e.2 ∈ xs := by
  induction xs with
  | nil => cases h
  | cons x xs ih =>
    rcases List.mem_append.1 h with h | h
    · obtain ⟨y, hy, rfl⟩ := List.mem_map.1 h
      exact ⟨List.mem_cons_self, List.mem_cons_of_mem _ hy⟩
    · exact ⟨List.mem_cons_of_mem _ (ih h).1, List.mem_cons_of_mem _ (ih h).2⟩

/-- What the greedy matching accepts is a candidate. -/
theorem mem_of_mem_matchGreedily {taken : List Site} {cs : List (PairCandidate α)}
    {c : PairCandidate α} (h : c ∈ matchGreedily taken cs) : c ∈ cs := by
  induction cs generalizing taken with
  | nil => cases h
  | cons c' cs ih =>
    rw [matchGreedily] at h
    split at h
    · exact List.mem_cons_of_mem _ (ih h)
    · rcases List.mem_cons.1 h with rfl | h
      · exact List.mem_cons_self
      · exact List.mem_cons_of_mem _ (ih h)

section Pairs

variable [Scalar α]

theorem mem_sitesWithRole_of_mem_pairCandidates {c : PairCandidate α}
    (h : c ∈ pairCandidates l r w) :
    c.first ∈ l.sitesWithRole r ∧ c.second ∈ l.sitesWithRole r := by
  rw [pairCandidates, mem_sortBy, List.mem_filter, List.mem_map] at h
  obtain ⟨⟨e, he, rfl⟩, -⟩ := h
  exact mem_of_mem_unorderedPairs he

theorem Pair.ofCells_eq_or_eq (α : Type) [Scalar α] (lattice : Lattice) (a b : Site) :
    Pair.ofCells α lattice a b = ⟨a, b⟩ ∨ Pair.ofCells α lattice a b = ⟨b, a⟩ :=
  ite_eq_or_eq _ _ _

/-- Both cells of a pair have the role of the pair. -/
theorem mem_sitesWithRole_of_mem_pairs {p : Pair} (h : p ∈ l.pairs r w) :
    p.upper ∈ l.sitesWithRole r ∧ p.lower ∈ l.sitesWithRole r := by
  rw [Layout.pairs, mem_sortBy, List.mem_map] at h
  obtain ⟨c, hc, rfl⟩ := h
  obtain ⟨hfirst, hsecond⟩ := mem_sitesWithRole_of_mem_pairCandidates (mem_of_mem_matchGreedily hc)
  rcases Pair.ofCells_eq_or_eq α l.lattice c.first c.second with heq | heq
  · rw [heq]
    exact ⟨hfirst, hsecond⟩
  · rw [heq]
    exact ⟨hsecond, hfirst⟩

/-- Two cells of a role, as far apart as the window asks, are its only pair. -/
theorem pairs_eq_singleton {a b : Site} (hsites : l.sitesWithRole r = [a, b])
    (hmin : w.minimum ≤ l.lattice.distance a b) (hmax : l.lattice.distance a b ≤ w.maximum) :
    l.pairs r w = [Pair.ofCells α l.lattice a b] := by
  have hcandidates : pairCandidates l r w = [⟨l.lattice.distance a b, a, b⟩] := by
    have hfilter : ([⟨l.lattice.distance a b, a, b⟩] : List (PairCandidate α)).filter
          (fun c => w.minimum ≤ c.distance && c.distance ≤ w.maximum)
        = [⟨l.lattice.distance a b, a, b⟩] := by
      rw [List.filter_singleton, decide_eq_true hmin, decide_eq_true hmax]
      rfl
    rw [pairCandidates, hsites]
    exact congrArg (sortBy PairCandidate.before) hfilter
  rw [Layout.pairs, hcandidates]
  rfl

end Pairs

/-! ## Cells of different roles -/

/-- A site with a role is that of an entry with the role. -/
theorem exists_entry_of_mem_sitesWithRole {s : Site} {role : Role}
    (h : s ∈ l.sitesWithRole (some role)) : (s, role) ∈ l.cells.entries :=
  Layout.mem_entries_iff.2 (Layout.mem_sitesWithRole_iff.1 h)

/-! ## Taking input cells away -/

/-- The cell of a pair that goes: the upper for a one, the lower for a zero. -/
def Pair.removed (p : Pair) (bit : Bool) : Site :=
  if bit then p.upper else p.lower

/-- After some pairs have been set the cells are left that are not removed. The last pair has the
lowest bit. -/
theorem mem_entries_setPairs_iff {e : Site × Role} {index : ℕ} {ps : List Pair} {l : Layout α} :
    e ∈ (InputTerminals.setPairs index ps l).cells.entries ↔
      e ∈ l.cells.entries ∧ ∀ q : Fin ps.length, Ranked.rank e.1 ≠
        Ranked.rank ((ps.get q).removed (index.testBit (ps.length - 1 - q))) := by
  induction ps generalizing l with
  | nil => exact (and_iff_left nofun).symm
  | cons p ps ih =>
    have hentry : e ∈ (l.removeCell (p.removed (index.testBit ps.length))).cells.entries ↔
        e ∈ l.cells.entries ∧
          Ranked.rank e.1 ≠ Ranked.rank (p.removed (index.testBit ps.length)) := by
      rw [Layout.removeCell, Table.erase, List.mem_filter, Bool.not_eq_true',
        decide_eq_false_iff_not]
    have hshift : ∀ q : Fin ps.length, ps.length + 1 - 1 - (q.val + 1) = ps.length - 1 - q :=
      fun q => by omega
    show _ ↔ _ ∧ ∀ q : Fin (ps.length + 1), Ranked.rank e.1 ≠
      Ranked.rank (((p :: ps).get q).removed (index.testBit (ps.length + 1 - 1 - q)))
    rw [Fin.forall_fin_succ]
    simp only [Fin.val_succ, hshift]
    rw [← and_assoc]
    exact ih.trans (and_congr_left' hentry)

/-- Setting pairs takes away no entry but those of their cells. -/
theorem mem_entries_setPairs {e : Site × Role} (index : ℕ) {ps : List Pair}
    (hps : ∀ p ∈ ps, Ranked.rank e.1 ≠ Ranked.rank p.upper ∧ Ranked.rank e.1 ≠ Ranked.rank p.lower)
    {l : Layout α} (he : e ∈ l.cells.entries) :
    e ∈ (InputTerminals.setPairs index ps l).cells.entries := by
  refine mem_entries_setPairs_iff.2 ⟨he, fun q => ?_⟩
  obtain ⟨hupper, hlower⟩ := hps (ps.get q) (ps.get_mem q)
  rw [Pair.removed]
  split
  · exact hupper
  · exact hlower

/-- An input combination changes nothing but the cells. -/
theorem exists_setPairs_eq (index : ℕ) (ps : List Pair) (l : Layout α) :
    ∃ cells, InputTerminals.setPairs index ps l = { l with cells } := by
  induction ps generalizing l with
  | nil => exact ⟨l.cells, rfl⟩
  | cons p ps ih => exact ih _

/-- No input combination adds cells. -/
theorem size_setPairs_le (index : ℕ) (ps : List Pair) (l : Layout α) :
    (InputTerminals.setPairs index ps l).size ≤ l.size := by
  induction ps generalizing l with
  | nil => exact le_rfl
  | cons p ps ih => exact (ih _).trans (List.length_filter_le _ _)

/-- No input combination touches the defects. -/
theorem checkDefects_setPairs [Scalar α] (index : ℕ) (ps : List Pair) (l : Layout α) :
    (InputTerminals.setPairs index ps l).checkDefects = l.checkDefects := by
  induction ps generalizing l with
  | nil => rfl
  | cons p ps ih => exact ih _

/-- Setting pairs leaves nothing but what was there. -/
theorem mem_entries_of_mem_setPairs {e : Site × Role} {index : ℕ} {ps : List Pair}
    {l : Layout α} (he : e ∈ (InputTerminals.setPairs index ps l).cells.entries) :
    e ∈ l.cells.entries :=
  (mem_entries_setPairs_iff.1 he).1

variable [Scalar α]

/-- **Output cells are left** under every input combination. -/
theorem mem_entries_layoutFor {s : Site} (hs : (s, Role.output) ∈ l.cells.entries) (index : ℕ) :
    (s, Role.output) ∈ ((InputTerminals.ofLayout l w).layoutFor index).cells.entries := by
  -- an output cell has no rank in common with an input cell
  have hrank : ∀ s', (s', Role.input) ∈ l.cells.entries → Ranked.rank s ≠ Ranked.rank s' := by
    intro s' hs' heq
    have hsame := congrArg Prod.snd (l.cells.eq_of_rank_eq hs hs' heq)
    cases hsame
  refine mem_entries_setPairs index (fun p hp => ?_) hs
  obtain ⟨hupper, hlower⟩ := mem_sitesWithRole_of_mem_pairs hp
  exact ⟨hrank _ (exists_entry_of_mem_sitesWithRole hupper),
    hrank _ (exists_entry_of_mem_sitesWithRole hlower)⟩

/-- Both cells of an output pair are left under every input combination. -/
theorem mem_sites_layoutFor {p : Pair} (hp : p ∈ l.pairs (some .output) w) (index : ℕ) :
    p.upper ∈ ((InputTerminals.ofLayout l w).layoutFor index).sites ∧
      p.lower ∈ ((InputTerminals.ofLayout l w).layoutFor index).sites := by
  have hsite : ∀ s ∈ l.sitesWithRole (some .output),
      s ∈ ((InputTerminals.ofLayout l w).layoutFor index).sites := fun s hs =>
    List.mem_map.2 ⟨_, mem_entries_layoutFor (exists_entry_of_mem_sitesWithRole hs) index, rfl⟩
  obtain ⟨hupper, hlower⟩ := mem_sitesWithRole_of_mem_pairs hp
  exact ⟨hsite _ hupper, hsite _ hlower⟩

/-- With an output pair, cells are left under every input combination. -/
theorem isEmpty_layoutFor (h : l.pairs (some .output) w ≠ []) (index : ℕ) :
    ((InputTerminals.ofLayout l w).layoutFor index).isEmpty = false := by
  obtain ⟨p, hp⟩ := List.exists_mem_of_ne_nil _ h
  have hmem := mem_entries_layoutFor (w := w)
    (exists_entry_of_mem_sitesWithRole (mem_sitesWithRole_of_mem_pairs hp).1) index
  rw [Layout.isEmpty, Table.isEmpty, List.isEmpty_eq_false_iff]
  exact List.ne_nil_of_mem hmem

/-! ## Charges at sites -/

/-- The cells are numbered in the order of their sites. -/
theorem Environment.getElem?_sites (l : Layout ℝ) (p : Parameters ℝ) (i : Fin l.size) :
    l.sites[i.val]? = some ((ofLayout l p).sites.get i) := by
  rw [Vector.get_eq_getElem]
  exact List.getElem?_eq_getElem _

/-- The sites of the cells are those of the layout. -/
theorem Environment.get_sites_ofLayout_mem (l : Layout ℝ) (p : Parameters ℝ) (i : Fin l.size) :
    (ofLayout l p).sites.get i ∈ l.sites :=
  List.mem_of_getElem? (getElem?_sites l p i)

/-- The cell at a site of the layout is found. -/
theorem Environment.exists_index?_eq_some {l : Layout ℝ} {s : Site} (hs : s ∈ l.sites)
    (p : Parameters ℝ) :
    ∃ i, (ofLayout l p).index? s = some i ∧ (ofLayout l p).sites.get i = s := by
  have hfound : ((ofLayout l p).index? s).isSome := by
    obtain ⟨k, hk, hget⟩ := List.getElem_of_mem hs
    have hlt : k < l.size := by
      rw [Layout.size, Table.size, ← List.length_map]
      exact hk
    rw [index?, List.find?_isSome]
    refine ⟨⟨k, hlt⟩, List.mem_finRange _, decide_eq_true (congrArg Ranked.rank ?_)⟩
    rw [← hget, Vector.get_eq_getElem]
    rfl
  obtain ⟨i, hi⟩ := Option.isSome_iff_exists.1 hfound
  refine ⟨i, hi, ?_⟩
  have hrank : Ranked.rank ((ofLayout l p).sites.get i) = Ranked.rank s :=
    of_decide_eq_true (List.find?_some hi :)
  exact l.cells.eq_of_mem_keys (get_sites_ofLayout_mem l p i) hs hrank

/-- A surface of a layout has a charge at each site of the layout: that of the cell there. -/
theorem Surface.exists_chargeAt?_eq_some {l : Layout ℝ} {p : Parameters ℝ} {t : Surface ℝ l.size}
    (ht : t.env = Environment.ofLayout l p) {s : Site} (hs : s ∈ l.sites) :
    ∃ i, t.chargeAt? s = some (t.charges.get i) ∧ (Environment.ofLayout l p).sites.get i = s := by
  obtain ⟨i, hi, hsite⟩ := Environment.exists_index?_eq_some hs p
  refine ⟨i, ?_, hsite⟩
  rw [Surface.chargeAt?, ht, hi]
  rfl

end DanglingBonds
