/-
# The pairs of a role

Pairs are what the greedy matching accepts among the cells of a role, each with its northern cell as
the upper one, listed from west to east. The properties of the matching pin them down: whatever set
of pairs has them is the set of pairs found.

* `Layout.IsComparable` : distances and positions of the cells of a role compare like numbers.
* `ofCells_eq_of_perm` : the order in which cells are set does not matter.
* `Layout.NorthOf`, `Layout.WestOf` : the orders of the cells of a pair and of pairs.
* `Layout.IsMatching` : a set of pairs as the greedy matching leaves it.
* `pairs_isMatching` : the pairs found are the only such set, from west to east.
* `pairs_cellRow` : of three cells in a row the nearer two form a pair.
-/
import Mathlib
import DanglingBonds.Proofs.Existence
import DanglingBonds.Proofs.GreedyMatching

namespace DanglingBonds

variable {α : Type}

/-! ## Cells of a role -/

section Cells

variable {l : Layout α} {r : Option Role} {s s' : Site}

/-- The cells of a role are cells. -/
theorem Layout.mem_sites_of_mem_sitesWithRole (h : s ∈ l.sitesWithRole r) : s ∈ l.sites :=
  (mem_sitesWithRole_iff.1 h).1

/-- Cells of a role that have the same rank are the same. -/
theorem Layout.eq_of_rank_eq (hs : s ∈ l.sitesWithRole r) (hs' : s' ∈ l.sitesWithRole r)
    (h : Ranked.rank s = Ranked.rank s') : s = s' :=
  l.cells.eq_of_mem_keys (mem_sites_of_mem_sitesWithRole hs) (mem_sites_of_mem_sitesWithRole hs') h

/-- Of two different cells of a role one comes first. -/
theorem Layout.before_or_before (hs : s ∈ l.sitesWithRole r) (hs' : s' ∈ l.sitesWithRole r)
    (h : s ≠ s') : s.Before s' ∨ s'.Before s :=
  Site.before_or_before fun hrank => h (Layout.eq_of_rank_eq hs hs' hrank)

/-- Of two different sites in order the later does not come first. -/
theorem Site.Before.asymm (h : s.Before s') : ¬ s'.Before s :=
  (Site.isWeakOrderOn_before Set.univ).asymm s trivial s' trivial h

theorem Site.Before.ne (h : s.Before s') : s ≠ s' := by
  rintro rfl
  exact h.asymm h

/-- The cells of a role are listed in order. -/
theorem Layout.pairwise_sitesWithRole (l : Layout α) (r : Option Role) :
    (l.sitesWithRole r).Pairwise Site.Before :=
  List.pairwise_map.2 (l.cells.sorted.filter _)

/-- A list in order is determined by its sites. -/
theorem Layout.sitesWithRole_eq {l' : Layout α}
    (h : ∀ s, s ∈ l'.sitesWithRole r ↔ s ∈ l.sitesWithRole r) :
    l'.sitesWithRole r = l.sitesWithRole r := by
  have hirrefl : Std.Irrefl Site.Before := ⟨fun _ h => h.asymm h⟩
  have hantisymm : Std.Antisymm Site.Before := ⟨fun _ _ h h' => absurd h' h.asymm⟩
  exact List.Pairwise.eq_of_mem_iff (l'.pairwise_sitesWithRole r) (l.pairwise_sitesWithRole r) h

end Cells

/-! ## Unordered pairs of a list -/

section UnorderedPairs

variable {β : Type} {xs : List β}

/-- In a strictly sorted list the unordered pairs are those in order. -/
theorem mem_unorderedPairs_iff {r : β → β → Prop} (hxs : xs.Pairwise r)
    (hasymm : ∀ x y, r x y → ¬ r y x) {a b : β} :
    (a, b) ∈ unorderedPairs xs ↔ a ∈ xs ∧ b ∈ xs ∧ r a b := by
  induction xs with
  | nil => simp [unorderedPairs]
  | cons x xs ih =>
    obtain ⟨hx, hxs⟩ := List.pairwise_cons.1 hxs
    have hself : ¬ r x x := fun h => hasymm x x h h
    rw [unorderedPairs, List.mem_append, ih hxs, List.mem_map, List.mem_cons, List.mem_cons]
    constructor
    · rintro (⟨y, hy, heq⟩ | ⟨ha, hb, hab⟩)
      · cases heq
        exact ⟨.inl rfl, .inr hy, hx _ hy⟩
      · exact ⟨.inr ha, .inr hb, hab⟩
    · rintro ⟨rfl | ha, rfl | hb, hab⟩
      · exact absurd hab hself
      · exact .inl ⟨b, hb, rfl⟩
      · exact absurd hab (hasymm _ _ (hx a ha))
      · exact .inr ⟨ha, hb, hab⟩

/-- A list without duplicates has no unordered pair twice. -/
theorem nodup_unorderedPairs (h : xs.Nodup) : (unorderedPairs xs).Nodup := by
  induction xs with
  | nil => exact List.nodup_nil
  | cons x xs ih =>
    obtain ⟨hx, hxs⟩ := List.nodup_cons.1 h
    refine List.nodup_append.2 ⟨hxs.map fun _ _ heq => (Prod.mk.inj heq).2, ih hxs, ?_⟩
    rintro e he e' he' rfl
    obtain ⟨y, -, rfl⟩ := List.mem_map.1 he
    exact hx (mem_of_mem_unorderedPairs he').1

/-- The unordered pairs of the cells of a role. -/
theorem mem_unorderedPairs_sitesWithRole_iff {l : Layout α} {r : Option Role} {a b : Site} :
    (a, b) ∈ unorderedPairs (l.sitesWithRole r) ↔
      a ∈ l.sitesWithRole r ∧ b ∈ l.sitesWithRole r ∧ a.Before b :=
  mem_unorderedPairs_iff (l.pairwise_sitesWithRole r) fun _ _ => Site.Before.asymm

end UnorderedPairs

/-! ## The order of insertion -/

/-- Cells of new ranks are added to those of a layout, and nothing else is changed. -/
theorem exists_foldl_setRole_eq {cells : List (Site × Role)} {l : Layout α}
    (hdistinct : cells.Pairwise fun c c' => Ranked.rank c.1 ≠ Ranked.rank c'.1)
    (hnew : ∀ c ∈ cells, l.cells.contains c.1 = false) :
    ∃ t, cells.foldl (fun l c => l.setRole c.1 (some c.2)) l = { l with cells := t } ∧
      t.entries.Perm (cells ++ l.cells.entries) := by
  induction cells generalizing l with
  | nil => exact ⟨l.cells, rfl, List.Perm.refl _⟩
  | cons c cs ih =>
    obtain ⟨hc, hcs⟩ := List.pairwise_cons.1 hdistinct
    have hinsert := Table.perm_entries_insert c.2 (hnew c List.mem_cons_self)
    have hnew' : ∀ c' ∈ cs, (l.setRole c.1 (some c.2)).cells.contains c'.1 = false := by
      intro c' hc'
      rw [← Bool.not_eq_true, Table.contains_iff]
      rintro ⟨e, he, hrank⟩
      rcases List.mem_cons.1 (hinsert.mem_iff.1 he) with rfl | he
      · exact hc c' hc' hrank
      · have hcontains := hnew c' (List.mem_cons_of_mem c hc')
        rw [Table.contains_iff.2 ⟨e, he, hrank⟩] at hcontains
        cases hcontains
    obtain ⟨t, ht, hperm⟩ := ih hcs hnew'
    exact ⟨t, ht, hperm.trans ((hinsert.append_left cs).trans List.perm_middle)⟩

/-- The cells of a layout, in whatever order they are set, make up its table. -/
theorem ofCells_eq_of_perm [Scalar α] {l : Layout α} {cells : List (Site × Role)}
    (lattice : Lattice) (h : cells.Perm l.cells.entries) :
    (Layout.ofCells lattice (cells.map fun c => (c.1, some c.2)) : Layout α)
      = { Layout.empty lattice with cells := l.cells } := by
  have hsymm : ∀ {c c' : Site × Role}, Ranked.rank c.1 ≠ Ranked.rank c'.1 →
      Ranked.rank c'.1 ≠ Ranked.rank c.1 := Ne.symm
  have hdistinct : cells.Pairwise fun c c' => Ranked.rank c.1 ≠ Ranked.rank c'.1 := by
    rw [h.pairwise_iff hsymm]
    exact l.cells.sorted.imp RankBefore.ne
  obtain ⟨t, ht, hperm⟩ :=
    exists_foldl_setRole_eq (l := (Layout.empty lattice : Layout α)) hdistinct fun _ _ => rfl
  have heq : t = l.cells :=
    Table.eq_of_perm (hperm.trans ((List.append_nil cells).symm ▸ h))
  rw [Layout.ofCells, List.foldl_map, ← heq]
  exact ht

variable [Scalar α]

/-! ## Candidates in order -/

/-- Distances and positions of the cells of a role compare like numbers. -/
structure Layout.IsComparable (l : Layout α) (r : Option Role) : Prop where
  distances : Comparable
    {d : α | ∃ a ∈ l.sitesWithRole r, ∃ b ∈ l.sitesWithRole r, l.lattice.distance a b = d}
  columns : Comparable {x | ∃ a ∈ l.sitesWithRole r, (l.lattice.position a : Position α).x = x}
  rows : Comparable {y | ∃ a ∈ l.sitesWithRole r, (l.lattice.position a : Position α).y = y}

/-- In exact arithmetic they do. -/
theorem Layout.isComparable_real (l : Layout ℝ) (r : Option Role) : l.IsComparable r :=
  ⟨comparable_real _, comparable_real _, comparable_real _⟩

namespace PairCandidate

/-- The order of candidates: the lesser distance, then the earlier first, then second cell. -/
def Precedes : PairCandidate α → PairCandidate α → Prop :=
  ThenBy (fun c c' => c.distance < c'.distance)
    (ThenBy (fun c c' => c.first.Before c'.first) fun c c' => c.second.Before c'.second)

theorem before_iff {c c' : PairCandidate α} : c.before c' = true ↔ c.Precedes c' := by
  unfold before Precedes
  symm
  exact thenBy_iff_ite (thenBy_iff_ite decide_eq_true_iff.symm)

end PairCandidate

section Candidates

variable {l : Layout α} {r : Option Role} {w : PairWindow α} {c c' : PairCandidate α}

/-- The candidates are any two cells of the role, the earlier first, as far apart as the window
asks. -/
theorem mem_pairCandidates_iff :
    c ∈ pairCandidates l r w ↔
      c.first ∈ l.sitesWithRole r ∧ c.second ∈ l.sitesWithRole r ∧ c.first.Before c.second ∧
        c.distance = l.lattice.distance c.first c.second ∧
        w.minimum ≤ c.distance ∧ c.distance ≤ w.maximum := by
  rw [pairCandidates, mem_sortBy, List.mem_filter, List.mem_map, Bool.and_eq_true,
    decide_eq_true_iff, decide_eq_true_iff]
  constructor
  · rintro ⟨⟨⟨a, b⟩, hab, rfl⟩, hwindow⟩
    obtain ⟨ha, hb, hbefore⟩ := mem_unorderedPairs_sitesWithRole_iff.1 hab
    exact ⟨ha, hb, hbefore, rfl, hwindow⟩
  · rintro ⟨ha, hb, hbefore, hdistance, hwindow⟩
    have hpair := mem_unorderedPairs_sitesWithRole_iff.2 ⟨ha, hb, hbefore⟩
    exact ⟨⟨_, hpair, congrArg (PairCandidate.mk · c.first c.second) hdistance.symm⟩, hwindow⟩

/-- A candidate is known from its cells. -/
theorem eq_of_mem_pairCandidates (hc : c ∈ pairCandidates l r w)
    (hc' : c' ∈ pairCandidates l r w) (hfirst : c.first = c'.first)
    (hsecond : c.second = c'.second) : c = c' := by
  obtain ⟨-, -, -, hd, -⟩ := mem_pairCandidates_iff.1 hc
  obtain ⟨-, -, -, hd', -⟩ := mem_pairCandidates_iff.1 hc'
  rcases c with ⟨d, a, b⟩
  rcases c' with ⟨d', a', b'⟩
  dsimp only at hfirst hsecond hd hd'
  rw [hd, hd', hfirst, hsecond]

theorem nodup_pairCandidates : (pairCandidates l r w).Nodup := by
  have hsites : (l.sitesWithRole r).Nodup :=
    (l.pairwise_sitesWithRole r).imp Site.Before.ne
  rw [pairCandidates, perm_sortBy.nodup_iff]
  refine ((nodup_unorderedPairs hsites).map ?_).filter _
  rintro ⟨a, b⟩ ⟨a', b'⟩ heq
  exact Prod.ext (congrArg PairCandidate.first heq) (congrArg PairCandidate.second heq)

/-- The candidates are in a weak order. -/
theorem isWeakOrderOn_precedes (h : l.IsComparable r) :
    IsWeakOrderOn {c | c ∈ pairCandidates l r w} PairCandidate.Precedes := by
  have hsites := Site.isWeakOrderOn_before Set.univ
  refine IsWeakOrderOn.thenBy (h.distances.isWeakOrderOn.comap fun c hc => ?_)
    (IsWeakOrderOn.thenBy (hsites.comap fun _ _ => trivial) (hsites.comap fun _ _ => trivial))
  obtain ⟨hfirst, hsecond, -, hdistance, -⟩ := mem_pairCandidates_iff.1 hc
  exact ⟨c.first, hfirst, c.second, hsecond, hdistance.symm⟩

/-- No two candidates tie. -/
theorem precedes_or_precedes (hc : c ∈ pairCandidates l r w) (hc' : c' ∈ pairCandidates l r w)
    (hne : c ≠ c') : c.Precedes c' ∨ c'.Precedes c := by
  obtain ⟨hfirst, hsecond, -⟩ := mem_pairCandidates_iff.1 hc
  obtain ⟨hfirst', hsecond', -⟩ := mem_pairCandidates_iff.1 hc'
  apply thenBy_or_thenBy
  by_cases heq : c.first = c'.first
  · apply thenBy_or_thenBy
    exact Layout.before_or_before hsecond hsecond' fun heq' =>
      hne (eq_of_mem_pairCandidates hc hc' heq heq')
  · exact (Layout.before_or_before hfirst hfirst' heq).imp .inl .inl

/-- The candidates are strictly sorted. -/
theorem pairwise_pairCandidates (h : l.IsComparable r) :
    (pairCandidates l r w).Pairwise PairCandidate.Precedes := by
  have hsorted : (pairCandidates l r w).Pairwise fun c c' => ¬ c'.Precedes c :=
    pairwise_sortBy_of_isWeakOrderOn (fun _ _ => PairCandidate.before_iff)
      (isWeakOrderOn_precedes h)
  refine (hsorted.and nodup_pairCandidates).imp_of_mem fun hc hc' hcc' => ?_
  exact (precedes_or_precedes hc hc' hcc'.2).resolve_right hcc'.1

end Candidates

/-! ## Pairs and their candidates -/

/-- The two cells of a pair. -/
def Pair.sites (p : Pair) : List Site :=
  [p.upper, p.lower]

namespace Layout

/-- Further north; of level cells further west; of cells at one position the earlier. -/
def NorthOf (l : Layout α) : Site → Site → Prop :=
  ThenBy (fun a b => (l.lattice.position a : Position α).y < (l.lattice.position b : Position α).y)
    (ThenBy
      (fun a b => (l.lattice.position a : Position α).x < (l.lattice.position b : Position α).x)
      Site.Before)

/-- The upper cell of the first pair is further west, or level with that of the other and further
north. -/
def WestOf (l : Layout α) : Pair → Pair → Prop :=
  ThenBy
    (fun p p' => (l.lattice.position p.upper : Position α).x <
      (l.lattice.position p'.upper : Position α).x)
    fun p p' => (l.lattice.position p.upper : Position α).y <
      (l.lattice.position p'.upper : Position α).y

/-- A pair as a candidate: its distance, and its cells in order. -/
def candidate (l : Layout α) (p : Pair) : PairCandidate α :=
  if p.upper.Before p.lower then ⟨l.lattice.distance p.upper p.lower, p.upper, p.lower⟩
  else ⟨l.lattice.distance p.lower p.upper, p.lower, p.upper⟩

end Layout

section Cells

variable {l : Layout α} {r : Option Role} {w : PairWindow α} {a b : Site} {p : Pair}
  {c : PairCandidate α}

/-- The order from north to south is a weak one on the cells of a role. -/
theorem isWeakOrderOn_northOf (h : l.IsComparable r) :
    IsWeakOrderOn {s | s ∈ l.sitesWithRole r} l.NorthOf :=
  (h.rows.isWeakOrderOn.comap fun s hs => ⟨s, hs, rfl⟩).thenBy
    ((h.columns.isWeakOrderOn.comap fun s hs => ⟨s, hs, rfl⟩).thenBy (Site.isWeakOrderOn_before _))

/-- Two different cells of a role do not tie. -/
theorem northOf_or_northOf (ha : a ∈ l.sitesWithRole r) (hb : b ∈ l.sitesWithRole r)
    (hne : a ≠ b) : l.NorthOf a b ∨ l.NorthOf b a :=
  thenBy_or_thenBy (thenBy_or_thenBy (Layout.before_or_before ha hb hne))

/-- The test that makes a cell the upper one. The cells come in order, so where their positions are
the same it is the earlier. -/
theorem northOf_iff (h : l.IsComparable r) (ha : a ∈ l.sitesWithRole r)
    (hb : b ∈ l.sitesWithRole r) (hab : a.Before b) :
    l.NorthOf a b ↔
      (if (l.lattice.position a : Position α).y < (l.lattice.position b : Position α).y then true
        else if (l.lattice.position b : Position α).y < (l.lattice.position a : Position α).y
        then false
        else decide ((l.lattice.position a : Position α).x ≤
          (l.lattice.position b : Position α).x)) = true := by
  refine thenBy_iff_ite ?_
  rw [decide_eq_true_iff, h.columns.le_iff_not_lt _ ⟨a, ha, rfl⟩ _ ⟨b, hb, rfl⟩]
  constructor
  · rintro (hlt | ⟨hnot, -⟩)
    · exact h.columns.isWeakOrderOn.asymm _ ⟨a, ha, rfl⟩ _ ⟨b, hb, rfl⟩ hlt
    · exact hnot
  · intro hnot
    exact (em _).imp_right fun _ => ⟨hnot, hab⟩

/-- Of two cells in order the northern is the upper one. -/
theorem ofCells_of_northOf (h : l.IsComparable r) (ha : a ∈ l.sitesWithRole r)
    (hb : b ∈ l.sitesWithRole r) (hab : a.Before b) (hnorth : l.NorthOf a b) :
    Pair.ofCells α l.lattice a b = ⟨a, b⟩ :=
  if_pos ((northOf_iff h ha hb hab).1 hnorth)

theorem ofCells_of_not_northOf (h : l.IsComparable r) (ha : a ∈ l.sitesWithRole r)
    (hb : b ∈ l.sitesWithRole r) (hab : a.Before b) (hnorth : ¬ l.NorthOf a b) :
    Pair.ofCells α l.lattice a b = ⟨b, a⟩ :=
  if_neg fun htest => hnorth ((northOf_iff h ha hb hab).2 htest)

/-- The cells of a pair of two cells. -/
theorem mem_sites_ofCells {s : Site} :
    s ∈ (Pair.ofCells α l.lattice a b).sites ↔ s = a ∨ s = b := by
  rcases Pair.ofCells_eq_or_eq α l.lattice a b with heq | heq
  · rw [heq]
    exact List.mem_pair
  · rw [heq]
    exact List.mem_pair.trans Or.comm

/-- A candidate has the cells of its pair. -/
theorem mem_sites_candidate {s : Site} : s ∈ (l.candidate p).sites ↔ s ∈ p.sites := by
  rw [Layout.candidate]
  split
  · exact Iff.rfl
  · exact List.mem_pair.trans (Or.comm.trans List.mem_pair.symm)

/-- A pair of the two cells of a candidate has this candidate. -/
theorem candidate_eq (hc : c ∈ pairCandidates l r w) (hfirst : c.first ∈ p.sites)
    (hsecond : c.second ∈ p.sites) : l.candidate p = c := by
  obtain ⟨-, -, hbefore, hdistance, -⟩ := mem_pairCandidates_iff.1 hc
  rcases c with ⟨d, a, b⟩
  dsimp only at hfirst hsecond hbefore hdistance
  rw [hdistance]
  rcases List.mem_pair.1 hfirst with rfl | rfl
  · rcases List.mem_pair.1 hsecond with rfl | rfl
    · exact absurd hbefore hbefore.asymm
    · exact if_pos hbefore
  · rcases List.mem_pair.1 hsecond with rfl | rfl
    · exact if_neg hbefore.asymm
    · exact absurd hbefore hbefore.asymm

/-- A candidate is found again from its pair. -/
theorem candidate_ofCells (hc : c ∈ pairCandidates l r w) :
    l.candidate (Pair.ofCells α l.lattice c.first c.second) = c :=
  candidate_eq hc (mem_sites_ofCells.2 (.inl rfl)) (mem_sites_ofCells.2 (.inr rfl))

/-- Candidates overlap if they have a cell in common. -/
theorem overlap_iff_of_mem_pairCandidates {c' : PairCandidate α} (hc : c ∈ pairCandidates l r w)
    (hc' : c' ∈ pairCandidates l r w) :
    Overlap c.sites c'.sites ↔ ∃ s ∈ c.sites, s ∈ c'.sites := by
  have hmem : ∀ {c : PairCandidate α}, c ∈ pairCandidates l r w → ∀ s ∈ c.sites,
      s ∈ l.sitesWithRole r := by
    intro c hc s hs
    obtain ⟨hfirst, hsecond⟩ := mem_sitesWithRole_of_mem_pairCandidates hc
    rcases List.mem_pair.1 hs with rfl | rfl
    · exact hfirst
    · exact hsecond
  constructor
  · rintro ⟨s, hs, t, ht, hrank⟩
    obtain rfl := Layout.eq_of_rank_eq (hmem hc s hs) (hmem hc' t ht) hrank
    exact ⟨s, hs, ht⟩
  · rintro ⟨s, hs, hs'⟩
    exact ⟨s, hs, s, hs', rfl⟩

end Cells

/-! ## What the pairs are -/

/-- A set of pairs as the greedy matching leaves it. Any two cells of the role that could form a
pair do, or one of them is in a pair that precedes them. -/
structure Layout.IsMatching (l : Layout α) (r : Option Role) (w : PairWindow α) (ps : Set Pair) :
    Prop where
  cells : ∀ p ∈ ps, p.upper ∈ l.sitesWithRole r ∧ p.lower ∈ l.sitesWithRole r ∧ p.upper ≠ p.lower
  window : ∀ p ∈ ps, w.minimum ≤ (l.candidate p).distance ∧ (l.candidate p).distance ≤ w.maximum
  upright : ∀ p ∈ ps, l.NorthOf p.upper p.lower
  disjoint : ∀ p ∈ ps, ∀ p' ∈ ps, ∀ s ∈ p.sites, s ∈ p'.sites → p = p'
  blocked : ∀ a ∈ l.sitesWithRole r, ∀ b ∈ l.sitesWithRole r, a.Before b →
    w.minimum ≤ l.lattice.distance a b → l.lattice.distance a b ≤ w.maximum →
    (∃ p ∈ ps, a ∈ p.sites ∧ b ∈ p.sites) ∨
      ∃ p ∈ ps, (a ∈ p.sites ∨ b ∈ p.sites) ∧
        (l.candidate p).Precedes ⟨l.lattice.distance a b, a, b⟩

section Matching

variable {l : Layout α} {r : Option Role} {w : PairWindow α} {ps ps' : Set Pair} {p p' : Pair}

namespace Layout.IsMatching

/-- A pair has the earlier of its cells as the first of its candidate. -/
theorem candidate_cases (h : l.IsMatching r w ps) (hp : p ∈ ps) :
    p.upper.Before p.lower ∧
        l.candidate p = ⟨l.lattice.distance p.upper p.lower, p.upper, p.lower⟩ ∨
      p.lower.Before p.upper ∧
        l.candidate p = ⟨l.lattice.distance p.lower p.upper, p.lower, p.upper⟩ := by
  obtain ⟨hupper, hlower, hne⟩ := h.cells p hp
  rcases Layout.before_or_before hupper hlower hne with hbefore | hbefore
  · exact .inl ⟨hbefore, if_pos hbefore⟩
  · exact .inr ⟨hbefore, if_neg hbefore.asymm⟩

/-- The candidates of the pairs are candidates. -/
theorem candidate_mem (h : l.IsMatching r w ps) (hp : p ∈ ps) :
    l.candidate p ∈ pairCandidates l r w := by
  obtain ⟨hupper, hlower, -⟩ := h.cells p hp
  have hwindow := h.window p hp
  rw [mem_pairCandidates_iff]
  rcases h.candidate_cases hp with ⟨hbefore, heq⟩ | ⟨hbefore, heq⟩
  · rw [heq] at hwindow ⊢
    exact ⟨hupper, hlower, hbefore, rfl, hwindow⟩
  · rw [heq] at hwindow ⊢
    exact ⟨hlower, hupper, hbefore, rfl, hwindow⟩

/-- A pair is found again from its candidate. -/
theorem ofCells_candidate (hl : l.IsComparable r) (h : l.IsMatching r w ps) (hp : p ∈ ps) :
    Pair.ofCells α l.lattice (l.candidate p).first (l.candidate p).second = p := by
  obtain ⟨hupper, hlower, -⟩ := h.cells p hp
  have hnorth := h.upright p hp
  rcases h.candidate_cases hp with ⟨hbefore, heq⟩ | ⟨hbefore, heq⟩
  · rw [heq]
    exact ofCells_of_northOf hl hupper hlower hbefore hnorth
  · rw [heq]
    exact ofCells_of_not_northOf hl hlower hupper hbefore
      ((isWeakOrderOn_northOf hl).asymm _ hupper _ hlower hnorth)

/-- The candidates of the pairs are what a greedy matching leaves. -/
theorem isGreedy (h : l.IsMatching r w ps) :
    IsGreedy PairCandidate.Precedes (pairCandidates l r w) (l.candidate '' ps) where
  subset := by
    rintro _ ⟨p, hp, rfl⟩
    exact h.candidate_mem hp
  disjoint := by
    rintro _ ⟨p, hp, rfl⟩ _ ⟨p', hp', rfl⟩ hoverlap
    obtain ⟨s, hs, hs'⟩ :=
      (overlap_iff_of_mem_pairCandidates (h.candidate_mem hp) (h.candidate_mem hp')).1 hoverlap
    rw [h.disjoint p hp p' hp' s (mem_sites_candidate.1 hs) (mem_sites_candidate.1 hs')]
  blocked := by
    intro c hc hnot
    obtain ⟨hfirst, hsecond, hbefore, hdistance, hmin, hmax⟩ := mem_pairCandidates_iff.1 hc
    have hself : ⟨l.lattice.distance c.first c.second, c.first, c.second⟩ = c :=
      congrArg (PairCandidate.mk · c.first c.second) hdistance.symm
    rw [hdistance] at hmin hmax
    rcases h.blocked _ hfirst _ hsecond hbefore hmin hmax with
      ⟨p, hp, ha, hb⟩ | ⟨p, hp, hshared, hprecedes⟩
    · exact absurd ⟨p, hp, candidate_eq hc ha hb⟩ hnot
    · rw [hself] at hprecedes
      refine ⟨l.candidate p, ⟨p, hp, rfl⟩, hprecedes, ?_⟩
      rw [overlap_iff_of_mem_pairCandidates hc (h.candidate_mem hp)]
      rcases hshared with hs | hs
      · exact ⟨c.first, List.mem_pair.2 (.inl rfl), mem_sites_candidate.2 hs⟩
      · exact ⟨c.second, List.mem_pair.2 (.inr rfl), mem_sites_candidate.2 hs⟩

/-- Of two such sets, each has the pairs of the other. -/
theorem subset (hl : l.IsComparable r) (h : l.IsMatching r w ps) (h' : l.IsMatching r w ps') :
    ps ⊆ ps' := by
  have horder := isWeakOrderOn_precedes (w := w) hl
  have hcandidates : l.candidate '' ps = l.candidate '' ps' :=
    h.isGreedy.eq (pairwise_pairCandidates hl) horder.asymm h'.isGreedy
  intro p hp
  obtain ⟨p', hp', heq⟩ : l.candidate p ∈ l.candidate '' ps' := hcandidates ▸ ⟨p, hp, rfl⟩
  rwa [← h.ofCells_candidate hl hp, ← heq, h'.ofCells_candidate hl hp']

/-- There is one such set. -/
theorem eq (hl : l.IsComparable r) (h : l.IsMatching r w ps) (h' : l.IsMatching r w ps') :
    ps = ps' :=
  (h.subset hl h').antisymm (h'.subset hl h)

end Layout.IsMatching

/-- The pairs are those of the accepted candidates. -/
theorem mem_pairs_iff : p ∈ l.pairs r w ↔
    ∃ c ∈ matchGreedily [] (pairCandidates l r w),
      Pair.ofCells α l.lattice c.first c.second = p := by
  rw [Layout.pairs, mem_sortBy, List.mem_map]

/-- The cells of a pair are different. -/
theorem upper_ne_lower_of_mem_pairs (hp : p ∈ l.pairs r w) : p.upper ≠ p.lower := by
  obtain ⟨c, hc, rfl⟩ := mem_pairs_iff.1 hp
  obtain ⟨-, -, hbefore, -⟩ := mem_pairCandidates_iff.1 (mem_of_mem_matchGreedily hc)
  rcases Pair.ofCells_eq_or_eq α l.lattice c.first c.second with heq | heq
  · rw [heq]
    exact hbefore.ne
  · rw [heq]
    exact hbefore.ne.symm

/-- Pairs that share a cell are the same. -/
theorem eq_of_mem_sites_of_mem_pairs (hp : p ∈ l.pairs r w) (hp' : p' ∈ l.pairs r w) {s : Site}
    (hs : s ∈ p.sites) (hs' : s ∈ p'.sites) : p = p' := by
  obtain ⟨c, hc, rfl⟩ := mem_pairs_iff.1 hp
  obtain ⟨c', hc', rfl⟩ := mem_pairs_iff.1 hp'
  have hsites : ∀ {c : PairCandidate α}, s ∈ (Pair.ofCells α l.lattice c.first c.second).sites →
      s ∈ c.sites := fun hs => List.mem_pair.2 (mem_sites_ofCells.1 hs)
  rw [eq_of_overlap_of_mem_matchGreedily hc hc' ⟨s, hsites hs, s, hsites hs', rfl⟩]

/-- The accepted candidates give different pairs. -/
theorem nodup_pairs : (l.pairs r w).Nodup := by
  rw [Layout.pairs, perm_sortBy.nodup_iff]
  refine List.Nodup.map_on ?_ nodup_matchGreedily
  intro c hc c' hc' heq
  rw [← candidate_ofCells (mem_of_mem_matchGreedily hc), heq,
    candidate_ofCells (mem_of_mem_matchGreedily hc')]

/-- Of two different cells with a pair the northern is the upper. -/
theorem northOf_ofCells (hl : l.IsComparable r) {a b : Site} (ha : a ∈ l.sitesWithRole r)
    (hb : b ∈ l.sitesWithRole r) (hab : a.Before b) :
    l.NorthOf (Pair.ofCells α l.lattice a b).upper (Pair.ofCells α l.lattice a b).lower := by
  by_cases hnorth : l.NorthOf a b
  · rw [ofCells_of_northOf hl ha hb hab hnorth]
    exact hnorth
  · rw [ofCells_of_not_northOf hl ha hb hab hnorth]
    exact (northOf_or_northOf ha hb hab.ne).resolve_left hnorth

/-- **The pairs found** are what the greedy matching leaves. -/
theorem isMatching_pairs (hl : l.IsComparable r) : l.IsMatching r w {p | p ∈ l.pairs r w} where
  cells p hp := by
    obtain ⟨hupper, hlower⟩ := mem_sitesWithRole_of_mem_pairs hp
    exact ⟨hupper, hlower, upper_ne_lower_of_mem_pairs hp⟩
  window p hp := by
    obtain ⟨c, hc, rfl⟩ := mem_pairs_iff.1 hp
    have hmem := mem_of_mem_matchGreedily hc
    rw [candidate_ofCells hmem]
    exact (mem_pairCandidates_iff.1 hmem).2.2.2.2
  upright p hp := by
    obtain ⟨c, hc, rfl⟩ := mem_pairs_iff.1 hp
    obtain ⟨hfirst, hsecond, hbefore, -⟩ := mem_pairCandidates_iff.1 (mem_of_mem_matchGreedily hc)
    exact northOf_ofCells hl hfirst hsecond hbefore
  disjoint p hp p' hp' s hs hs' := eq_of_mem_sites_of_mem_pairs hp hp' hs hs'
  blocked a ha b hb hab hmin hmax := by
    have hc : ⟨l.lattice.distance a b, a, b⟩ ∈ pairCandidates l r w :=
      mem_pairCandidates_iff.2 ⟨ha, hb, hab, rfl, hmin, hmax⟩
    by_cases haccepted : ⟨l.lattice.distance a b, a, b⟩ ∈ matchGreedily [] (pairCandidates l r w)
    · exact .inl ⟨_, mem_pairs_iff.2 ⟨_, haccepted, rfl⟩, mem_sites_ofCells.2 (.inl rfl),
        mem_sites_ofCells.2 (.inr rfl)⟩
    · obtain ⟨c, haccepted, hprecedes, hoverlap⟩ :=
        (isGreedy_matchGreedily (pairwise_pairCandidates hl)).blocked _ hc haccepted
      have hmem := mem_of_mem_matchGreedily haccepted
      obtain ⟨s, hs, hs'⟩ := (overlap_iff_of_mem_pairCandidates hc hmem).1 hoverlap
      have hshared : s ∈ (Pair.ofCells α l.lattice c.first c.second).sites :=
        mem_sites_ofCells.2 (List.mem_pair.1 hs')
      refine .inr ⟨_, mem_pairs_iff.2 ⟨c, haccepted, rfl⟩, ?_, ?_⟩
      · rcases List.mem_pair.1 hs with rfl | rfl
        · exact .inl hshared
        · exact .inr hshared
      · rwa [candidate_ofCells hmem]

/-- The pairs are listed from west to east. -/
theorem pairwise_pairs (hl : l.IsComparable r) :
    (l.pairs r w).Pairwise fun p p' => ¬ l.WestOf p' p := by
  have hupper : ∀ p ∈ l.pairs r w, p.upper ∈ l.sitesWithRole r :=
    fun p hp => (mem_sitesWithRole_of_mem_pairs hp).1
  refine pairwise_sortBy_of_isWeakOrderOn (fun p p' => ?_)
    ((hl.columns.isWeakOrderOn.comap fun p hp => ⟨p.upper, hupper p hp, rfl⟩).thenBy
      (hl.rows.isWeakOrderOn.comap fun p hp => ⟨p.upper, hupper p hp, rfl⟩))
  unfold Pair.before
  symm
  exact thenBy_iff_ite decide_eq_true_iff.symm

end Matching

/-! ## The pairs of a role are unique -/

/-- **The pairs of a role.** Where distances and positions compare like numbers, the pairs found
are disjoint, join two cells of the role at a distance in the window, have the northern cell as the
upper one, and block whatever other two cells could form a pair; they are listed from west to east.
They are the only such set, and so depend on nothing but the cells: not on the surroundings of the
layout, nor on the order in which its cells were set. -/
theorem pairs_isMatching (l : Layout α) (r : Option Role) (w : PairWindow α)
    (hl : l.IsComparable r) :
    l.IsMatching r w {p | p ∈ l.pairs r w} ∧
      (l.pairs r w).Nodup ∧
      ((l.pairs r w).Pairwise fun p p' => ¬ l.WestOf p' p) ∧
      (∀ ps, l.IsMatching r w ps → ps = {p | p ∈ l.pairs r w}) ∧
      (∀ l' : Layout α, l'.lattice = l.lattice →
        (∀ s, s ∈ l'.sitesWithRole r ↔ s ∈ l.sitesWithRole r) → l'.pairs r w = l.pairs r w) ∧
      ∀ cells : List (Site × Role), cells.Perm l.cells.entries →
        (Layout.ofCells l.lattice (cells.map fun c => (c.1, some c.2)) : Layout α).pairs r w
          = l.pairs r w := by
  have hmatching := isMatching_pairs (w := w) hl
  have hdepends : ∀ l' : Layout α, l'.lattice = l.lattice →
      (∀ s, s ∈ l'.sitesWithRole r ↔ s ∈ l.sitesWithRole r) → l'.pairs r w = l.pairs r w := by
    intro l' hlattice hsites
    unfold Layout.pairs pairCandidates
    rw [Layout.sitesWithRole_eq hsites, hlattice]
  refine ⟨hmatching, nodup_pairs, pairwise_pairs hl, fun ps hps => hps.eq hl hmatching, hdepends,
    fun cells hcells => ?_⟩
  rw [ofCells_eq_of_perm l.lattice hcells]
  exact hdepends _ rfl fun s => Iff.rfl

/-- Three cells in a row: the second is nearer to the third than to the first. -/
noncomputable def cellRow : Layout ℝ :=
  .ofCells .si100 [(⟨0, 0, 0⟩, some .normal), (⟨3, 0, 0⟩, some .normal), (⟨5, 0, 0⟩, some .normal)]

/-- The nearer two cells as a pair are all that the matching can leave of the row. -/
theorem isMatching_cellRow :
    cellRow.IsMatching (some .normal) default {⟨⟨3, 0, 0⟩, ⟨5, 0, 0⟩⟩} := by
  have hsites : cellRow.sitesWithRole (some .normal) = [⟨0, 0, 0⟩, ⟨3, 0, 0⟩, ⟨5, 0, 0⟩] := rfl
  have hnear : (cellRow.lattice.distance ⟨3, 0, 0⟩ ⟨5, 0, 0⟩ : ℝ) = 0.768 := by
    refine (distance_row 3 5).trans ?_
    norm_num
  have hfar : (cellRow.lattice.distance ⟨0, 0, 0⟩ ⟨3, 0, 0⟩ : ℝ) = 1.152 := by
    refine (distance_row 0 3).trans ?_
    norm_num
  have hwide : (cellRow.lattice.distance ⟨0, 0, 0⟩ ⟨5, 0, 0⟩ : ℝ) = 1.92 := by
    refine (distance_row 0 5).trans ?_
    norm_num
  have hcandidate : cellRow.candidate ⟨⟨3, 0, 0⟩, ⟨5, 0, 0⟩⟩ = ⟨0.768, ⟨3, 0, 0⟩, ⟨5, 0, 0⟩⟩ := by
    rw [Layout.candidate, if_pos (by decide), hnear]
  refine ⟨?_, ?_, ?_, ?_, ?_⟩
  · rintro _ rfl
    rw [hsites]
    decide
  · rintro _ rfl
    rw [hcandidate]
    show (0.75 : ℝ) ≤ 0.768 ∧ (0.768 : ℝ) ≤ 1.5
    norm_num
  · rintro _ rfl
    refine .inr ⟨lt_irrefl _, .inl ?_⟩
    show ((3 : ℤ) : ℝ) * 0.384 + ((0 : ℤ) : ℝ) * 0 < ((5 : ℤ) : ℝ) * 0.384 + ((0 : ℤ) : ℝ) * 0
    norm_num
  · rintro _ rfl _ rfl _ _ _
    rfl
  · intro a ha b hb hab hmin hmax
    have hpair : (a, b) ∈ unorderedPairs (cellRow.sitesWithRole (some .normal)) :=
      mem_unorderedPairs_sitesWithRole_iff.2 ⟨ha, hb, hab⟩
    have hcases : (a, b) = (⟨0, 0, 0⟩, ⟨3, 0, 0⟩) ∨ (a, b) = (⟨0, 0, 0⟩, ⟨5, 0, 0⟩) ∨
        (a, b) = (⟨3, 0, 0⟩, ⟨5, 0, 0⟩) := by
      rw [hsites] at hpair
      simpa [unorderedPairs] using hpair
    rcases hcases with heq | heq | heq <;> cases heq
    · refine .inr ⟨_, rfl, .inr (by decide), ?_⟩
      rw [hcandidate, hfar]
      exact .inl (by norm_num)
    · rw [hwide] at hmax
      exact absurd hmax (by show ¬ (1.92 : ℝ) ≤ 1.5; norm_num)
    · exact .inl ⟨_, rfl, by decide, by decide⟩

/-- Only the nearer two cells of the row form a pair. -/
theorem pairs_cellRow :
    cellRow.IsComparable (some .normal) ∧
      cellRow.pairs (some .normal) default = [⟨⟨3, 0, 0⟩, ⟨5, 0, 0⟩⟩] := by
  have hl := cellRow.isComparable_real (some .normal)
  obtain ⟨-, hnodup, -, hunique, -⟩ := pairs_isMatching cellRow (some .normal) default hl
  have hset := hunique _ isMatching_cellRow
  refine ⟨hl, List.perm_singleton.1 ?_⟩
  refine (List.perm_ext_iff_of_nodup hnodup (List.nodup_singleton _)).2 fun p => ?_
  rw [List.mem_singleton]
  exact (Set.ext_iff.1 hset p).symm

end DanglingBonds
