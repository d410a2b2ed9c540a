/-
# The greedy matching

Candidates are accepted in order, each unless one of its cells is taken. So no cell is taken twice,
and every candidate that is refused shares a cell with an accepted one before it. On strictly sorted
candidates nothing else has these two properties: where two sets of candidates first differed, the
candidate that only one of them has would be blocked by an earlier one that both have.

* `Overlap` : two lists of sites have a site in common, as far as ranks tell.
* `IsGreedy` : what the matching leaves of a list of candidates.
* `isGreedy_matchGreedily`, `IsGreedy.eq` : the matching is the only such set.
-/
import Mathlib
import DanglingBonds.Proofs.Comparison
import DanglingBonds.Proofs.InputLayouts

namespace DanglingBonds

variable {α : Type} {taken : List Site} {c c' : PairCandidate α} {cs : List (PairCandidate α)}

/-! ## Accepting and refusing -/

/-- Some site of the first list has the rank of one of the second. -/
def Overlap (ss ts : List Site) : Prop :=
  ∃ s ∈ ss, ∃ t ∈ ts, Ranked.rank s = Ranked.rank t

theorem Overlap.symm {ss ts : List Site} (h : Overlap ss ts) : Overlap ts ss := by
  obtain ⟨s, hs, t, ht, heq⟩ := h
  exact ⟨t, ht, s, hs, heq.symm⟩

theorem overlap_append_right {ss ts us : List Site} :
    Overlap ss (ts ++ us) ↔ Overlap ss ts ∨ Overlap ss us := by
  simp only [Overlap, List.mem_append, or_and_right, exists_or, and_or_left]

/-- The two cells of a candidate. -/
def PairCandidate.sites (c : PairCandidate α) : List Site :=
  [c.first, c.second]

/-- A candidate overlaps with itself. -/
theorem PairCandidate.overlap_self (c : PairCandidate α) : Overlap c.sites c.sites :=
  ⟨c.first, List.mem_cons_self, c.first, List.mem_cons_self, rfl⟩

/-- The test of the matching: whether a cell of the candidate is taken. -/
theorem any_sameRank_iff :
    (taken.any c.first.sameRank || taken.any c.second.sameRank) = true ↔ Overlap c.sites taken := by
  simp [Overlap, PairCandidate.sites, Site.sameRank]

theorem matchGreedily_of_overlap (h : Overlap c.sites taken) :
    matchGreedily taken (c :: cs) = matchGreedily taken cs := by
  rw [matchGreedily, if_pos (any_sameRank_iff.2 h)]

theorem matchGreedily_of_not_overlap (h : ¬ Overlap c.sites taken) :
    matchGreedily taken (c :: cs) = c :: matchGreedily (c.sites ++ taken) cs := by
  rw [matchGreedily, if_neg fun hany => h (any_sameRank_iff.1 hany)]
  rfl

/-- An accepted candidate has no cell that was taken before. -/
theorem not_overlap_of_mem_matchGreedily (h : c ∈ matchGreedily taken cs) :
    ¬ Overlap c.sites taken := by
  induction cs generalizing taken with
  | nil => cases h
  | cons d ds ih =>
    by_cases hd : Overlap d.sites taken
    · rw [matchGreedily_of_overlap hd] at h
      exact ih h
    · rw [matchGreedily_of_not_overlap hd] at h
      rcases List.mem_cons.1 h with rfl | h
      · exact hd
      · exact fun hc => ih h (overlap_append_right.2 (.inr hc))

/-- No two accepted candidates share a cell. -/
theorem pairwise_matchGreedily :
    (matchGreedily taken cs).Pairwise fun c c' => ¬ Overlap c.sites c'.sites := by
  induction cs generalizing taken with
  | nil => exact List.Pairwise.nil
  | cons d ds ih =>
    by_cases hd : Overlap d.sites taken
    · rw [matchGreedily_of_overlap hd]
      exact ih
    · rw [matchGreedily_of_not_overlap hd]
      refine List.pairwise_cons.2 ⟨fun c hc hdc => ?_, ih⟩
      exact not_overlap_of_mem_matchGreedily hc (overlap_append_right.2 (.inl hdc.symm))

/-- Accepted candidates that share a cell are the same. -/
theorem eq_of_overlap_of_mem_matchGreedily (hc : c ∈ matchGreedily taken cs)
    (hc' : c' ∈ matchGreedily taken cs) (hoverlap : Overlap c.sites c'.sites) : c = c' := by
  by_contra hne
  have hsymm : Std.Symm fun c c' : PairCandidate α => ¬ Overlap c.sites c'.sites :=
    ⟨fun _ _ h h' => h h'.symm⟩
  exact pairwise_matchGreedily.forall hc hc' hne hoverlap

/-- No candidate is accepted twice, as it shares its cells with itself. -/
theorem nodup_matchGreedily : (matchGreedily taken cs).Nodup := by
  refine pairwise_matchGreedily.imp fun {c c'} h heq => h ?_
  rw [← heq]
  exact c.overlap_self

/-- A refused candidate has a cell that was taken before, or one of an accepted candidate before
it. -/
theorem overlap_of_notMem_matchGreedily {r : PairCandidate α → PairCandidate α → Prop}
    (hcs : cs.Pairwise r) (hc : c ∈ cs) (hrefused : c ∉ matchGreedily taken cs) :
    Overlap c.sites taken ∨ ∃ c' ∈ matchGreedily taken cs, r c' c ∧ Overlap c.sites c'.sites := by
  induction cs generalizing taken with
  | nil => cases hc
  | cons d ds ih =>
    obtain ⟨hbefore, hds⟩ := List.pairwise_cons.1 hcs
    by_cases hd : Overlap d.sites taken
    · rw [matchGreedily_of_overlap hd] at hrefused ⊢
      rcases List.mem_cons.1 hc with rfl | hc
      · exact .inl hd
      · exact ih hds hc hrefused
    · rw [matchGreedily_of_not_overlap hd] at hrefused ⊢
      rw [List.mem_cons, not_or] at hrefused
      have hmem : c ∈ ds := (List.mem_cons.1 hc).resolve_left hrefused.1
      rcases ih hds hmem hrefused.2 with htaken | ⟨c', hc', hr, hoverlap⟩
      · rcases overlap_append_right.1 htaken with hcd | htaken
        · exact .inr ⟨d, List.mem_cons_self, hbefore c hmem, hcd⟩
        · exact .inl htaken
      · exact .inr ⟨c', List.mem_cons_of_mem d hc', hr, hoverlap⟩

/-! ## What the matching leaves -/

/-- Some of the candidates `cs`, of which no two share a cell, such that all others share a cell
with one of them before in the order `r`. -/
structure IsGreedy (r : PairCandidate α → PairCandidate α → Prop) (cs : List (PairCandidate α))
    (accepted : Set (PairCandidate α)) : Prop where
  subset : ∀ c ∈ accepted, c ∈ cs
  disjoint : ∀ c ∈ accepted, ∀ c' ∈ accepted, Overlap c.sites c'.sites → c = c'
  blocked : ∀ c ∈ cs, c ∉ accepted → ∃ c' ∈ accepted, r c' c ∧ Overlap c.sites c'.sites

/-- **The matching** leaves such a set. -/
theorem isGreedy_matchGreedily {r : PairCandidate α → PairCandidate α → Prop}
    (hcs : cs.Pairwise r) : IsGreedy r cs {c | c ∈ matchGreedily [] cs} where
  subset _ hc := mem_of_mem_matchGreedily hc
  disjoint _ hc _ hc' hoverlap := eq_of_overlap_of_mem_matchGreedily hc hc' hoverlap
  blocked c hc hrefused := by
    refine (overlap_of_notMem_matchGreedily hcs hc hrefused).resolve_left ?_
    rintro ⟨s, -, t, ht, -⟩
    cases ht

/-- What follows for an entry of a strictly sorted list from all entries before it holds of every
entry. -/
theorem forall_mem_of_pairwise {β : Type} {r : β → β → Prop} {xs : List β} (hxs : xs.Pairwise r)
    (hasymm : ∀ x ∈ xs, ∀ y ∈ xs, r x y → ¬ r y x) {P : β → Prop}
    (step : ∀ x ∈ xs, (∀ y ∈ xs, r y x → P y) → P x) : ∀ x ∈ xs, P x := by
  induction xs with
  | nil => simp
  | cons a as ih =>
    obtain ⟨ha, has⟩ := List.pairwise_cons.1 hxs
    have hmem : ∀ x ∈ as, x ∈ a :: as := fun x => List.mem_cons_of_mem a
    have hP : P a := by
      refine step a List.mem_cons_self fun y hy hya => ?_
      rcases List.mem_cons.1 hy with rfl | hy
      · exact absurd hya (hasymm y List.mem_cons_self y List.mem_cons_self hya)
      · exact absurd (ha y hy) (hasymm y (hmem y hy) a List.mem_cons_self hya)
    refine List.forall_mem_cons.2 ⟨hP, ih has ?_ fun x hx hbefore => ?_⟩
    · exact fun x hx y hy => hasymm x (hmem x hx) y (hmem y hy)
    · refine step x (hmem x hx) fun y hy hyx => ?_
      rcases List.mem_cons.1 hy with rfl | hy
      · exact hP
      · exact hbefore y hy hyx

/-- **Nothing else does.** On strictly sorted candidates there is one such set. -/
theorem IsGreedy.eq {r : PairCandidate α → PairCandidate α → Prop} (hcs : cs.Pairwise r)
    (hasymm : ∀ c ∈ cs, ∀ c' ∈ cs, r c c' → ¬ r c' c) {accepted accepted' : Set (PairCandidate α)}
    (h : IsGreedy r cs accepted) (h' : IsGreedy r cs accepted') : accepted = accepted' := by
  -- a candidate of one set that the other lacks is blocked there by an earlier one, which both have
  have hstep : ∀ {A A' : Set (PairCandidate α)}, IsGreedy r cs A → IsGreedy r cs A' → ∀ c ∈ cs,
      (∀ c' ∈ cs, r c' c → (c' ∈ A ↔ c' ∈ A')) → c ∈ A → c ∈ A' := by
    intro A A' hA hA' c hc hbefore hcA
    by_contra hcA'
    obtain ⟨c', hc'A', hr, hoverlap⟩ := hA'.blocked c hc hcA'
    have hc' := hA'.subset c' hc'A'
    have heq := hA.disjoint c hcA c' ((hbefore c' hc' hr).2 hc'A') hoverlap
    rw [heq] at hr
    exact hasymm c' hc' c' hc' hr hr
  have hiff : ∀ c ∈ cs, (c ∈ accepted ↔ c ∈ accepted') :=
    forall_mem_of_pairwise hcs hasymm fun c hc hbefore =>
      ⟨hstep h h' c hc hbefore, hstep h' h c hc fun c' hc' hr => (hbefore c' hc' hr).symm⟩
  ext c
  constructor
  · exact fun hc => (hiff c (h.subset c hc)).1 hc
  · exact fun hc => (hiff c (h'.subset c hc)).2 hc

end DanglingBonds
