/-
# Cells toggled along a Gray walk

A walk never assigns a word to its cells. It toggles one cell a step, the last cell for the lowest
bit, and lets each visit change other cells. The cells hold the current word at every place all the
same, so that they pass every assignment of negative and neutral charges once. The statements hold
for all scalars, rounded ones included.

* `Surface.HoldsWord` : cells that are neutral where a bit is set, and negative elsewhere.
* `Surface.HoldsWord.flip` : one step keeps them in line with the word.
* `Surface.visited`, `reverse_walkAll` : the surfaces with which a walk comes to its places, and
  what it finds there.
* `walkAll_isGrayWalk` : the cells of a walk pass every assignment once.
* `walkTwoStates_isGrayWalk`, `walkThreeStates_isGrayWalk` : the walks of the pruned enumeration.
* `GrayCode.places_passAll` : all words and all assignments, one toggled cell a step.
-/
import Mathlib
import DanglingBonds.Proofs.ChargeIndices
import DanglingBonds.Proofs.Trace

namespace DanglingBonds

/-! ## Words as charges -/

/-- The charges that `k` cells hold for a word, the last cell for the lowest bit. -/
def wordCharges (k word : ℕ) : List Charge :=
  List.ofFn fun p : Fin k => if word.testBit (k - 1 - p) then .neutral else .negative

/-- Different words of `k` bits give different charges. -/
theorem eq_of_wordCharges_eq {k v w : ℕ} (hv : v < 2 ^ k) (hw : w < 2 ^ k)
    (h : wordCharges k v = wordCharges k w) : v = w := by
  apply Nat.eq_of_testBit_eq
  intro bit
  by_cases hbit : bit < k
  · -- the cell of this bit tells whether it is set
    have hcell := congrFun (List.ofFn_injective h) ⟨k - 1 - bit, by omega⟩
    have hback : k - 1 - (k - 1 - bit) = bit := by omega
    dsimp only at hcell
    rw [hback] at hcell
    cases hvbit : v.testBit bit <;> cases hwbit : w.testBit bit <;>
      simp [hvbit, hwbit] at hcell ⊢
  · have hle : 2 ^ k ≤ 2 ^ bit := Nat.pow_le_pow_right (by omega) (by omega)
    rw [Nat.testBit_lt_two_pow (by omega), Nat.testBit_lt_two_pow (by omega)]

/-- Every list of `k` negative and neutral charges is that of a word of `k` bits. -/
theorem exists_wordCharges_eq_iff {k : ℕ} {a : List Charge} :
    (∃ w < 2 ^ k, wordCharges k w = a) ↔ a.length = k ∧ ∀ c ∈ a, c = .negative ∨ c = .neutral := by
  constructor
  · rintro ⟨w, -, rfl⟩
    refine ⟨List.length_ofFn, fun c hc => ?_⟩
    obtain ⟨p, rfl⟩ := (List.mem_ofFn' _ _).1 hc
    dsimp only
    split
    · exact .inr rfl
    · exact .inl rfl
  · rintro ⟨rfl, ha⟩
    -- the bit of a cell is whether the cell is neutral
    let bits : Fin a.length → Bool := fun b => a.get b.rev = .neutral
    refine ⟨Nat.ofBits bits, Nat.ofBits_lt_two_pow bits, ?_⟩
    refine Eq.trans (congrArg List.ofFn ?_) (List.ofFn_get a)
    funext p
    have hp : a.length - 1 - p < a.length := by omega
    have hrev : Fin.rev ⟨a.length - 1 - p, hp⟩ = p := by
      apply Fin.ext
      rw [Fin.val_rev]
      dsimp only
      omega
    rw [Nat.testBit_ofBits_lt bits _ hp]
    show (if decide (a.get (Fin.rev _) = .neutral) then Charge.neutral else .negative) = _
    rw [hrev]
    rcases ha _ (List.get_mem a p) with hc | hc <;> rw [hc] <;> rfl

variable {α : Type} [Scalar α] {n : ℕ}

namespace Surface

/-! ## Cells that hold a word -/

/-- Cell `p` of `k` cells is neutral if bit `k - 1 - p` of the word is set, and negative if not. -/
def HoldsWord (cells : List (Fin n)) (word : ℕ) (s : Surface α n) : Prop :=
  ∀ p : Fin cells.length, s.charges.get (cells.get p)
    = if word.testBit (cells.length - 1 - p) then .neutral else .negative

variable {cells : List (Fin n)} {word : ℕ} {s t : Surface α n}

omit [Scalar α] in
/-- The charges of the cells are those of the word. -/
theorem HoldsWord.map_charges_eq (h : s.HoldsWord cells word) :
    cells.map s.charges.get = wordCharges cells.length word := by
  rw [wordCharges, ← funext h]
  exact (List.ofFn_getElem_eq_map cells s.charges.get).symm

omit [Scalar α] in
/-- Negative cells hold the word zero. -/
theorem holdsWord_zero (h : ∀ i ∈ cells, s.charges.get i = .negative) : s.HoldsWord cells 0 := by
  intro p
  rw [h _ (List.get_mem cells p), Nat.zero_testBit]
  rfl

omit [Scalar α] in
/-- Holding a word is about the charges of the cells alone. -/
theorem HoldsWord.congr (h : s.HoldsWord cells word)
    (hcharges : ∀ i ∈ cells, t.charges.get i = s.charges.get i) : t.HoldsWord cells word := by
  intro p
  rw [hcharges _ (List.get_mem cells p), h p]

/-- The flip of bit `b` toggles cell `k - 1 - b` of `k` cells. -/
theorem flip_eq_toggle (s : Surface α n) {b : ℕ} (hb : b < cells.length) :
    s.flip cells.toArray b = s.toggle (cells.get ⟨cells.length - 1 - b, by omega⟩) := by
  have hlt : cells.length - 1 - b < cells.length := by omega
  rw [flip, List.getElem?_toArray, List.size_toArray, List.getElem?_eq_getElem hlt]
  rfl

/-- **One bit, one toggled cell.** Cells that hold a word hold it with a bit flipped once the cell
of that bit is toggled. -/
theorem HoldsWord.flip (hcells : cells.Nodup) (h : s.HoldsWord cells word) {b : ℕ}
    (hb : b < cells.length) : (s.flip cells.toArray b).HoldsWord cells (word ^^^ 2 ^ b) := by
  intro p
  rw [flip_eq_toggle s hb, toggle, charges_assign, get_setCell, h p, h]
  dsimp only
  rw [Nat.testBit_xor, Nat.testBit_two_pow]
  have hback : cells.length - 1 - (cells.length - 1 - b) = b := by omega
  by_cases hp : cells.length - 1 - p = b
  · have hcell : p = ⟨cells.length - 1 - b, by omega⟩ := Fin.ext (by dsimp only; omega)
    rw [if_pos (congrArg cells.get hcell), hback, hp]
    cases word.testBit b <;> simp
  · -- another cell is toggled, as no cell is listed twice
    have hcell : ¬cells.get p = cells.get ⟨cells.length - 1 - b, by omega⟩ := by
      intro heq
      have hval := congrArg Fin.val (List.nodup_iff_injective_get.1 hcells heq)
      dsimp only at hval
      omega
    rw [if_neg hcell, decide_eq_false (Ne.symm hp), Bool.xor_false]

/-! ## What a walk visits -/

/-- A visit that adds what it finds in front of what was found before, and that changes neither the
charges of `cells` nor the groups of cells. -/
structure SparesCells (s : Surface α n) (cells : List (Fin n))
    (visit : Surface α n → List (Surface α n) → Surface α n × List (Surface α n)) : Prop where
  accumulates : ∀ t found, visit t found = ((visit t []).1, (visit t []).2 ++ found)
  shares : ∀ t, s.SharesGroups t → s.SharesGroups (visit t []).1
  charges_eq : ∀ t, s.SharesGroups t → ∀ i ∈ cells,
    (visit t []).1.charges.get i = t.charges.get i

/-- The surfaces with which a walk over `cells` comes to the place `g`, this one first, and to those
after it. A step flips its bit on the surface that the visit before it leaves. -/
def visitedFrom (visit : Surface α n → List (Surface α n) → Surface α n × List (Surface α n))
    (cells : Array (Fin n)) (g : GrayCode) (s : Surface α n) : List (Surface α n) :=
  match h : g.step? with
  | none => [s]
  | some (bit, g') =>
    have := GrayCode.left_lt_of_step? h
    s :: visitedFrom visit cells g' ((visit s []).1.flip cells bit)
termination_by g.left

/-- The surfaces with which a whole walk over `cells` comes to its places. -/
def visited (visit : Surface α n → List (Surface α n) → Surface α n × List (Surface α n))
    (cells : List (Fin n)) (s : Surface α n) : List (Surface α n) :=
  visitedFrom visit cells.toArray (.start cells.length) s

variable {visit : Surface α n → List (Surface α n) → Surface α n × List (Surface α n)}

theorem visitedFrom_of_none {g : GrayCode} (h : g.step? = none) (cells : Array (Fin n))
    (s : Surface α n) : visitedFrom visit cells g s = [s] := by
  unfold visitedFrom
  split
  · rfl
  · rename_i heq
    rw [h] at heq
    cases heq

theorem visitedFrom_of_some {g g' : GrayCode} {bit : ℕ} (h : g.step? = some (bit, g'))
    (cells : Array (Fin n)) (s : Surface α n) :
    visitedFrom visit cells g s
      = s :: visitedFrom visit cells g' ((visit s []).1.flip cells bit) := by
  rw [visitedFrom]
  split
  · rename_i heq
    rw [h] at heq
    cases heq
  · rename_i heq
    rw [h] at heq
    cases heq
    rfl

/-- From the visit at a place on, a walk finds what its visits find. -/
theorem reverse_walk
    (hvisit : ∀ t found, visit t found = ((visit t []).1, (visit t []).2 ++ found))
    (cells : Array (Fin n)) (g : GrayCode) (s : Surface α n) (found : List (Surface α n)) :
    (walk visit cells g (visit s found).1 (visit s found).2).reverse
      = found.reverse ++ (visitedFrom visit cells g s).flatMap fun t => (visit t []).2.reverse := by
  induction g using GrayCode.step_induction generalizing s found with
  | ended g hstep =>
    rw [walk_of_none hstep, visitedFrom_of_none hstep, List.flatMap_singleton, hvisit,
      List.reverse_append]
  | step g bit g' hstep ih =>
    have hsurface : (visit s found).1 = (visit s []).1 := by rw [hvisit]
    have hfound : (visit s found).2.reverse = found.reverse ++ (visit s []).2.reverse := by
      rw [hvisit, List.reverse_append]
    rw [walk_of_some hstep, visitedFrom_of_some hstep, hsurface, ih, hfound, List.flatMap_cons,
      List.append_assoc]

/-- **What a walk finds** is what its visits find, in order. -/
theorem reverse_walkAll
    (hvisit : ∀ t found, visit t found = ((visit t []).1, (visit t []).2 ++ found))
    (cells : List (Fin n)) (s : Surface α n) :
    (walkAll visit cells s).reverse
      = (s.visited visit cells).flatMap fun t => (visit t []).2.reverse :=
  reverse_walk hvisit cells.toArray (.start cells.length) s []

/-! ## Every assignment once -/

/-- From a place where the cells hold the current word, the walk comes to that place and to those
that follow with cells that hold the current word. -/
theorem holdsWord_visitedFrom (hcells : cells.Nodup) (hbits : cells.length ≤ 64)
    (hvisit : s.SparesCells cells visit) (steps : ℕ) {c : ℕ}
    (hc : c + steps + 1 = 2 ^ cells.length) (hgroups : s.SharesGroups t)
    (ht : t.HoldsWord cells (GrayCode.word c)) :
    List.Forall₂ (fun g t => t.HoldsWord cells g.current) (GrayCode.place cells.length c).places
      (visitedFrom visit cells.toArray (GrayCode.place cells.length c) t) := by
  induction steps generalizing c t with
  | zero =>
    have hlast : c = 2 ^ cells.length - 1 := by omega
    have hnone := GrayCode.step?_place_last cells.length
    rw [← hlast] at hnone
    rw [GrayCode.places_of_none hnone, visitedFrom_of_none hnone]
    exact .cons ht .nil
  | succ steps ih =>
    obtain ⟨b, hb, hword, hstep⟩ := GrayCode.step?_place (c := c) hbits (by omega)
    rw [GrayCode.places_of_some hstep, visitedFrom_of_some hstep]
    refine .cons ht (ih (by omega) ?_ ?_)
    · rw [flip_eq_toggle _ hb]
      exact (hvisit.shares t hgroups).trans (assign_sharesGroups _ _ _)
    · -- the visit leaves the cells as they are, so the flip finds them with the word of `c`
      rw [hword]
      exact (ht.congr (hvisit.charges_eq t hgroups)).flip hcells hb

/-- Surfaces, one for each place of a Gray walk over `cells`, whose cells hold the current word and
pass every assignment of negative and neutral charges once. -/
structure PassesAll (cells : List (Fin n)) (visited : List (Surface α n)) : Prop where
  holdsWord : List.Forall₂ (fun g t => t.HoldsWord cells g.current)
    (GrayCode.start cells.length).places visited
  nodup : (visited.map fun t => cells.map t.charges.get).Nodup
  mem_iff : ∀ a : List Charge, a ∈ visited.map (fun t => cells.map t.charges.get)
    ↔ a.length = cells.length ∧ ∀ c ∈ a, c = .negative ∨ c = .neutral

omit [Scalar α] in
/-- Cells that hold the words of a whole walk pass every assignment once. -/
theorem passesAll_of_holdsWord (hbits : cells.length ≤ 64) {visited : List (Surface α n)}
    (h : List.Forall₂ (fun g t => t.HoldsWord cells g.current)
      (GrayCode.start cells.length).places visited) : PassesAll cells visited := by
  have hwalk := GrayCode.places_start_isFullWalk hbits
  set words := (GrayCode.start cells.length).places.map (·.current) with hwords
  have hmap : visited.map (fun t => cells.map t.charges.get)
      = words.map (wordCharges cells.length) := by
    have hheld : List.Forall₂ (fun g t => wordCharges cells.length g.current
        = cells.map t.charges.get) (GrayCode.start cells.length).places visited :=
      h.imp fun _ _ ht => ht.map_charges_eq.symm
    rw [hwords, List.map_map, ← List.forall₂_eq_eq_eq, List.forall₂_map_left_iff,
      List.forall₂_map_right_iff]
    exact List.Forall₂.flip (hheld.imp fun _ _ ht => ht.symm)
  refine ⟨h, ?_, fun a => ?_⟩
  · rw [hmap]
    exact hwalk.nodup.map_on fun v hv w hw hvw =>
      eq_of_wordCharges_eq ((hwalk.mem_iff v).1 hv) ((hwalk.mem_iff w).1 hw) hvw
  · rw [hmap, List.mem_map, ← exists_wordCharges_eq_iff]
    exact exists_congr fun w => and_congr_left' (hwalk.mem_iff w)

/-- What a walk over `cells` found from `s` on: what its visits find at surfaces whose cells pass
every assignment once. -/
structure IsGrayWalk (visit : Surface α n → List (Surface α n) → Surface α n × List (Surface α n))
    (cells : List (Fin n)) (s : Surface α n) (found : List (Surface α n)) : Prop where
  passesAll : PassesAll cells (s.visited visit cells)
  found_eq : found.reverse = (s.visited visit cells).flatMap fun t => (visit t []).2.reverse

/-- **Every assignment once.** Over distinct cells that are negative at its start, a walk comes to
its places with cells that hold the current word, and so with every assignment once. -/
theorem walkAll_isGrayWalk (hcells : cells.Nodup) (hbits : cells.length ≤ 64)
    (hs : ∀ i ∈ cells, s.charges.get i = .negative) (hvisit : s.SparesCells cells visit) :
    IsGrayWalk visit cells s (walkAll visit cells s) where
  passesAll := by
    have hpow : 0 < 2 ^ cells.length := Nat.two_pow_pos _
    apply passesAll_of_holdsWord hbits
    rw [visited, GrayCode.start_eq_place hbits]
    exact holdsWord_visitedFrom hcells hbits hvisit (2 ^ cells.length - 1) (by omega)
      (SharesGroups.refl s) (holdsWord_zero hs)
  found_eq := reverse_walkAll hvisit.accumulates cells s

/-! ## The walks of the pruned enumeration -/

/-- Adding a surface depends on nothing found before. -/
theorem record_eq_append (found : List (Surface α n)) (s : Surface α n) :
    record found s = record [] s ++ found := by
  rw [record, record]
  split <;> rfl

/-- A test spares all cells but the dependent one. -/
theorem settleAndRecord_spares (hdep : ∀ i ∈ cells, s.dependent ≠ some i) :
    s.SparesCells cells settleAndRecord where
  accumulates _ found := congrArg (Prod.mk _) (record_eq_append found _)
  shares t ht := ht.trans (settleDependent_sharesGroups t)
  charges_eq _ ht i hi := get_charges_settleDependent_of_ne (ht.dependent_eq ▸ hdep i hi)

/-- Counting through cells spares all others but the dependent one. -/
theorem countThrough_spares (hdep : ∀ i ∈ cells, s.dependent ≠ some i) {inner : List (Fin n)}
    (hdisj : ∀ i ∈ cells, i ∉ inner) (index count : ℕ) :
    s.SparesCells cells fun t found => countThrough inner t found index count := by
  have htest := settleAndRecord_spares (s := s) hdep
  induction count generalizing index with
  | zero => exact ⟨fun _ _ => rfl, fun _ ht => ht, fun _ _ _ _ => rfl⟩
  | succ count ih =>
    have hrest := ih (index + 1)
    have hdigits : ∀ t, s.SharesGroups t → s.SharesGroups (assignDigits 3 inner index t) :=
      fun t ht => ht.trans (assignDigits_sharesGroups 3 inner index t)
    refine ⟨fun t found => ?_, fun t ht => ?_, fun t ht i hi => ?_⟩
    · have hfirst := htest.accumulates (assignDigits 3 inner index t) found
      rw [countThrough, countThrough, hfirst]
      dsimp only
      rw [hrest.accumulates, hrest.accumulates _ (settleAndRecord _ []).2, List.append_assoc]
    · rw [countThrough]
      dsimp only
      rw [hrest.accumulates]
      exact hrest.shares _ (htest.shares _ (hdigits t ht))
    · rw [countThrough]
      dsimp only
      rw [hrest.accumulates]
      dsimp only
      rw [hrest.charges_eq _ (htest.shares _ (hdigits t ht)) i hi,
        htest.charges_eq _ (hdigits t ht) i hi, charges_assignDigits,
        get_setDigits_of_notMem (.inr rfl) (hdisj i hi)]

/-- Making cells negative changes no group of cells. -/
theorem clear_sharesGroups (s : Surface α n) (cells : List (Fin n)) :
    s.SharesGroups (s.clear cells) := by
  unfold clear
  induction cells generalizing s with
  | nil => exact SharesGroups.refl s
  | cons i is ih => exact (assign_sharesGroups s i .negative).trans (ih _)

/-- Cells that are made negative are negative, and so are those that were. -/
theorem get_charges_clear {i : Fin n} (h : i ∈ cells ∨ s.charges.get i = .negative) :
    (s.clear cells).charges.get i = .negative := by
  unfold clear
  induction cells generalizing s with
  | nil => exact h.resolve_left List.not_mem_nil
  | cons j js ih =>
    rw [List.foldl_cons]
    apply ih
    rw [charges_assign, get_setCell]
    by_cases hij : i = j
    · exact .inr (if_pos hij)
    · rw [if_neg hij]
      exact h.imp_left fun hi => (List.mem_cons.1 hi).resolve_left hij

section Grouped

variable (hs : s.IsGrouped)

include hs

/-- The independent cells are distinct, and clearing them leaves none of them dependent. -/
theorem IsGrouped.ne_dependent_clear {i : Fin n} (hi : i ∈ s.independent) :
    (s.clear s.independent).dependent ≠ some i := by
  rw [(clear_sharesGroups s _).dependent_eq]
  exact (hs.mem_independent_iff.1 hi).2

/-- **The walk over two states** comes once to every assignment of the independent cells. -/
theorem walkTwoStates_isGrayWalk (hbits : s.independent.length ≤ 64) :
    IsGrayWalk settleAndRecord s.independent (s.clear s.independent) (walkTwoStates s) :=
  walkAll_isGrayWalk (hs.pairwise_independent.imp ne_of_lt) hbits
    (fun _ hi => get_charges_clear (.inl hi))
    (settleAndRecord_spares fun _ hi => hs.ne_dependent_clear hi)

/-- **The walk over three states** comes once to every assignment of the independent cells that
cannot be positive. Its visits count through the others. -/
theorem walkThreeStates_isGrayWalk :
    let inner := s.independent.filter s.env.canBePositive
    let outer := s.independent.filter fun i => !s.env.canBePositive i
    outer.length ≤ 64 →
      IsGrayWalk
        (fun t found => countThrough inner.reverse t found 0 (min (3 ^ inner.length) (2 ^ 64 - 1)))
        outer (s.clear s.independent) (walkThreeStates s) := by
  intro inner outer hbits
  have hmem : ∀ i ∈ outer, i ∈ s.independent := fun i hi => (List.mem_filter.1 hi).1
  have hdisj : ∀ i ∈ outer, i ∉ inner.reverse := by
    intro i hi hinner
    have hpositive := (List.mem_filter.1 (List.mem_reverse.1 hinner)).2
    have hother := (List.mem_filter.1 hi).2
    rw [hpositive] at hother
    cases hother
  exact walkAll_isGrayWalk ((hs.pairwise_independent.imp ne_of_lt).filter _) hbits
    (fun i hi => get_charges_clear (.inl (hmem i hi)))
    (countThrough_spares (fun i hi => hs.ne_dependent_clear (hmem i hi)) hdisj 0 _)

end Grouped

end Surface

/-! ## Words and assignments -/

/-- **Gray walks.** For at most 64 bits the steps from the start on pass every word of `k` bits
once, first zero, until no step is left, and each reports the one bit that it flips. A walk toggles
the cell of the reported bit. Over any `k` distinct cells that are negative at its start, with
visits that leave their charges alone, it comes to each place with cell `p` neutral if bit
`k - 1 - p` of the current word is set and negative if not, so that the cells pass every assignment
of negative and neutral charges once; it finds what its visits find there. Both walks of the pruned
enumeration are such walks, on all surfaces with their cells in groups. -/
theorem GrayCode.places_passAll {k : ℕ} (hk : k ≤ 64) :
    IsFullWalk k (start k).places ∧
      ∀ (α : Type) [Scalar α] (n : ℕ) (s : Surface α n),
        (∀ (cells : List (Fin n))
            (visit : Surface α n → List (Surface α n) → Surface α n × List (Surface α n)),
          cells.length = k → cells.Nodup → (∀ i ∈ cells, s.charges.get i = .negative) →
            s.SparesCells cells visit → s.IsGrayWalk visit cells (walkAll visit cells s)) ∧
        (s.IsGrouped → s.independent.length = k →
          (s.clear s.independent).IsGrayWalk settleAndRecord s.independent (walkTwoStates s)) ∧
        (s.IsGrouped →
          let inner := s.independent.filter s.env.canBePositive
          let outer := s.independent.filter fun i => !s.env.canBePositive i
          outer.length = k →
            (s.clear s.independent).IsGrayWalk
              (fun t found =>
                countThrough inner.reverse t found 0 (min (3 ^ inner.length) (2 ^ 64 - 1)))
              outer (walkThreeStates s)) := by
  refine ⟨places_start_isFullWalk hk, fun α _ n s => ⟨?_, ?_, ?_⟩⟩
  · intro cells visit hlength hcells hs hvisit
    exact Surface.walkAll_isGrayWalk hcells (hlength ▸ hk) hs hvisit
  · intro hs hlength
    exact Surface.walkTwoStates_isGrayWalk hs (hlength ▸ hk)
  · intro hs inner outer hlength
    exact Surface.walkThreeStates_isGrayWalk hs (hlength ▸ hk)

/-- Two cells pass their assignments in the order of the words 0, 1, 3 and 2. -/
theorem places_passAll_twinCells :
    let s := Surface.ofLayout twinCells chargelessScan.parameters
    let cells := List.finRange twinCells.size
    let toggling := fun (t : Surface ℝ twinCells.size) found => (t, t :: found)
    (GrayCode.start 2).places.map (·.current) = [0, 1, 3, 2] ∧
      s.independent = cells ∧ (∀ i ∈ cells, s.charges.get i = .negative) ∧
      s.IsGrayWalk toggling cells (walkAll toggling cells s) ∧
      (s.clear cells).IsGrayWalk settleAndRecord cells (walkTwoStates s) ∧
      (s.clear cells).IsGrayWalk (fun t found => countThrough [] t found 0 1) cells
        (walkThreeStates s) := by
  intro s cells toggling
  obtain ⟨-, hwalks⟩ := GrayCode.places_passAll (show 2 ≤ 64 by decide)
  obtain ⟨hany, htwo, hthree⟩ := hwalks ℝ twinCells.size s
  have hgrouped : s.IsGrouped := Surface.ofEnvironment_isGrouped _
  have hnegative : ∀ i ∈ cells, s.charges.get i = .negative := fun i _ => get_replicate i _
  have hlength : cells.length = 2 := List.length_finRange
  have hpositive : ∀ i, s.env.canBePositive i = false :=
    (twinCells_sharesElectron 2).canBePositive_eq_false
  have hinner : s.independent.filter s.env.canBePositive = [] := by
    refine List.filter_eq_nil_iff.2 fun i _ => ?_
    rw [hpositive]
    exact Bool.false_ne_true
  have houter : (s.independent.filter fun i => !s.env.canBePositive i) = cells := by
    refine List.filter_eq_self.2 fun i _ => ?_
    rw [hpositive]
    rfl
  refine ⟨?_, rfl, hnegative, ?_, htwo hgrouped hlength, ?_⟩
  · rw [GrayCode.map_current_places_start (by decide)]
    decide
  · exact hany cells toggling hlength (List.nodup_finRange _) hnegative
      ⟨fun _ _ => rfl, fun _ ht => ht, fun _ _ _ _ => rfl⟩
  · have hwalk := hthree hgrouped (houter ▸ hlength)
    rwa [houter, hinner] at hwalk

end DanglingBonds
