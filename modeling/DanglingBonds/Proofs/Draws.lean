/-
# Proper draws

A draw of no more indices than there are yields different indices below the bound, whether the
source serves them from lists of wishes or from a seed. The points of a sample are then different
points of the grid.

* `DrawSource.isProper_ofLists`, `DrawSource.isProper_ofSeed` : both sources draw properly.
* `DrawSource.isComplete_ofLists`, `DrawSource.isComplete_ofSeed` : they draw as many as are asked
  for.
* `Grid.sample_nodup`, `Grid.mem_of_mem_sample` : samples of grid points.
* `Grid.length_sample`, `Grid.mem_sample_iff_of_total_le` : their number, and a sample of all points.
-/
import Mathlib
import DanglingBonds.Proofs.Surveys

namespace DanglingBonds

/-- A draw of no more indices than there are yields different indices below the bound. -/
def DrawSource.IsProper (draws : DrawSource) (call bound : ℕ) : Prop :=
  ∀ amount ≤ bound,
    (draws.draw call bound amount).Nodup ∧ ∀ i ∈ draws.draw call bound amount, i < bound

/-- Such a draw yields as many indices as are asked for. -/
structure DrawSource.IsComplete (draws : DrawSource) (call bound : ℕ) : Prop where
  isProper : draws.IsProper call bound
  length_draw : ∀ amount ≤ bound, (draws.draw call bound amount).length = amount

/-! ## Draws by wishes -/

/-- No index is taken that is not wished. -/
theorem mem_of_mem_takeWished {taken ws : List ℕ} {amount i : ℕ}
    (h : i ∈ takeWished taken amount ws) : i ∈ taken ∨ i ∈ ws := by
  induction ws generalizing taken with
  | nil => exact .inl h
  | cons w ws ih =>
    rw [takeWished] at h
    split_ifs at h with hfull hold
    · exact .inl h
    · exact (ih h).imp_right (List.mem_cons_of_mem w)
    · rcases ih h with h | h
      · rw [List.mem_append, List.mem_singleton] at h
        rcases h with h | rfl
        · exact .inl h
        · exact .inr List.mem_cons_self
      · exact .inr (List.mem_cons_of_mem w h)

/-- If no index is to be taken, none is. -/
theorem takeWished_zero (ws : List ℕ) : takeWished [] 0 ws = [] := by
  cases ws with
  | nil => rfl
  | cons w ws => exact if_pos le_rfl

/-- A draw by wishes stays below the bound. -/
theorem lt_of_mem_drawFrom {wishes : List ℕ} {bound amount i : ℕ} (hamount : amount ≤ bound)
    (h : i ∈ drawFrom wishes bound amount) : i < bound := by
  rw [drawFrom, List.mem_append] at h
  rcases h with h | h
  · rcases Nat.eq_zero_or_pos bound with hbound | hbound
    · rw [hbound, Nat.le_zero] at hamount
      rw [hamount, takeWished_zero] at h
      exact absurd h List.not_mem_nil
    · obtain ⟨w, -, rfl⟩ :=
        List.mem_map.1 ((mem_of_mem_takeWished h).resolve_left List.not_mem_nil)
      exact Nat.mod_lt w hbound
  · have hrange := (List.mem_filter.1 (List.mem_of_mem_take h)).1
    exact (List.mem_range.1 hrange).trans_le hamount

/-- **A source that serves lists of wishes draws properly.** -/
theorem DrawSource.isProper_ofLists (lists : List (List ℕ)) (call bound : ℕ) :
    (ofLists lists).IsProper call bound := by
  intro amount hamount
  rw [ofLists]
  dsimp only
  cases lists[call % lists.length]? with
  | some wishes => exact ⟨drawFrom_nodup wishes bound amount, fun _ => lt_of_mem_drawFrom hamount⟩
  | none =>
    exact ⟨List.nodup_range, fun i hi => (List.mem_range.1 hi).trans_le hamount⟩

/-- No more indices are taken than are asked for. -/
theorem length_takeWished_le {taken ws : List ℕ} {amount : ℕ} (h : taken.length ≤ amount) :
    (takeWished taken amount ws).length ≤ amount := by
  induction ws generalizing taken with
  | nil => exact h
  | cons w ws ih =>
    rw [takeWished]
    split_ifs with hfull hold
    · exact h
    · exact ih h
    · refine ih ?_
      rw [List.length_append, List.length_singleton]
      exact Nat.succ_le_of_lt (not_le.1 hfull)

/-- Of the indices below `amount`, those that are not taken complete the taken ones. -/
theorem le_length_filter_notMem {taken : List ℕ} {amount : ℕ} :
    amount - taken.length ≤ ((List.range amount).filter (· ∉ taken)).length := by
  have htaken : ((List.range amount).filter (· ∈ taken)).length ≤ taken.length := by
    refine (List.subperm_of_subset (List.nodup_range.filter _) fun i hi => ?_).length_le
    exact of_decide_eq_true (List.mem_filter.1 hi).2
  have hsplit := (List.range amount).length_eq_length_filter_add fun i => decide (i ∈ taken)
  simp only [List.length_range, ← decide_not] at hsplit
  omega

/-- A draw by wishes yields as many indices as are asked for. -/
theorem length_drawFrom (wishes : List ℕ) (bound amount : ℕ) :
    (drawFrom wishes bound amount).length = amount := by
  have hle : (takeWished [] amount (wishes.map (· % bound))).length ≤ amount :=
    length_takeWished_le (Nat.zero_le amount)
  rw [drawFrom, List.length_append, List.length_take, min_eq_left le_length_filter_notMem]
  exact Nat.add_sub_cancel' hle

/-- **A source that serves lists of wishes draws as many indices as are asked for.** -/
theorem DrawSource.isComplete_ofLists (lists : List (List ℕ)) (call bound : ℕ) :
    (ofLists lists).IsComplete call bound where
  isProper := isProper_ofLists lists call bound
  length_draw := by
    intro amount _
    rw [ofLists]
    dsimp only
    cases lists[call % lists.length]? with
    | some wishes => exact length_drawFrom wishes bound amount
    | none => exact List.length_range

/-! ## Draws by a seed -/

/-- A random number from a range that begins with zero lies in the range. -/
theorem randNat_zero_le (g : StdGen) (last : ℕ) : (randNat g 0 last).1 ≤ last := by
  have hlast : ¬ 0 > last := Nat.not_lt_zero last
  simp only [randNat, if_neg hlast, Nat.sub_zero, Nat.zero_add]
  exact Nat.lt_succ_iff.1 (Nat.mod_lt _ (Nat.succ_pos last))

/-- One more index is drawn: if it has been taken before, the largest possible one takes the other's
place. -/
theorem nodup_map_append_singleton {taken : List ℕ} {i last : ℕ} (hnodup : taken.Nodup)
    (htaken : ∀ t ∈ taken, t < last) (hi : i ≤ last) :
    (taken.map (fun t => if t = i then last else t) ++ [i]).Nodup ∧
      ∀ t ∈ taken.map (fun t => if t = i then last else t) ++ [i], t < last + 1 := by
  have hmap : ∀ t ∈ taken,
      (if t = i then last else t) ≠ i ∧ (if t = i then last else t) ≤ last := by
    intro t ht
    have hlt := htaken t ht
    split_ifs with heq
    · exact ⟨fun h => by omega, le_rfl⟩
    · exact ⟨heq, hlt.le⟩
  have hinj : ∀ t ∈ taken, ∀ u ∈ taken,
      (if t = i then last else t) = (if u = i then last else u) → t = u := by
    intro t ht u hu heq
    have htlt := htaken t ht
    have hult := htaken u hu
    split_ifs at heq <;> omega
  constructor
  · refine List.nodup_append.2 ⟨hnodup.map_on hinj, List.nodup_singleton i, ?_⟩
    rintro _ ht u hu rfl
    obtain ⟨t, ht, hti⟩ := List.mem_map.1 ht
    exact (hmap t ht).1 (hti.trans (List.mem_singleton.1 hu))
  · intro u hu
    rcases List.mem_append.1 hu with hu | hu
    · obtain ⟨t, ht, rfl⟩ := List.mem_map.1 hu
      exact Nat.lt_succ_of_le (hmap t ht).2
    · rw [List.mem_singleton.1 hu]
      exact Nat.lt_succ_of_le hi

/-- Further draws keep the indices different and below the bound. -/
theorem sampleWith_proper {bound k : ℕ} {taken : List ℕ} (g : StdGen) (hk : k ≤ bound)
    (hnodup : taken.Nodup) (htaken : ∀ t ∈ taken, t < bound - k) :
    (sampleWith bound taken g k).Nodup ∧ ∀ t ∈ sampleWith bound taken g k, t < bound := by
  induction k generalizing taken g with
  | zero => exact ⟨hnodup, htaken⟩
  | succ k ih =>
    rw [sampleWith]
    obtain ⟨hnodup', htaken'⟩ :=
      nodup_map_append_singleton hnodup htaken (randNat_zero_le g (bound - (k + 1)))
    refine ih _ (Nat.le_of_succ_le hk) hnodup' fun t ht => (htaken' t ht).trans_le ?_
    omega

/-- **A source with a seed draws properly.** -/
theorem DrawSource.isProper_ofSeed (seed call bound : ℕ) : (ofSeed seed).IsProper call bound := by
  intro amount _
  exact sampleWith_proper _ (min_le_right amount bound) List.nodup_nil
    fun _ ht => absurd ht List.not_mem_nil

/-- Each further draw adds one index. -/
theorem length_sampleWith (bound : ℕ) (taken : List ℕ) (g : StdGen) (k : ℕ) :
    (sampleWith bound taken g k).length = taken.length + k := by
  induction k generalizing taken g with
  | zero => rfl
  | succ k ih =>
    rw [sampleWith, ih, List.length_append, List.length_map, List.length_singleton]
    omega

/-- **A source with a seed draws as many indices as are asked for.** -/
theorem DrawSource.isComplete_ofSeed (seed call bound : ℕ) :
    (ofSeed seed).IsComplete call bound where
  isProper := isProper_ofSeed seed call bound
  length_draw := by
    intro amount hamount
    rw [ofSeed]
    dsimp only
    rw [length_sampleWith, List.length_nil, Nat.zero_add, min_eq_left hamount]

/-! ## Samples -/

namespace Grid

variable {g : Grid} {draws : DrawSource} {call amount : ℕ}

/-- A sample has different points. -/
theorem sample_nodup (hdraws : draws.IsProper call g.total) : (g.sample draws call amount).Nodup :=
  (hdraws _ (min_le_right amount g.total)).1.map point_injective

/-- A sample has points that are counted. -/
theorem mem_points_of_mem_sample (hdraws : draws.IsProper call g.total) {p : GridIndex}
    (hp : p ∈ g.sample draws call amount) : p ∈ g.points :=
  List.map_subset _ (fun i hi => List.mem_range.2 ((hdraws _ (min_le_right amount g.total)).2 i hi))
    hp

/-- A sample has points of the grid. -/
theorem mem_of_mem_sample (hdraws : draws.IsProper call g.total) {p : GridIndex}
    (hp : p ∈ g.sample draws call amount) : p ∈ g :=
  mem_of_mem_points (mem_points_of_mem_sample hdraws hp)

/-- A sample has as many points as are asked for, at most all that are counted. -/
theorem length_sample (hdraws : draws.IsComplete call g.total) :
    (g.sample draws call amount).length = min amount g.total := by
  rw [sample, List.length_map, hdraws.length_draw _ (min_le_right amount g.total)]

/-- If at least as many points are asked for as are counted, the sample has all of them. -/
theorem mem_sample_iff_of_total_le (hdraws : draws.IsComplete call g.total) (h : g.total ≤ amount)
    {p : GridIndex} : p ∈ g.sample draws call amount ↔ p ∈ g.points := by
  have hsubset : g.sample draws call amount ⊆ g.points :=
    fun q hq => mem_points_of_mem_sample hdraws.isProper hq
  have hlength : g.points.length ≤ (g.sample draws call amount).length := by
    rw [length_points, length_sample hdraws, min_eq_right h]
  exact ((List.subperm_of_subset (sample_nodup hdraws.isProper) hsubset).perm_of_length_le
    hlength).mem_iff

end Grid

end DanglingBonds
