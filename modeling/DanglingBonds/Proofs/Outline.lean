/-
# The outline of a region

The sides of a region are the edges between its points and the points outside. From each side the
outline goes on to one other, and back to one other, so the outline is made of closed curves. The
steps of a contour are sides, and each step follows the outline until it comes to another point.

* `ContourStep.turn`, `ContourStep.turn_injOn` : the next side, and that it determines the one
  before.
* `ContourStep.next?_eq_none_iff` : there is no next step at an isolated point only.
* `ContourStep.exists_turn_of_next?` : a step is a number of turns about one point.
-/
import Mathlib
import DanglingBonds.Domain.Contour
import DanglingBonds.Proofs.PlanePoints

namespace DanglingBonds

namespace ContourStep

variable {inside : PlanePoint → Bool} {s t : ContourStep}

/-! ## Sides -/

/-- A step at a side of the region: its point is inside, the point seen last is outside, and the two
share an edge. -/
structure IsSide (inside : PlanePoint → Bool) (s : ContourStep) : Prop where
  current_inside : inside s.current = true
  backtrack_outside : inside s.backtrack = false
  sharesEdge : SharesEdge s.current s.backtrack

/-- The neighbour across the corner that comes next, clockwise, after the point seen last. -/
def corner (s : ContourStep) : PlanePoint :=
  (s.backtrack.1 + (s.backtrack.2 - s.current.2), s.backtrack.2 - (s.backtrack.1 - s.current.1))

/-- The neighbour a quarter turn on, clockwise, from the point seen last. -/
def ahead (s : ContourStep) : PlanePoint :=
  (s.current.1 + (s.backtrack.2 - s.current.2), s.current.2 - (s.backtrack.1 - s.current.1))

/-- The side that follows clockwise. The outline turns off to the point across the corner if that is
inside, goes straight on if the point ahead is, and else stays at the point. -/
def turn (inside : PlanePoint → Bool) (s : ContourStep) : ContourStep :=
  if inside s.corner then ⟨s.corner, s.backtrack⟩
  else if inside s.ahead then ⟨s.ahead, s.corner⟩
  else ⟨s.current, s.ahead⟩

/-- The outline comes to another point. -/
def Moves (inside : PlanePoint → Bool) (s : ContourStep) : Prop :=
  inside s.corner = true ∨ inside s.ahead = true

theorem turn_of_corner (h : inside s.corner = true) :
    s.turn inside = ⟨s.corner, s.backtrack⟩ := if_pos h

theorem turn_of_ahead (hcorner : inside s.corner = false) (h : inside s.ahead = true) :
    s.turn inside = ⟨s.ahead, s.corner⟩ := by
  rw [turn, hcorner, if_neg Bool.false_ne_true, if_pos h]

theorem turn_of_not_moves (h : ¬ s.Moves inside) : s.turn inside = ⟨s.current, s.ahead⟩ := by
  rw [Moves, not_or] at h
  rw [turn, if_neg h.1, if_neg h.2]

/-- The next side is a side. -/
theorem IsSide.turn (hs : IsSide inside s) : IsSide inside (s.turn inside) := by
  have hedge := hs.sharesEdge
  unfold SharesEdge at hedge
  cases hcorner : inside s.corner with
  | true =>
    rw [turn_of_corner hcorner]
    refine ⟨hcorner, hs.backtrack_outside, ?_⟩
    simp only [SharesEdge, corner]
    omega
  | false =>
    cases hahead : inside s.ahead with
    | true =>
      rw [turn_of_ahead hcorner hahead]
      refine ⟨hahead, hcorner, ?_⟩
      simp only [SharesEdge, corner, ahead]
      omega
    | false =>
      rw [turn_of_not_moves (by simp [Moves, hcorner, hahead])]
      refine ⟨hs.current_inside, hahead, ?_⟩
      simp only [SharesEdge, ahead]
      omega

theorem IsSide.iterate (hs : IsSide inside s) (n : ℕ) :
    IsSide inside ((ContourStep.turn inside)^[n] s) := by
  induction n with
  | zero => exact hs
  | succ n ih =>
    rw [Function.iterate_succ_apply']
    exact ih.turn

/-- The outline comes to another point exactly if it moves. -/
theorem current_turn_ne_iff (hs : IsSide inside s) :
    (s.turn inside).current ≠ s.current ↔ s.Moves inside := by
  have hedge := hs.sharesEdge
  unfold SharesEdge at hedge
  constructor
  · intro h
    by_contra hmoves
    rw [turn_of_not_moves hmoves] at h
    exact h rfl
  · intro h heq
    cases hcorner : inside s.corner with
    | true =>
      rw [turn_of_corner hcorner] at heq
      simp only [corner, Prod.ext_iff] at heq
      omega
    | false =>
      rw [turn_of_ahead hcorner (h.resolve_left (by simp [hcorner]))] at heq
      simp only [ahead, Prod.ext_iff] at heq
      omega

/-! ## The side before -/

/-- The point seen last lies in the direction that is looked up. -/
theorem direction_eq {d : Fin 8} (h : s.backtrack = s.neighbor d) : s.direction = d := by
  have hoffset : (s.backtrack.1 - s.current.1, s.backtrack.2 - s.current.2) = clockwise d := by
    rw [h, neighbor]
    simp only [add_sub_cancel_left]
  have hfound : ∀ d : Fin 8,
      ((List.finRange 8).find? fun d' => clockwise d' == clockwise d).getD 0 = d := by decide
  rw [direction, hoffset]
  exact hfound d

/-- The directions west, north, east and south. -/
def IsStraight (d : Fin 8) : Prop :=
  2 ∣ d.val

theorem isStraight_iff {d : Fin 8} : IsStraight d ↔ d = 0 ∨ d = 2 ∨ d = 4 ∨ d = 6 := by
  revert d
  unfold IsStraight
  decide

theorem IsStraight.add_two {d : Fin 8} (hd : IsStraight d) : IsStraight (d + 2) := by
  revert d
  unfold IsStraight
  decide

/-- A point that shares an edge lies west, north, east or south. -/
theorem exists_isStraight (h : SharesEdge s.current s.backtrack) :
    ∃ d, IsStraight d ∧ s.backtrack = s.neighbor d := by
  have hcases : s.backtrack = s.neighbor 0 ∨ s.backtrack = s.neighbor 2 ∨
      s.backtrack = s.neighbor 4 ∨ s.backtrack = s.neighbor 6 := by
    unfold SharesEdge at h
    simp only [neighbor, clockwise, Prod.ext_iff]
    omega
  rcases hcases with h | h | h | h
  · exact ⟨0, isStraight_iff.2 (.inl rfl), h⟩
  · exact ⟨2, isStraight_iff.2 (.inr (.inl rfl)), h⟩
  · exact ⟨4, isStraight_iff.2 (.inr (.inr (.inl rfl))), h⟩
  · exact ⟨6, isStraight_iff.2 (.inr (.inr (.inr rfl))), h⟩

/-- A quarter turn and half of it, in coordinates. -/
theorem clockwise_add {d : Fin 8} (hd : IsStraight d) :
    clockwise (d + 1)
        = ((clockwise d).1 + (clockwise d).2, (clockwise d).2 - (clockwise d).1) ∧
      clockwise (d + 2) = ((clockwise d).2, -(clockwise d).1) := by
  rcases isStraight_iff.1 hd with rfl | rfl | rfl | rfl <;> decide

/-- The two neighbours that come next. -/
theorem corner_and_ahead_eq {d : Fin 8} (hd : IsStraight d) (h : s.backtrack = s.neighbor d) :
    s.corner = s.neighbor (d + 1) ∧ s.ahead = s.neighbor (d + 2) := by
  obtain ⟨hhalf, hquarter⟩ := clockwise_add hd
  simp only [corner, ahead, h, neighbor, hhalf, hquarter, Prod.ext_iff]
  omega

/-- The point seen last is now the one ahead. -/
def rotate (s : ContourStep) : ContourStep :=
  ⟨s.current, s.ahead⟩

/-- The steps that may follow, clockwise from the point seen last. -/
theorem successors_eq (h : SharesEdge s.current s.backtrack) :
    s.successors = [⟨s.corner, s.backtrack⟩, ⟨s.ahead, s.corner⟩,
      ⟨s.rotate.corner, s.ahead⟩, ⟨s.rotate.ahead, s.rotate.corner⟩,
      ⟨s.rotate.rotate.corner, s.rotate.ahead⟩,
      ⟨s.rotate.rotate.ahead, s.rotate.rotate.corner⟩,
      ⟨s.rotate.rotate.rotate.corner, s.rotate.rotate.ahead⟩] := by
  obtain ⟨d, hd, hback⟩ := exists_isStraight h
  obtain ⟨hcorner, hahead⟩ := corner_and_ahead_eq hd hback
  obtain ⟨hcorner₁, hahead₁⟩ := corner_and_ahead_eq (s := s.rotate) hd.add_two hahead
  obtain ⟨hcorner₂, hahead₂⟩ :=
    corner_and_ahead_eq (s := s.rotate.rotate) hd.add_two.add_two hahead₁
  obtain ⟨hcorner₃, -⟩ :=
    corner_and_ahead_eq (s := s.rotate.rotate.rotate) hd.add_two.add_two.add_two hahead₂
  rw [successors, direction_eq hback, hcorner, hahead, hcorner₁, hahead₁, hcorner₂, hahead₂,
    hcorner₃, hback]
  rcases isStraight_iff.1 hd with rfl | rfl | rfl | rfl <;> rfl

/-- After four quarter turns the point is looked at from where it was. -/
theorem rotate_four (s : ContourStep) : s.rotate.rotate.rotate.rotate = s := by
  have hahead : s.rotate.rotate.rotate.ahead = s.backtrack := by
    simp only [rotate, ahead, Prod.ext_iff]
    omega
  rw [rotate, hahead]
  rfl

/-- The point seen last is found in its direction. -/
theorem neighbor_direction (h : SharesEdge s.current s.backtrack) :
    s.neighbor s.direction = s.backtrack := by
  obtain ⟨d, -, hback⟩ := exists_isStraight h
  rw [direction_eq hback, hback]

/-- A point has a neighbour in each direction and no others. -/
theorem touches_iff {q : PlanePoint} : Touches s.current q ↔ ∃ d, q = s.neighbor d := by
  have hunit : ∀ d, max (clockwise d).1.natAbs (clockwise d).2.natAbs = 1 := by decide
  have hall : ∀ a ∈ ([-1, 0, 1] : List ℤ), ∀ b ∈ ([-1, 0, 1] : List ℤ), (a, b) ≠ (0, 0) →
      ∃ d, clockwise d = (a, b) := by decide
  constructor
  · intro h
    unfold Touches at h
    obtain ⟨d, hd⟩ : ∃ d, clockwise d = (q.1 - s.current.1, q.2 - s.current.2) := by
      apply hall
      · simp only [List.mem_cons, List.not_mem_nil, or_false]
        omega
      · simp only [List.mem_cons, List.not_mem_nil, or_false]
        omega
      · rw [Ne, Prod.mk.injEq]
        omega
    refine ⟨d, ?_⟩
    rw [neighbor, hd, add_sub_cancel, add_sub_cancel]
  · rintro ⟨d, rfl⟩
    rw [Touches, neighbor, ← hunit d]
    omega

/-! ## The next step -/

/-- The next step of a contour: the first that may follow whose point is inside. -/
def next? (inside : PlanePoint → Bool) (s : ContourStep) : Option ContourStep :=
  s.successors.find? fun t => inside t.current

/-- If the outline moves to another point, that is the next step. -/
theorem next?_of_moves (hs : IsSide inside s) (h : s.Moves inside) :
    next? inside s = some (s.turn inside) := by
  rw [next?, successors_eq hs.sharesEdge]
  cases hcorner : inside s.corner with
  | true =>
    rw [turn_of_corner hcorner]
    exact List.find?_cons_of_pos hcorner
  | false =>
    have hahead : inside s.ahead = true := h.resolve_left (by simp [hcorner])
    rw [turn_of_ahead hcorner hahead, List.find?_cons_of_neg (by simp [hcorner])]
    exact List.find?_cons_of_pos hahead

/-- If it stays at the point, the next step is found from there as well. -/
theorem next?_turn_of_not_moves (hs : IsSide inside s) (h : ¬ s.Moves inside) :
    next? inside (s.turn inside) = next? inside s := by
  have hrotate : s.turn inside = s.rotate := turn_of_not_moves h
  have hedge := hs.turn.sharesEdge
  rw [hrotate] at hedge ⊢
  have hback : s.rotate.rotate.rotate.ahead = s.backtrack :=
    congrArg ContourStep.backtrack (rotate_four s)
  rw [Moves, not_or, Bool.not_eq_true, Bool.not_eq_true] at h
  -- both look at the same five neighbours, before or after those known to be outside
  rw [next?, next?, successors_eq hs.sharesEdge, successors_eq hedge, rotate_four, hback]
  simp only [List.find?, h.1, h.2, hs.backtrack_outside]
  rfl

/-- A step has no next one exactly if no neighbour of its point is inside. -/
theorem next?_eq_none_iff (hs : IsSide inside s) :
    next? inside s = none ↔ ∀ q, Touches s.current q → inside q = false := by
  have hback := neighbor_direction hs.sharesEdge
  -- the directions looked into are all but that of the point seen last
  have hdirections : ∀ d e : Fin 8, d ≠ e →
      ∃ k ∈ ([0, 1, 2, 3, 4, 5, 6] : List (Fin 8)), d = e + k + 1 := by decide
  rw [next?, List.find?_eq_none, successors, List.forall_mem_map]
  simp only [Bool.not_eq_true]
  constructor
  · intro h q hq
    obtain ⟨d, rfl⟩ := touches_iff.1 hq
    by_cases hd : d = s.direction
    · rw [hd, hback]
      exact hs.backtrack_outside
    · obtain ⟨k, hk, rfl⟩ := hdirections d s.direction hd
      exact h k hk
  · intro h k _
    exact h _ (touches_iff.2 ⟨_, rfl⟩)

/-! ## From step to step along the outline -/

/-- As long as the outline stays at a point, the next step is the same. -/
theorem next?_iterate (hs : IsSide inside s) {n : ℕ}
    (h : ∀ i ≤ n, ((turn inside)^[i] s).current = s.current) :
    next? inside ((turn inside)^[n] s) = next? inside s := by
  induction n with
  | zero => rfl
  | succ n ih =>
    have hside := hs.iterate n
    have hcurrent := h (n + 1) le_rfl
    rw [Function.iterate_succ_apply', ← h n (Nat.le_succ n)] at hcurrent
    have hstays : ¬ ((turn inside)^[n] s).Moves inside :=
      fun hmoves => (current_turn_ne_iff hside).2 hmoves hcurrent
    rw [Function.iterate_succ_apply', next?_turn_of_not_moves hside hstays]
    exact ih fun i hi => h i (Nat.le_succ_of_le hi)

/-- At a point with a neighbour inside, the outline moves on in the end. -/
theorem exists_moves (hs : IsSide inside s) (h : next? inside s ≠ none) :
    ∃ n, ((turn inside)^[n] s).Moves inside := by
  by_contra hnever
  rw [not_exists] at hnever
  have hrotate : ∀ n, (turn inside)^[n] s = rotate^[n] s := by
    intro n
    induction n with
    | zero => rfl
    | succ n ih =>
      rw [Function.iterate_succ_apply', Function.iterate_succ_apply', turn_of_not_moves (hnever n),
        ih]
      rfl
  have houtside : ∀ n,
      inside (rotate^[n] s).corner = false ∧ inside (rotate^[n] s).ahead = false := by
    intro n
    have hstays := hnever n
    rwa [hrotate, Moves, not_or, Bool.not_eq_true, Bool.not_eq_true] at hstays
  refine h ?_
  rw [next?, successors_eq hs.sharesEdge, List.find?_eq_none]
  simp only [List.forall_mem_cons, Bool.not_eq_true]
  exact ⟨(houtside 0).1, (houtside 0).2, (houtside 1).1, (houtside 1).2, (houtside 2).1,
    (houtside 2).2, (houtside 3).1, fun _ ht => absurd ht List.not_mem_nil⟩

/-- **A step follows the outline**: it is reached by turns about the point until the outline moves
to another. -/
theorem exists_turn_of_next? (hs : IsSide inside s) (h : next? inside s = some t) :
    ∃ n, t = (turn inside)^[n + 1] s ∧ (∀ i ≤ n, ((turn inside)^[i] s).current = s.current) ∧
      t.current ≠ s.current := by
  classical
  have hmoves := exists_moves hs (by rw [h]; exact Option.some_ne_none t)
  set n := Nat.find hmoves
  have hstays : ∀ i ≤ n, ((turn inside)^[i] s).current = s.current := by
    intro i hi
    induction i with
    | zero => rfl
    | succ i ih =>
      rw [Function.iterate_succ_apply', turn_of_not_moves (Nat.find_min hmoves hi)]
      exact ih (Nat.le_of_succ_le hi)
  have ht : t = (turn inside)^[n + 1] s := by
    rw [Function.iterate_succ_apply']
    have hnext := next?_of_moves (hs.iterate n) (Nat.find_spec hmoves)
    rw [next?_iterate hs hstays, h] at hnext
    exact Option.some.inj hnext
  refine ⟨n, ht, hstays, ?_⟩
  rw [ht, Function.iterate_succ_apply', ← hstays n le_rfl]
  exact (current_turn_ne_iff (hs.iterate n)).2 (Nat.find_spec hmoves)

end ContourStep

end DanglingBonds
