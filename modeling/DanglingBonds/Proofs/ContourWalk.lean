/-
# The walk around a region

From a working point, a trace walks west to the end of the row of working points and follows the
outline of the region from there, until a step repeats. It always comes to this end, and then it is
back at the point from which it set out.

* `Explore.ensures_walkWest` : the walk west ends at a point with an outside point to the west.
* `Explore.Follows`, `Explore.exists_follows` : the outline is followed to the end; the number of
  turns that a trace is given is never used up.
* `Explore.traceContour_closes` : a trace is a closed walk.
-/
import Mathlib
import DanglingBonds.Proofs.ContourTrail

namespace DanglingBonds

open ContourStep

namespace Explore

variable {ε : Type}

/-! ## The region -/

/-- The points of the plane at which the gate works. -/
def region (oracle : Oracle ε) (g : Grid) (q : PlanePoint) : Bool :=
  worksAt oracle g q.1 q.2

/-- The oracle has an answer about a point of the plane, if it lies on the grid. -/
def IsAnswered (oracle : Oracle ε) (g : Grid) (q : PlanePoint) : Prop :=
  ∀ p ∈ g, p.toPlane = q → ∃ a, oracle p = .ok a

/-- A point of the plane, if it lies on the grid, has been asked about. -/
def IsKnown (g : Grid) (log : List Answer) (q : PlanePoint) : Prop :=
  ∀ p ∈ g, p.toPlane = q → p ∈ asked log

/-- The western end of a row of points inside, up to a given one. -/
structure IsWestEnd (inside : PlanePoint → Bool) (p s : PlanePoint) : Prop where
  level : s.2 = p.2
  le : s.1 ≤ p.1
  row : ∀ x, s.1 ≤ x → x ≤ p.1 → inside (x, p.2) = true
  outside : inside (s.1 - 1, s.2) = false

section Region

variable {oracle : Oracle ε} {g : Grid} {p : GridIndex} {q : PlanePoint} {log log' : List Answer}
  {allowed : Set GridIndex}

/-- The region lies on the grid. -/
theorem covers_region : g.Covers (region oracle g) :=
  fun _ h => (Bool.and_eq_true_iff.1 h).1

/-- The points of the region are the places of the grid points at which the gate works. -/
theorem region_toPlane (hp : p ∈ g) : region oracle g p.toPlane = works oracle p := by
  rw [region, worksAt, Grid.contains_toPlane_iff.2 hp, Bool.true_and]
  rfl

theorem exists_of_region (h : region oracle g q = true) :
    ∃ p ∈ g, p.toPlane = q ∧ works oracle p = true :=
  ⟨_, Grid.mem_of_contains (covers_region q h), Grid.toPlane_of_contains (covers_region q h),
    (Bool.and_eq_true_iff.1 h).2⟩

theorem IsKnown.mono (h : IsKnown g log q) (hcontinues : Continues allowed log log') :
    IsKnown g log' q :=
  fun p hp hq => hcontinues.mem_asked (h p hp hq)

theorem IsKnown.isAnswered (h : IsKnown g log q) (hlog : IsLog oracle log) :
    IsAnswered oracle g q := by
  intro p hp hq
  obtain ⟨a, ha⟩ := mem_asked_iff.1 (h p hp hq)
  exact ⟨a, hlog.answered _ ha⟩

/-- A point with an outside point to the west is a western end by itself. -/
theorem isWestEnd_self {inside : PlanePoint → Bool} {p : PlanePoint} (hp : inside p = true)
    (houtside : inside (p.1 - 1, p.2) = false) : IsWestEnd inside p p where
  level := rfl
  le := le_rfl
  row x hx hx' := by rwa [le_antisymm hx' hx]
  outside := houtside

/-- A row is extended to the east. -/
theorem IsWestEnd.cons {inside : PlanePoint → Bool} {x y : ℤ} {s : PlanePoint}
    (h : IsWestEnd inside (x, y) s) (hinside : inside (x + 1, y) = true) :
    IsWestEnd inside (x + 1, y) s where
  level := h.level
  le := h.le.trans (Int.le_add_one le_rfl)
  row i hi hi' := by
    rcases hi'.lt_or_eq with hlt | rfl
    · exact h.row i hi (Int.lt_add_one_iff.1 hlt)
    · exact hinside
  outside := h.outside

/-- The step at the western side of a point. -/
def westSide (q : PlanePoint) : ContourStep :=
  ⟨q, (q.1 - 1, q.2)⟩

/-- The western side of a western end is a side of the region. -/
theorem IsWestEnd.isSide {inside : PlanePoint → Bool} {p s : PlanePoint}
    (h : IsWestEnd inside p s) : IsSide inside (westSide s) where
  current_inside := by
    have hinside := h.row s.1 le_rfl h.le
    rwa [← h.level] at hinside
  backtrack_outside := h.outside
  sharesEdge := by
    show (s.1 - (s.1 - 1)).natAbs + (s.2 - s.2).natAbs = 1
    omega

end Region

/-! ## Looking at points -/

section Steps

variable {oracle : Oracle ε} {g : Grid} {log : List Answer}

/-- A point of the plane is looked at, and is known afterwards. -/
theorem ensures_region (q : PlanePoint) :
    Ensures oracle {p | p ∈ g} log (isOperational oracle g q.1 q.2) fun b log' =>
      b = region oracle g q ∧ IsKnown g log' q := by
  refine (ensures_isOperational (fun _ hp => hp) q.1 q.2).imp ?_
  rintro b log' - - ⟨rfl, hasked⟩
  refine ⟨rfl, ?_⟩
  rintro p hp rfl
  exact hasked (Grid.contains_toPlane_iff.2 hp)

/-- The first of some steps whose point is inside. Where each step has the point before it as its
point seen last, that one has been looked at as well. -/
theorem ensures_firstInside {steps : List ContourStep}
    (hchain : steps.IsChain fun s t => t.backtrack = s.current)
    (hhead : ∀ t ∈ steps.head?, IsAnswered oracle g t.backtrack) :
    Ensures oracle {p | p ∈ g} log (firstInside oracle g steps) fun found log' =>
      found = steps.find? (fun t => region oracle g t.current) ∧
        ∀ t ∈ found, IsKnown g log' t.current ∧ IsAnswered oracle g t.backtrack := by
  induction steps generalizing log with
  | nil => exact ensures_pure ⟨rfl, fun _ ht => absurd ht (Option.not_mem_none _)⟩
  | cons s rest ih =>
    refine (ensures_region s.current).bind ?_
    rintro b log' hlog' - ⟨rfl, hknown⟩
    rw [List.find?_cons]
    cases hregion : region oracle g s.current with
    | true =>
      refine ensures_pure ⟨rfl, fun t ht => ?_⟩
      obtain rfl := Option.some.inj ht
      exact ⟨hknown, hhead s rfl⟩
    | false =>
      refine ih hchain.tail fun t ht => ?_
      rw [hchain.rel_head? ht]
      exact hknown.isAnswered hlog'

/-- The next step from a side whose outside point has been looked at. -/
theorem ensures_next {s : ContourStep}
    (hs : IsSide (region oracle g) s) (hanswered : IsAnswered oracle g s.backtrack) :
    Ensures oracle {p | p ∈ g} log (firstInside oracle g s.successors) fun found log' =>
      found = next? (region oracle g) s ∧
        ∀ t ∈ found, IsKnown g log' t.current ∧ IsAnswered oracle g t.backtrack := by
  have hsuccessors := successors_eq hs.sharesEdge
  refine ensures_firstInside ?_ fun t ht => ?_
  · rw [hsuccessors]
    simp only [List.isChain_cons_cons, List.isChain_singleton, and_true]
  · rw [hsuccessors] at ht
    obtain rfl := Option.some.inj ht
    exact hanswered

/-- The walk west ends at the western end of the row. -/
theorem ensures_walkWest {x y : ℕ}
    (hinside : region oracle g (x, y) = true) (hknown : IsKnown g log (x, y)) :
    Ensures oracle {p | p ∈ g} log (walkWest oracle g y x) fun x' log' =>
      IsWestEnd (region oracle g) (x, y) (x', y) ∧ IsKnown g log' (x', y) ∧
        IsAnswered oracle g (x' - 1, y) := by
  induction x generalizing log with
  | zero =>
    refine ensures_pure ⟨isWestEnd_self hinside ?_, hknown, fun p _ hp => ?_⟩
    · refine Bool.eq_false_iff.2 fun h => ?_
      have hx : (0 : ℤ) ≤ (0 : ℕ) - 1 := (Grid.contains_iff.1 (covers_region _ h)).1
      omega
    · have hx : (p.x : ℤ) = (0 : ℕ) - 1 := congrArg Prod.fst hp
      omega
  | succ x ih =>
    refine (ensures_region (x, y)).bind ?_
    rintro b log' hlog' hcontinues ⟨rfl, hknown'⟩
    have hwest : (((x + 1 : ℕ) : ℤ) - 1, (y : ℤ)) = ((x : ℤ), (y : ℤ)) := by
      rw [Nat.cast_succ, add_sub_cancel_right]
    cases hregion : region oracle g (x, y) with
    | true => exact (ih hregion hknown').imp fun x' log'' _ _ h => ⟨h.1.cons hinside, h.2⟩
    | false =>
      refine ensures_pure ⟨isWestEnd_self hinside ?_, hknown.mono hcontinues, ?_⟩
      · rwa [hwest]
      · rw [hwest]
        exact hknown'.isAnswered hlog'

end Steps

/-! ## Following the outline -/

/-- The outline is followed: as long as there is a next step that has not been made before, it is
made. The first list has the steps made at the beginning, the second those made at the end, last
first. No bound on the number of turns is involved. -/
inductive Follows (oracle : Oracle ε) (g : Grid) :
    List ContourStep → Exploration → List ContourStep →
      EStateM.Result ε Exploration (List ContourStep) → Prop
  | failed {s : ContourStep} {made : List ContourStep} {survey survey' : Exploration} {e : ε} :
      (firstInside oracle g s.successors).run survey = .error e survey' →
      Follows oracle g (s :: made) survey (s :: made) (.error e survey')
  | isolated {s : ContourStep} {made : List ContourStep} {survey survey' : Exploration} :
      (firstInside oracle g s.successors).run survey = .ok none survey' →
      Follows oracle g (s :: made) survey (s :: made) (.ok (s :: made) survey')
  | repeated {s t : ContourStep} {made : List ContourStep} {survey survey' : Exploration} :
      (firstInside oracle g s.successors).run survey = .ok (some t) survey' → t ∈ s :: made →
      Follows oracle g (s :: made) survey (s :: made) (.ok (s :: made) survey')
  | step {s t : ContourStep} {made trail : List ContourStep} {survey survey' : Exploration}
      {outcome : EStateM.Result ε Exploration (List ContourStep)} :
      (firstInside oracle g s.successors).run survey = .ok (some t) survey' → t ∉ s :: made →
      Follows oracle g (t :: s :: made) survey' trail outcome →
      Follows oracle g (s :: made) survey trail outcome

/-- What is known of the steps while the outline is followed. -/
structure IsWalk (oracle : Oracle ε) (g : Grid) (start : ContourStep) (made : List ContourStep) :
    Prop where
  trail : IsTrail (region oracle g) start made
  answered : ∀ s ∈ made, IsAnswered oracle g s.backtrack

section Walk

variable {oracle : Oracle ε} {g : Grid} {start s t : ContourStep} {made : List ContourStep}
  {log : List Answer} {survey : Exploration}

theorem IsWalk.step (h : IsWalk oracle g start (s :: made))
    (hnext : next? (region oracle g) s = some t) (hnew : t ∉ s :: made)
    (hanswered : IsAnswered oracle g t.backtrack) : IsWalk oracle g start (t :: s :: made) where
  trail := h.trail.step hnext hnew
  answered := List.forall_mem_cons.2 ⟨hanswered, h.answered⟩

/-- One turn of the walk. -/
theorem run_followContour (oracle : Oracle ε) (g : Grid) (s : ContourStep)
    (made : List ContourStep) (turns : ℕ) (survey : Exploration) :
    (followContour oracle g s made (turns + 1)).run survey =
      match (firstInside oracle g s.successors).run survey with
      | .error e survey' => .error e survey'
      | .ok none survey' => .ok made survey'
      | .ok (some t) survey' =>
        if t ∈ made then .ok made survey'
        else (followContour oracle g t (t :: made) turns).run survey' := by
  rw [followContour, EStateM.run]
  show EStateM.bind _ _ survey = _
  rw [EStateM.bind, EStateM.run]
  cases firstInside oracle g s.successors survey with
  | error e survey' => rfl
  | ok found survey' =>
    cases found with
    | none => rfl
    | some t =>
      by_cases ht : t ∈ made
      · simp only [if_pos ht]
        rfl
      · simp only [if_neg ht]
        rfl

/-- **The outline is followed to the end** in no more turns than the grid points have sides. -/
theorem exists_follows (hstart : IsSide (region oracle g) start) (hlog : IsLog oracle log)
    (hrecords : survey.Records log) (h : IsWalk oracle g start (s :: made))
    (hknown : ∀ r ∈ s :: made, IsKnown g log r.current) {turns : ℕ}
    (hturns : 4 * g.size < (s :: made).length + turns) :
    ∃ trail, Follows oracle g (s :: made) survey trail
        ((followContour oracle g s (s :: made) turns).run survey) ∧
      IsWalk oracle g start trail ∧
      IsOutcome oracle {p | p ∈ g} log
        (fun steps log' => steps = trail ∧ IsRound (region oracle g) steps ∧
          ∀ r ∈ steps, IsKnown g log' r.current)
        ((followContour oracle g s (s :: made) turns).run survey) := by
  induction turns generalizing s made log survey with
  | zero =>
    have hlength := h.trail.length_le hstart covers_region
    omega
  | succ turns ih =>
    have hside := h.trail.isSide hstart List.mem_cons_self
    have hnext := ensures_next hside
      (h.answered s List.mem_cons_self) survey hlog hrecords
    rw [run_followContour]
    cases hrun : (firstInside oracle g s.successors).run survey with
    | error e survey' =>
      rw [hrun] at hnext
      exact ⟨_, .failed hrun, h, hnext⟩
    | ok found survey' =>
      rw [hrun] at hnext
      obtain ⟨log', hlog', hrecords', hcontinues, hfound, hsome⟩ := hnext
      have hknown' : ∀ r ∈ s :: made, IsKnown g log' r.current :=
        fun r hr => (hknown r hr).mono hcontinues
      cases found with
      | none =>
        refine ⟨_, .isolated hrun, h, log', hlog', hrecords', hcontinues, rfl, ?_, hknown'⟩
        refine h.trail.isRound fun t ht => ?_
        rw [← hfound] at ht
        cases ht
      | some t =>
        obtain ⟨htknown, hanswered⟩ := hsome t rfl
        by_cases ht : t ∈ s :: made
        · simp only [if_pos ht]
          refine ⟨_, .repeated hrun ht, h, log', hlog', hrecords', hcontinues, rfl, ?_, hknown'⟩
          refine h.trail.isRound fun t' ht' => ?_
          rw [← hfound] at ht'
          rwa [← Option.some.inj ht']
        · simp only [if_neg ht]
          obtain ⟨trail, hfollows, hwalk, houtcome⟩ := ih hlog' hrecords'
            (h.step hfound.symm ht hanswered) (List.forall_mem_cons.2 ⟨htknown, hknown'⟩)
            (by rw [List.length_cons]; omega)
          exact ⟨trail, .step hrun ht hfollows, hwalk, houtcome.of_continues hcontinues⟩

end Walk

/-! ## The main result -/

/-- A contour is traced: the row is walked to its western end, and from there the outline is
followed. The list has the steps made, last first, also if the oracle fails in the end. -/
inductive Traces (oracle : Oracle ε) (g : Grid) (p : GridIndex) (survey : Exploration) :
    List ContourStep → EStateM.Result ε Exploration (List ContourStep) → Prop
  | failed {e : ε} {survey' : Exploration} :
      (walkWest oracle g p.y p.x).run survey = .error e survey' →
      Traces oracle g p survey [] (.error e survey')
  | followed {x : ℕ} {survey' : Exploration} {trail : List ContourStep}
      {outcome : EStateM.Result ε Exploration (List ContourStep)} :
      (walkWest oracle g p.y p.x).run survey = .ok x survey' →
      Follows oracle g [westSide (x, p.y)] survey' trail outcome →
      Traces oracle g p survey trail outcome

/-- A step at the outline: its point is a grid point at which the gate works, the point seen last is
one of the four neighbours across an edge, off the grid or a point at which the gate does not work,
and it is found in the direction that is looked up. -/
structure IsOutlineStep (oracle : Oracle ε) (g : Grid) (s : ContourStep) : Prop where
  current : ∃ p ∈ g, p.toPlane = s.current ∧ ∃ a, oracle p = .ok a ∧ a.status = .operational
  sharesEdge : SharesEdge s.current s.backtrack
  backtrack : ∀ p ∈ g, p.toPlane = s.backtrack →
    ∃ a, oracle p = .ok a ∧ a.status = .nonOperational
  direction : s.neighbor s.direction = s.backtrack

section Trace

variable {oracle : Oracle ε} {g : Grid} {p : GridIndex} {log : List Answer} {survey : Exploration}

/-- A side whose outside point has been looked at. -/
theorem isOutlineStep_of_isSide {s : ContourStep} (hs : IsSide (region oracle g) s)
    (hanswered : IsAnswered oracle g s.backtrack) : IsOutlineStep oracle g s where
  current := by
    obtain ⟨p, hp, hq, hworks⟩ := exists_of_region hs.current_inside
    exact ⟨p, hp, hq, works_iff.1 hworks⟩
  sharesEdge := hs.sharesEdge
  backtrack p hp hq := by
    obtain ⟨a, ha⟩ := hanswered p hp hq
    have hworks := hs.backtrack_outside
    rw [← hq, region_toPlane hp, works_of_eq_ok ha] at hworks
    refine ⟨a, ha, ?_⟩
    cases hstatus : a.status with
    | operational =>
      rw [hstatus] at hworks
      cases hworks
    | nonOperational => rfl
  direction := neighbor_direction hs.sharesEdge

/-- A trace walks west and then follows the outline. -/
theorem run_traceContour (oracle : Oracle ε) (g : Grid) (p : GridIndex) (survey : Exploration) :
    (traceContour oracle g p).run survey =
      match (walkWest oracle g p.y p.x).run survey with
      | .error e survey' => .error e survey'
      | .ok x survey' =>
        (followContour oracle g (westSide (x, p.y)) [westSide (x, p.y)] (8 * g.size + 1)).run
          survey' := by
  show EStateM.bind _ _ survey = _
  rw [EStateM.bind, EStateM.run]
  cases walkWest oracle g p.y p.x survey with
  | error e survey' => rfl
  | ok x survey' => rfl

/-- A trace comes to an end. If it returns, its steps are a round about the region, and their points
are known. -/
theorem exists_traces (hlog : IsLog oracle log) (hrecords : survey.Records log) (hp : p ∈ g)
    (hworks : works oracle p = true) (hknown : p ∈ asked log) :
    ∃ trail, Traces oracle g p survey trail ((traceContour oracle g p).run survey) ∧
      (∀ s ∈ trail, IsOutlineStep oracle g s) ∧
      IsOutcome oracle {p | p ∈ g} log
        (fun steps log' => steps = trail ∧ ∃ q, IsWestEnd (region oracle g) p.toPlane q ∧
          IsTrail (region oracle g) (westSide q) steps ∧ IsRound (region oracle g) steps ∧
          ∀ s ∈ steps, IsKnown g log' s.current)
        ((traceContour oracle g p).run survey) := by
  have hinside : region oracle g (p.x, p.y) = true := (region_toPlane hp).trans hworks
  have hknown' : IsKnown g log (p.x, p.y) := by
    intro q _ hq
    rwa [GridIndex.toPlane_injective hq]
  have hwest := ensures_walkWest hinside hknown'
    survey hlog hrecords
  rw [run_traceContour]
  cases hrun : (walkWest oracle g p.y p.x).run survey with
  | error e survey' =>
    rw [hrun] at hwest
    exact ⟨[], .failed hrun, fun _ hs => absurd hs List.not_mem_nil, hwest⟩
  | ok x survey' =>
    rw [hrun] at hwest
    obtain ⟨log', hlog', hrecords', hcontinues, hend, hknown'', hanswered⟩ := hwest
    have hside := hend.isSide
    have hturns : 4 * g.size < [westSide (x, p.y)].length + (8 * g.size + 1) := by omega
    obtain ⟨trail, hfollows, hwalk, houtcome⟩ := exists_follows hside hlog' hrecords'
      ⟨.start, List.forall_mem_singleton.2 hanswered⟩ (List.forall_mem_singleton.2 hknown'')
      hturns
    refine ⟨trail, .followed hrun hfollows, fun s hs => ?_, ?_⟩
    · exact isOutlineStep_of_isSide (hwalk.trail.isSide hside hs) (hwalk.answered s hs)
    · refine (houtcome.imp ?_).of_continues hcontinues
      rintro steps log'' - - ⟨rfl, hround, hpoints⟩
      exact ⟨rfl, _, hend, hwalk.trail, hround, hpoints⟩

end Trace

end Explore

end DanglingBonds
