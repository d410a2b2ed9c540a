/-
# Random draws

A draw picks a number of distinct indices below a bound. Draws are data: a source says what each
draw of a run yields.

* `drawFrom_nodup` : the indices of a draw are distinct.
-/
namespace DanglingBonds

/-- What the draws of a run yield: draw number `call` of `amount` indices below `bound`. -/
structure DrawSource where
  draw : (call bound amount : Nat) → List Nat

/-- Takes the wished indices in order, without repeats, until there are `amount`. -/
def takeWished (taken : List Nat) (amount : Nat) : List Nat → List Nat
  | [] => taken
  | w :: ws =>
    if amount ≤ taken.length then taken
    else takeWished (if w ∈ taken then taken else taken ++ [w]) amount ws

/-- A draw by a list of wishes: each is reduced below the bound, repeats are skipped, and the
smallest unused indices complete the draw. -/
def drawFrom (wishes : List Nat) (bound amount : Nat) : List Nat :=
  let taken := takeWished [] amount (wishes.map (· % bound))
  taken ++ ((List.range amount).filter (· ∉ taken)).take (amount - taken.length)

/-- The source that serves its draws from lists of wishes in turn; without lists a draw yields the
smallest indices. -/
def DrawSource.ofLists (lists : List (List Nat)) : DrawSource where
  draw call bound amount :=
    match lists[call % lists.length]? with
    | some wishes => drawFrom wishes bound amount
    | none => List.range amount

/-- Draws `k` more of the indices below `bound`. The next is at most `bound - k`; if it has been
taken before, that one gives way to `bound - k`, so that all sets and orders are equally likely. -/
def sampleWith (bound : Nat) (taken : List Nat) (g : StdGen) : Nat → List Nat
  | 0 => taken
  | k + 1 =>
    let last := bound - (k + 1)
    let (i, g) := randNat g 0 last
    sampleWith bound (taken.map (fun t => if t = i then last else t) ++ [i]) g k

/-- The source whose draws are random and depend on a seed alone. -/
def DrawSource.ofSeed (seed : Nat) : DrawSource where
  draw call bound amount := sampleWith bound [] (mkStdGen (seed + call)) (min amount bound)

/-- Wished indices are taken once. -/
theorem nodup_takeWished {taken ws : List Nat} {amount : Nat} (h : taken.Nodup) :
    (takeWished taken amount ws).Nodup := by
  induction ws generalizing taken with
  | nil => exact h
  | cons w ws ih =>
    simp only [takeWished]
    split
    · exact h
    · apply ih
      split
      · exact h
      · rename_i hw
        rw [List.nodup_append]
        refine ⟨h, by simp, fun a ha b hb hab => hw ?_⟩
        rwa [← List.mem_singleton.1 hb, ← hab]

/-- **Distinct indices.** A draw repeats no index. -/
theorem drawFrom_nodup (wishes : List Nat) (bound amount : Nat) :
    (drawFrom wishes bound amount).Nodup := by
  simp only [drawFrom]
  rw [List.nodup_append]
  refine ⟨nodup_takeWished List.nodup_nil,
    (List.nodup_range.filter _).sublist (List.take_sublist _ _), fun a ha b hb hab => ?_⟩
  have := (List.mem_filter.1 (List.mem_of_mem_take hb)).2
  simp only [decide_eq_true_eq] at this
  exact this (hab ▸ ha)

end DanglingBonds
