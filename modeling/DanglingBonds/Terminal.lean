/-
# Terminals and input combinations

Two dangling bonds that share one electron carry one bit. Such pairs are found greedily, nearest
cells first. A gate with `k` input pairs has `2 ^ k` input combinations; for each of them one cell
of every input pair is removed.
-/
import DanglingBonds.Layout
import DanglingBonds.Sorting

namespace DanglingBonds

/-- Two dangling bonds that carry one bit: the upper one is the northern, then the western. -/
structure Pair where
  upper : Site
  lower : Site
  deriving DecidableEq, Repr

/-- The distances, in nanometres, at which two cells form a pair. -/
structure PairWindow (α : Type) where
  minimum : α
  maximum : α

variable {α : Type} [Scalar α]

instance : Inhabited (PairWindow α) := ⟨⟨0.75, 1.5⟩⟩

/-- Two cells that may form a pair, and their distance. -/
structure PairCandidate (α : Type) where
  distance : α
  first : Site
  second : Site

/-- Nearer candidates first, then those with the earlier first, then second cell. -/
def PairCandidate.before (a b : PairCandidate α) : Bool :=
  if a.distance < b.distance then true
  else if b.distance < a.distance then false
  else if a.first.Before b.first then true
  else if b.first.Before a.first then false
  else a.second.Before b.second

/-- All two-element sublists of a list. -/
def unorderedPairs {β : Type} : List β → List (β × β)
  | [] => []
  | x :: xs => xs.map (x, ·) ++ unorderedPairs xs

/-- The cells of a role that are as far apart as the window asks, nearest first. -/
def pairCandidates (l : Layout α) (r : Option Role) (w : PairWindow α) :
    List (PairCandidate α) :=
  let all := (unorderedPairs (l.sitesWithRole r)).map fun (a, b) =>
    (⟨l.lattice.distance a b, a, b⟩ : PairCandidate α)
  sortBy PairCandidate.before
    (all.filter fun c => w.minimum ≤ c.distance && c.distance ≤ w.maximum)

/-- Accepts candidates in order, each unless one of its cells is taken. -/
def matchGreedily : List Site → List (PairCandidate α) → List (PairCandidate α)
  | _, [] => []
  | taken, c :: cs =>
    if taken.any c.first.sameRank || taken.any c.second.sameRank then matchGreedily taken cs
    else c :: matchGreedily (c.first :: c.second :: taken) cs

/-- The pair of two cells: the northern one is the upper, of two level ones the western. -/
def Pair.ofCells (α : Type) [Scalar α] (lattice : Lattice) (a b : Site) : Pair :=
  let p : Position α := lattice.position a
  let q : Position α := lattice.position b
  let first := if p.y < q.y then true else if q.y < p.y then false else decide (p.x ≤ q.x)
  if first then ⟨a, b⟩ else ⟨b, a⟩

/-- Pairs are listed by the position of their upper cells, from west to east, then southwards. -/
def Pair.before (α : Type) [Scalar α] (lattice : Lattice) (a b : Pair) : Bool :=
  let p : Position α := lattice.position a.upper
  let q : Position α := lattice.position b.upper
  if p.x < q.x then true else if q.x < p.x then false else decide (p.y < q.y)

/-- The pairs among the cells of a role. Every cell belongs to one pair at most. -/
def Layout.pairs (l : Layout α) (r : Option Role) (w : PairWindow α) : List Pair :=
  sortBy (Pair.before α l.lattice)
    ((matchGreedily [] (pairCandidates l r w)).map fun c =>
      Pair.ofCells α l.lattice c.first c.second)

/-- A layout as a gate: its input pairs from west to east. -/
structure InputTerminals (α : Type) where
  layout : Layout α
  pairs : List Pair

namespace InputTerminals

/-- The input pairs of a layout. -/
def ofLayout (l : Layout α) (w : PairWindow α) : InputTerminals α :=
  ⟨l, l.pairs (some .input) w⟩

/-- Number of input combinations. -/
def combinations (t : InputTerminals α) : Nat :=
  Nat.pow 2 t.pairs.length

/-- The layout after a list of pairs has been set to the lowest bits of `index`, the first pair to
the highest of them. A one keeps the lower cell of the pair, a zero the upper. -/
def setPairs (index : Nat) : List Pair → Layout α → Layout α
  | [], l => l
  | p :: ps, l =>
    setPairs index ps (l.removeCell (if index.testBit ps.length then p.upper else p.lower))

/-- The layout for an input combination; only the lowest bits of `index` count. -/
def layoutFor (t : InputTerminals α) (index : Nat) : Layout α :=
  setPairs index t.pairs t.layout

/-- One step through the input combinations: the current one with its layout, and the index of the
one after it. Behind the last there is none. -/
def next? (t : InputTerminals α) (current : Nat) : Option ((Nat × Layout α) × Nat) :=
  if t.combinations ≤ current then none
  else some ((current, t.layoutFor current), current + 1)

omit [Scalar α] in
/-- A step goes one index on and stays among the combinations. -/
theorem next?_eq_some_iff {t : InputTerminals α} {current next : Nat} {item : Nat × Layout α} :
    t.next? current = some (item, next) ↔
      current < t.combinations ∧ item = (current, t.layoutFor current) ∧ next = current + 1 := by
  rw [next?]
  split
  · rename_i hle
    refine iff_of_false nofun fun h => ?_
    omega
  · rename_i hle
    rw [Option.some.injEq, Prod.mk.injEq]
    constructor
    · rintro ⟨rfl, rfl⟩
      exact ⟨by omega, rfl, rfl⟩
    · rintro ⟨-, rfl, rfl⟩
      exact ⟨rfl, rfl⟩

/-- The input combinations from an index on, each with its layout. -/
def allFrom (t : InputTerminals α) (current : Nat) : List (Nat × Layout α) :=
  match _hstep : t.next? current with
  | none => []
  | some (item, next) => item :: t.allFrom next
termination_by t.combinations - current
decreasing_by
  obtain ⟨hlt, -, hnext⟩ := next?_eq_some_iff.1 _hstep
  omega

/-- Every input combination with its layout. -/
def all (t : InputTerminals α) : List (Nat × Layout α) :=
  t.allFrom 0

end InputTerminals

end DanglingBonds
