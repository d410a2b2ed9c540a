/-
# Enumeration of valid charge assignments

Two ways to find every physically valid charge assignment of a layout. The exhaustive one tests each
charge index. The pruned one fixes the cells that are negative in every valid assignment, lets the
first of the others depend on the rest, and walks over the rest in Gray code order, so that few
cells change between two tests. Cells that can be positive are counted through in base three at each
step of that walk.
-/
import DanglingBonds.Failure
import DanglingBonds.GrayCode
import DanglingBonds.Simulation

namespace DanglingBonds

variable {α : Type} [Scalar α] {n : Nat}

/-- Adds a surface to the assignments found, last found first, if it is valid. -/
def record (found : List (Surface α n)) (s : Surface α n) : List (Surface α n) :=
  if s.isValid then s.refreshEnergy :: found else found

/-! ## Every charge index -/

/-- Tests `count` charge indices from `index` on. -/
def testIndices (s : Surface α n) (found : List (Surface α n)) (index : Nat) :
    Nat → List (Surface α n)
  | 0 => found
  | count + 1 =>
    let s := s.assignIndex index
    testIndices s (record found s) (index + 1) count

/-! ## Gray walks -/

namespace Surface

/-- Makes a negative cell neutral and any other cell negative. -/
def toggle (s : Surface α n) (i : Fin n) : Surface α n :=
  s.assign i (if s.charges.get i = .negative then .neutral else .negative)

/-- Toggles the cell for a flipped bit, the last cell for the lowest bit. -/
def flip (s : Surface α n) (cells : Array (Fin n)) (bit : Nat) : Surface α n :=
  match cells[cells.size - 1 - bit]? with
  | some i => s.toggle i
  | none => s

/-- Makes a list of cells negative. -/
def clear (s : Surface α n) (cells : List (Fin n)) : Surface α n :=
  cells.foldl (fun s i => s.assign i .negative) s

end Surface

/-- Goes through the rest of a Gray walk over `cells`. After each step `visit` updates the surface
and the assignments found. -/
@[specialize]
def walk (visit : Surface α n → List (Surface α n) → Surface α n × List (Surface α n))
    (cells : Array (Fin n)) (g : GrayCode) (s : Surface α n) (found : List (Surface α n)) :
    List (Surface α n) :=
  match h : g.step? with
  | none => found
  | some (bit, g') =>
    have := GrayCode.left_lt_of_step? h
    let (s, found) := visit (s.flip cells bit) found
    walk visit cells g' s found
termination_by g.left

/-- The whole Gray walk over `cells`, which are negative at its start. -/
@[specialize]
def walkAll (visit : Surface α n → List (Surface α n) → Surface α n × List (Surface α n))
    (cells : List (Fin n)) (s : Surface α n) : List (Surface α n) :=
  let (s, found) := visit s []
  walk visit cells.toArray (.start cells.length) s found

/-- Settles the dependent cell and tests the assignment. -/
def settleAndRecord (s : Surface α n) (found : List (Surface α n)) :
    Surface α n × List (Surface α n) :=
  let s := s.settleDependent
  (s, record found s)

/-- Tests the assignments whose independent cells are negative or neutral. -/
def walkTwoStates (s : Surface α n) : List (Surface α n) :=
  walkAll settleAndRecord s.independent (s.clear s.independent)

/-- Counts `cells`, given last digit first, through `count` numbers in base three from `index` on,
and tests each assignment. -/
def countThrough (cells : List (Fin n)) (s : Surface α n) (found : List (Surface α n))
    (index : Nat) : Nat → Surface α n × List (Surface α n)
  | 0 => (s, found)
  | count + 1 =>
    let (s, found) := settleAndRecord (Surface.assignDigits 3 cells index s) found
    countThrough cells s found (index + 1) count

/-- Tests the assignments whose independent cells are negative, neutral or, if they can be,
positive. -/
def walkThreeStates (s : Surface α n) : List (Surface α n) :=
  let inner := s.independent.filter s.env.canBePositive
  let outer := s.independent.filter fun i => !s.env.canBePositive i
  let count := min (Nat.pow 3 inner.length) (Nat.pow 2 64 - 1)
  walkAll (fun s found => countThrough inner.reverse s found 0 count) outer
    (s.clear s.independent)

/-! ## Engines -/

/-- Whether the pruned enumeration chooses its base itself. -/
inductive BaseDetection where
  /-- Base 3 if some cell can be positive, base 2 otherwise. -/
  | on
  /-- The base of the parameters. -/
  | off
  deriving DecidableEq, Repr

/-- The parameters are checked before the defects. -/
def checkInputs (l : Layout α) (p : Parameters α) : Except (AnalysisError α) Unit := do
  p.check.mapError .parameters
  l.checkDefects.mapError .parameters

/-- All valid assignments, in the order of their charge indices. -/
def Layout.enumerateAll (l : Layout α) (p : Parameters α) :
    Except (AnalysisError α) (Simulation α l.size) := do
  checkInputs l p
  let found :=
    if l.isEmpty then []
    else
      let s := Surface.ofLayout l p
      (testIndices s [] 0 (s.lastIndex + 1)).reverse
  return ⟨.exhaustive, p, p.base, found⟩

/-- The base of a pruned enumeration. -/
def enumerationBase (d : BaseDetection) (p : Parameters α) (positive : Bool) : Nat :=
  match d with
  | .off => p.base
  | .on => if positive then 3 else 2

/-- All valid assignments, found by the pruned enumeration. -/
def Layout.enumeratePruned (l : Layout α) (p : Parameters α) (d : BaseDetection) :
    Except (AnalysisError α) (Simulation α l.size) := do
  checkInputs l p
  if l.isEmpty then return ⟨.quickExact, p, p.base, []⟩
  let s := (Surface.ofLayout l p).fixCells
  let base := enumerationBase d p (s.free.any s.env.canBePositive)
  let s := s.setBase base
  let found :=
    match s.free with
    | [] => record [] s
    | i :: _ =>
      let s := s.setDependent (some i)
      (if base = 2 then walkTwoStates s else walkThreeStates s).reverse
  return ⟨.quickExact, p, base, found⟩

/-- All valid assignments in the base of the parameters. -/
def Layout.simulate (l : Layout α) (e : Engine) (p : Parameters α) :
    Except (AnalysisError α) (Simulation α l.size) :=
  match e with
  | .quickExact => l.enumeratePruned p .off
  | .exhaustive => l.enumerateAll p

end DanglingBonds
