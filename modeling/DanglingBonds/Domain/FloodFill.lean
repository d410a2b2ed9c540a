/-
# Flood fill

From seeds at which the gate works, all neighbours are asked about, then the neighbours of those at
which it works, until no neighbour of a working point is unknown.
-/
import DanglingBonds.Domain.Grid

namespace DanglingBonds

/-- Which points count as neighbours. -/
inductive Neighborhood where
  /-- The four points that share an edge. -/
  | vonNeumann
  /-- The eight points around. -/
  | moore
  deriving DecidableEq, Repr, Inhabited

/-- The steps to the neighbours of a point. -/
def Neighborhood.offsets : Neighborhood → List (Int × Int)
  | vonNeumann => [(-1, 0), (1, 0), (0, -1), (0, 1)]
  | moore => [(-1, -1), (-1, 0), (-1, 1), (0, -1), (0, 1), (1, -1), (1, 0), (1, 1)]

namespace Explore

variable {ε : Type}

/-- Asks about the unknown neighbours of a point and puts those at which the gate works at the end
of the queue. -/
def expand (oracle : Oracle ε) (g : Grid) (p : GridIndex) (queue : List GridIndex) :
    List (Int × Int) → Explore ε (List GridIndex)
  | [] => return queue
  | (dx, dy) :: offsets => do
    let x := p.x + dx
    let y := p.y + dy
    let q : GridIndex := ⟨x.toNat, y.toNat⟩
    if !g.contains x y || (← get).statuses.contains q then expand oracle g p queue offsets
    else
      let s ← evaluate oracle q
      expand oracle g p (if s == .operational then queue ++ [q] else queue) offsets

/-- Expands the queued points, first in, first out. Every point is queued once at most, so the
number of grid points bounds the number of turns. -/
def drain (oracle : Oracle ε) (g : Grid) (nb : Neighborhood) : List GridIndex → Nat → Explore ε Unit
  | p :: queue, turns + 1 => do
    let queue ← expand oracle g p queue nb.offsets
    drain oracle g nb queue turns
  | _, _ => pure ()

/-- Fills the region around the seeds. -/
def floodFill (oracle : Oracle ε) (g : Grid) (nb : Neighborhood) (seeds : List GridIndex) :
    Explore ε Unit := do
  let queue ← operational oracle seeds
  drain oracle g nb queue g.size

end Explore

end DanglingBonds
