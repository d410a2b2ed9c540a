/-
# Contour tracing

The outline of one region of working points, followed clockwise by looking around each point of it
from the point outside that was seen last. Points off the grid lie outside every region.
-/
import DanglingBonds.Domain.Grid

namespace DanglingBonds

/-- A point of the plane the grid lies in. -/
abbrev PlanePoint := Int × Int

/-- A step of the walk: a point of the outline and the point outside it that was seen last. -/
structure ContourStep where
  current : PlanePoint
  backtrack : PlanePoint
  deriving DecidableEq, Repr

/-- The eight directions clockwise, west first; the second coordinate grows northwards. -/
def clockwise : Fin 8 → Int × Int
  | 0 => (-1, 0)
  | 1 => (-1, 1)
  | 2 => (0, 1)
  | 3 => (1, 1)
  | 4 => (1, 0)
  | 5 => (1, -1)
  | 6 => (0, -1)
  | 7 => (-1, -1)

namespace ContourStep

/-- The direction in which the point seen last lies. -/
def direction (s : ContourStep) : Fin 8 :=
  let offset := (s.backtrack.1 - s.current.1, s.backtrack.2 - s.current.2)
  ((List.finRange 8).find? fun d => clockwise d == offset).getD 0

/-- The neighbour of the current point in a direction. -/
def neighbor (s : ContourStep) (d : Fin 8) : PlanePoint :=
  (s.current.1 + (clockwise d).1, s.current.2 + (clockwise d).2)

/-- The steps that may follow: the neighbours of the current point clockwise from the one seen last,
which is not tried again, each with the neighbour before it. -/
def successors (s : ContourStep) : List ContourStep :=
  [0, 1, 2, 3, 4, 5, 6].map fun k =>
    ⟨s.neighbor (s.direction + k + 1), s.neighbor (s.direction + k)⟩

end ContourStep

namespace Explore

variable {ε : Type}

/-- The first of some steps whose point belongs to the region. -/
def firstInside (oracle : Oracle ε) (g : Grid) :
    List ContourStep → Explore ε (Option ContourStep)
  | [] => return none
  | s :: rest => do
    if ← isOperational oracle g s.current.1 s.current.2 then return some s
    else firstInside oracle g rest

/-- Follows the outline until a step repeats, or the point turns out to be isolated. The steps made
are listed from last to first. A point has eight neighbours, so eight times the number of grid
points bounds the number of turns. -/
def followContour (oracle : Oracle ε) (g : Grid) (s : ContourStep) (made : List ContourStep) :
    Nat → Explore ε (List ContourStep)
  | 0 => return made
  | turns + 1 => do
    match ← firstInside oracle g s.successors with
    | none => return made
    | some next =>
      if next ∈ made then return made
      else followContour oracle g next (next :: made) turns

/-- The westernmost working point that is reached from column `x` without a gap. -/
def walkWest (oracle : Oracle ε) (g : Grid) (y : Nat) : Nat → Explore ε Nat
  | 0 => return 0
  | x + 1 => do
    if ← isOperational oracle g x y then walkWest oracle g y x else return x + 1

/-- Traces the outline of the region around a working point and lists the steps, last first. -/
def traceContour (oracle : Oracle ε) (g : Grid) (p : GridIndex) :
    Explore ε (List ContourStep) := do
  let x ← walkWest oracle g p.y p.x
  let start : ContourStep := ⟨(x, p.y), (x - 1, p.y)⟩
  followContour oracle g start [start] (8 * g.size + 1)

/-- Asks about samples and traces the region of the first at which the gate works. -/
def contourTracing (oracle : Oracle ε) (g : Grid) (samples : List GridIndex) :
    Explore ε Unit := do
  match ← operational oracle samples with
  | [] => pure ()
  | p :: _ => discard <| traceContour oracle g p

end Explore

end DanglingBonds
