/-
# Parameter grids

Two sweep axes span a grid of parameter points. An exploration asks an oracle about grid points and
keeps what it has learnt, also when the oracle fails in the end.
-/
import DanglingBonds.Draw
import DanglingBonds.Gate
import DanglingBonds.Progress

namespace DanglingBonds

/-- A point of the grid: steps along the first and along the second axis. -/
structure GridIndex where
  x : Nat
  y : Nat
  deriving DecidableEq, Repr

/-- Points are listed by the first axis, then by the second. -/
instance : Ranked GridIndex where
  rank p := (p.x, p.y)

/-- Numbers of points along the two axes. -/
structure Grid where
  width : Nat
  height : Nat
  deriving DecidableEq, Repr

namespace Grid

/-- Number of points. -/
def size (g : Grid) : Nat :=
  g.width * g.height

/-- The number of points as it is counted, in 64 bits. -/
def total (g : Grid) : Nat :=
  g.size % Nat.pow 2 64

/-- Whether a point of the plane lies on the grid. The coordinates stand for signed words, so a grid
is meant that has at most 2 ^ 63 columns and as many rows. -/
def contains (g : Grid) (x y : Int) : Bool :=
  0 ≤ x && 0 ≤ y && x < g.width && y < g.height

/-- The point with a running number, counted along the first axis. -/
def point (g : Grid) (i : Nat) : GridIndex :=
  ⟨i % g.width, i / g.width⟩

/-- The points that are counted, in the order of their running numbers. -/
def points (g : Grid) : List GridIndex :=
  (List.range g.total).map g.point

/-- The points that a draw yields, at most as many as there are. -/
def sample (g : Grid) (draws : DrawSource) (call amount : Nat) : List GridIndex :=
  (draws.draw call g.total (min amount g.total)).map g.point

end Grid

/-- What an exploration has learnt. -/
structure Survey where
  statuses : Table GridIndex Status := {}
  /-- Simulations run by the oracle. -/
  simulations : Nat := 0
  /-- Points the oracle was asked about and answered. -/
  evaluations : Nat := 0

namespace Survey

/-- Notes the oracle's answer about a point. -/
def add (s : Survey) (p : GridIndex) (a : Assessment) : Survey :=
  ⟨s.statuses.insert p a.status, s.simulations + a.simulations, s.evaluations + 1⟩

/-- Number of points with a status. -/
def count (s : Survey) (status : Status) : Nat :=
  s.statuses.values.count status

end Survey

/-- An exploration under way: what it has learnt, and what it has reported. -/
structure Exploration extends Survey where
  events : List Event := []

namespace Exploration

/-- Notes the oracle's answer about a point. -/
def add (s : Exploration) (p : GridIndex) (a : Assessment) : Exploration :=
  { s with toSurvey := s.toSurvey.add p a }

instance : EventLog Exploration where
  events := events
  report s e := { s with events := s.events ++ [e] }
  events_report _ _ := rfl

end Exploration

/-- Answers whether a gate works at a grid point. -/
abbrev Oracle (ε : Type) := GridIndex → Except ε Assessment

/-- Steps of an exploration: what they have learnt and reported outlives a failure. -/
abbrev Explore (ε : Type) := EStateM ε Exploration

namespace Explore

variable {ε : Type}

/-- Asks the oracle about a point. -/
def evaluate (oracle : Oracle ε) (p : GridIndex) : Explore ε Status :=
  match oracle p with
  | .error e => throw e
  | .ok a => do
    tick
    modify (·.add p a)
    return a.status

/-- Asks the oracle about points, one after the other. -/
def evaluateAll (oracle : Oracle ε) : List GridIndex → Explore ε Unit
  | [] => pure ()
  | p :: ps => do
    let _ ← evaluate oracle p
    evaluateAll oracle ps

/-- The status of a point; the oracle is asked only about points not yet known. -/
def status (oracle : Oracle ε) (p : GridIndex) : Explore ε Status := do
  match (← get).statuses.get? p with
  | some s => return s
  | none => evaluate oracle p

/-- Whether the gate works at a point. Off the grid it does not, and the oracle is not asked. -/
def isOperational (oracle : Oracle ε) (g : Grid) (x y : Int) : Explore ε Bool :=
  if g.contains x y then do
    let s ← status oracle ⟨x.toNat, y.toNat⟩
    return s == .operational
  else return false

/-- The points of a list at which the gate works, in order. -/
def operational (oracle : Oracle ε) : List GridIndex → Explore ε (List GridIndex)
  | [] => return []
  | p :: ps => do
    let s ← status oracle p
    let rest ← operational oracle ps
    return if s == .operational then p :: rest else rest

end Explore

end DanglingBonds
