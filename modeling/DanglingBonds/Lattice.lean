/-
# Surface orientations

The two orientations of the passivated silicon surface, the position of a site in nanometres and the
distance between two sites.
-/
import DanglingBonds.Scalar
import DanglingBonds.Site

namespace DanglingBonds

/-- Orientation of the hydrogen-passivated silicon surface. -/
inductive Lattice where
  /-- H-Si(100)-2x1. -/
  | si100
  /-- H-Si(111)-1x1. -/
  | si111
  deriving DecidableEq, Repr, Inhabited

/-- A position on the surface, in nanometres. -/
structure Position (α : Type) where
  x : α
  y : α

/-- Spacings of an orientation, in nanometres. -/
structure Lattice.Geometry (α : Type) where
  columnPitch : α
  rowPitch : α
  /-- Offset of the second half of a dimer row from the first. -/
  halfRow : Position α

namespace Lattice

variable {α : Type} [Scalar α]

/-- The spacings of each orientation. -/
def geometry : Lattice → Geometry α
  | si100 => ⟨0.384, 0.768, ⟨0, 0.225⟩⟩
  | si111 => ⟨0.665, 0.384, ⟨0.3325, 0.192⟩⟩

/-- Where a site lies. -/
def position (l : Lattice) (s : Site) : Position α :=
  let g : Geometry α := l.geometry
  let z : α := Scalar.ofNat s.z
  ⟨Scalar.ofInt s.x * g.columnPitch + z * g.halfRow.x,
    Scalar.ofInt s.y * g.rowPitch + z * g.halfRow.y⟩

/-- The square of the Euclidean distance between two positions. -/
def squaredDistance (p q : Position α) : α :=
  (p.x - q.x) * (p.x - q.x) + (p.y - q.y) * (p.y - q.y)

/-- Euclidean distance between two sites. -/
def distance (l : Lattice) (a b : Site) : α :=
  Scalar.sqrt (squaredDistance (l.position a) (l.position b))

end Lattice

end DanglingBonds
