/-
# Neighbours in the plane

Grid points lie in the plane. Two points of the plane are neighbours if they share an edge, or if
they touch in an edge or a corner.

* `Neighborhood.mem_offsets_iff` : the steps of a neighbourhood lead to the neighbours.
-/
import Mathlib
import DanglingBonds.Domain.Contour
import DanglingBonds.Domain.FloodFill
import DanglingBonds.Proofs.Surveys

namespace DanglingBonds

/-- Points that are one step apart along one axis. -/
def SharesEdge (p q : PlanePoint) : Prop :=
  (p.1 - q.1).natAbs + (p.2 - q.2).natAbs = 1

/-- Points that are at most one step apart along each axis, and different. -/
def Touches (p q : PlanePoint) : Prop :=
  max (p.1 - q.1).natAbs (p.2 - q.2).natAbs = 1

theorem Touches.symm {p q : PlanePoint} (h : Touches p q) : Touches q p := by
  unfold Touches at *
  omega

/-! ## Neighbourhoods -/

/-- The points that a neighbourhood makes neighbours. -/
def Neighborhood.Adjacent : Neighborhood → PlanePoint → PlanePoint → Prop
  | vonNeumann => SharesEdge
  | moore => Touches

/-- The steps of a neighbourhood lead to the neighbours and nowhere else. -/
theorem Neighborhood.mem_offsets_iff {nb : Neighborhood} {p q : PlanePoint} :
    (q.1 - p.1, q.2 - p.2) ∈ nb.offsets ↔ nb.Adjacent p q := by
  cases nb with
  | vonNeumann =>
    simp only [Neighborhood.offsets, List.mem_cons, Prod.mk.injEq, List.not_mem_nil, or_false]
    show _ ↔ SharesEdge p q
    unfold SharesEdge
    omega
  | moore =>
    simp only [Neighborhood.offsets, List.mem_cons, Prod.mk.injEq, List.not_mem_nil, or_false]
    show _ ↔ Touches p q
    unfold Touches
    omega

/-! ## Grid points in the plane -/

/-- The place of a grid point in the plane. -/
def GridIndex.toPlane (p : GridIndex) : PlanePoint :=
  (p.x, p.y)

theorem GridIndex.toPlane_injective : Function.Injective GridIndex.toPlane := by
  rintro ⟨x, y⟩ ⟨x', y'⟩ h
  simp only [GridIndex.toPlane, Prod.mk.injEq, Nat.cast_inj] at h
  rw [h.1, h.2]

namespace Grid

/-- All points inside lie on the grid. -/
def Covers (g : Grid) (inside : PlanePoint → Bool) : Prop :=
  ∀ q, inside q = true → g.contains q.1 q.2 = true

variable {g : Grid}

theorem contains_toPlane_iff {p : GridIndex} :
    g.contains p.toPlane.1 p.toPlane.2 = true ↔ p ∈ g := by
  rw [Grid.contains_iff, Grid.mem_iff, GridIndex.toPlane]
  omega

/-- Points of the plane that lie on the grid are the places of its points. -/
theorem toPlane_of_contains {x y : ℤ} (h : g.contains x y = true) :
    (⟨x.toNat, y.toNat⟩ : GridIndex).toPlane = (x, y) := by
  obtain ⟨hx, hy, -, -⟩ := Grid.contains_iff.1 h
  simp only [GridIndex.toPlane, Prod.mk.injEq]
  omega

end Grid

end DanglingBonds
