/-
# The layout of a draw

The sites of a rectangle are numbered along its rows, each half row counted as a row. Every number
is that of one site, so the different numbers of a draw put as many cells on different sites of the
rectangle.

* `RandomLayoutOptions.area`, `bijOn_site` : the numbers of the sites of a rectangle.
* `RandomLayoutOptions.check_cases` : what is refused.
* `RandomLayoutOptions.IsPlacement`, `isPlacement_layoutOfDraw` : the layout of a draw.
-/
import Mathlib
import DanglingBonds.RandomLayout
import DanglingBonds.Proofs.Draws
import DanglingBonds.Proofs.PairDetection
import DanglingBonds.Proofs.ScanSites

namespace DanglingBonds

namespace RandomLayoutOptions

/-! ## The sites of a rectangle -/

section Area

variable {α : Type} (o : RandomLayoutOptions α)

/-- Whether the second corner lies west or north of the first. -/
def IsInverted : Prop :=
  o.southEast.x < o.northWest.x ∨ o.southEast.row < o.northWest.row

/-- The sites of the rectangle: on one of the two halves of a dimer row, and from corner to corner
by column and by row. -/
def area : Set Site :=
  {s | s.z ≤ 1 ∧ o.northWest.x ≤ s.x ∧ s.x ≤ o.southEast.x ∧
    o.northWest.row ≤ s.row ∧ s.row ≤ o.southEast.row}

/-- The columns and rows of the rectangle, counted from its first site. -/
def grid : Grid :=
  ⟨o.columns, o.rows⟩

theorem site_eq (i : ℕ) : o.site i =
    .ofRow (o.northWest.x + (o.grid.point i).x) (o.northWest.row + (o.grid.point i).y) := rfl

theorem rank_site (i : ℕ) : Ranked.rank (o.site i) =
    (o.northWest.row + (o.grid.point i).y, o.northWest.x + (o.grid.point i).x) :=
  Site.rank_ofRow

/-- A point of the grid is a site of the rectangle. -/
theorem mem_grid_iff {p : GridIndex} : p ∈ o.grid ↔
    o.northWest.x + p.x ≤ o.southEast.x ∧ o.northWest.row + p.y ≤ o.southEast.row := by
  rw [Grid.mem_iff]
  show p.x < (o.southEast.x - o.northWest.x + 1).toNat ∧
    p.y < (o.southEast.row - o.northWest.row + 1).toNat ↔ _
  omega

/-- Different numbers are those of sites with different ranks. -/
theorem rank_site_injective : Function.Injective fun i => Ranked.rank (o.site i) := by
  intro i j hij
  simp only [rank_site, Prod.mk.injEq, add_right_inj, Nat.cast_inj] at hij
  refine Grid.point_injective (g := o.grid) ?_
  rw [GridIndex.mk.injEq]
  exact hij.symm

/-- **The sites of a rectangle** are numbered one to one. -/
theorem bijOn_site : Set.BijOn o.site (Set.Iio o.sites) o.area := by
  refine ⟨fun i hi => ?_, fun i _ j _ hij => ?_, fun s hs => ?_⟩
  · have hpoint : o.grid.point i ∈ o.grid := Grid.point_mem hi
    obtain ⟨hx, hrow⟩ := o.mem_grid_iff.1 hpoint
    refine ⟨Site.z_ofRow_le, ?_, hx, ?_, ?_⟩
    · exact le_add_of_nonneg_right (Int.natCast_nonneg _)
    · rw [site_eq, Site.row_ofRow]
      exact le_add_of_nonneg_right (Int.natCast_nonneg _)
    · rw [site_eq, Site.row_ofRow]
      exact hrow
  · exact o.rank_site_injective (congrArg Ranked.rank hij)
  · obtain ⟨hz, hwest, heast, hnorth, hsouth⟩ := hs
    have hx : o.northWest.x + (s.x - o.northWest.x).toNat = s.x := by omega
    have hrow : o.northWest.row + (s.row - o.northWest.row).toNat = s.row := by omega
    have hpoint : (⟨(s.x - o.northWest.x).toNat, (s.row - o.northWest.row).toNat⟩ : GridIndex)
        ∈ o.grid := by
      rw [mem_grid_iff]
      exact ⟨hx.le.trans heast, hrow.le.trans hsouth⟩
    obtain ⟨i, hi, heq⟩ := Grid.exists_point_eq hpoint
    refine ⟨i, hi, ?_⟩
    rw [site_eq, heq]
    exact (congrArg₂ Site.ofRow hx hrow).trans (Site.ofRow_row hz)

/-- Their number. -/
theorem ncard_area : o.area.ncard = o.sites := by
  rw [← o.bijOn_site.image_eq, o.bijOn_site.injOn.ncard_image, Set.ncard_Iio_nat]

end Area

/-! ## What is refused -/

section Check

variable {α : Type} [Scalar α] {o : RandomLayoutOptions α}

/-- **With accepted parameters**, an inverted rectangle is refused, then one with too few sites. -/
theorem check_cases (hp : o.parameters.check = .ok ()) :
    (o.IsInverted ∧ o.check = .error (.invertedArea o.northWest o.southEast)) ∨
      (¬ o.IsInverted ∧ o.sites < o.cells ∧ o.check = .error (.crowdedArea o.cells o.sites)) ∨
      (¬ o.IsInverted ∧ o.cells ≤ o.sites ∧ o.check = .ok ()) := by
  have hcorners : o.IsInverted ↔
      o.southEast.x < o.northWest.x ∨ o.southEast.row < o.northWest.row := Iff.rfl
  rw [hcorners, check, hp]
  by_cases hinverted : o.southEast.x < o.northWest.x ∨ o.southEast.row < o.northWest.row
  · rw [if_pos hinverted]
    exact .inl ⟨hinverted, rfl⟩
  · rw [if_neg hinverted]
    by_cases hcrowded : o.sites < o.cells
    · exact .inr (.inl ⟨hinverted, hcrowded, if_pos hcrowded⟩)
    · exact .inr (.inr ⟨hinverted, not_lt.1 hcrowded, if_neg hcrowded⟩)

/-- The options are accepted if the corners are in order and there are sites for all cells. -/
theorem check_eq_ok_iff (hp : o.parameters.check = .ok ()) :
    o.check = .ok () ↔ ¬ (o.IsInverted ∨ o.sites < o.cells) := by
  rw [not_or, not_lt]
  rcases check_cases hp with
    ⟨hinverted, hcheck⟩ | ⟨-, hcrowded, hcheck⟩ | ⟨hordered, hcells, hcheck⟩
  · rw [hcheck]
    exact iff_of_false (fun h => by cases h) fun h => h.1 hinverted
  · rw [hcheck]
    exact iff_of_false (fun h => by cases h) fun h => h.2.not_gt hcrowded
  · exact iff_of_true hcheck ⟨hordered, hcells⟩

theorem cells_le_sites (hp : o.parameters.check = .ok ()) (hcheck : o.check = .ok ()) :
    o.cells ≤ o.sites :=
  not_lt.1 (not_or.1 ((check_eq_ok_iff hp).1 hcheck)).2

end Check

/-! ## The layout of a draw -/

section Layouts

variable {α : Type} {o : RandomLayoutOptions α}

/-- A layout of the requested number of cells, all normal, on sites of the rectangle. -/
structure IsPlacement (o : RandomLayoutOptions α) (l : Layout α) : Prop where
  size_eq : l.size = o.cells
  role_eq : ∀ e ∈ l.cells.entries, e.2 = .normal
  mem_area : ∀ s ∈ l.sites, s ∈ o.area

variable [Scalar α] {draws : DrawSource} {call : ℕ}

/-- The cells of the layout of a draw are on the sites with the drawn numbers. -/
theorem exists_layoutOfDraw_eq (hdraws : draws.IsProper call o.sites) (hcells : o.cells ≤ o.sites) :
    ∃ t, o.layoutOfDraw draws call = { Layout.empty .si100 with cells := t } ∧
      t.entries.Perm
        ((draws.draw call o.sites o.cells).map fun i => (o.site i, Role.normal)) := by
  have hdistinct : ((draws.draw call o.sites o.cells).map fun i => (o.site i, Role.normal)).Pairwise
      fun c c' => Ranked.rank c.1 ≠ Ranked.rank c'.1 := by
    rw [List.pairwise_map]
    exact (hdraws _ hcells).1.imp fun hij heq => hij (o.rank_site_injective heq)
  obtain ⟨t, ht, hperm⟩ :=
    exists_foldl_setRole_eq (l := (Layout.empty .si100 : Layout α)) hdistinct fun _ _ => rfl
  refine ⟨t, ?_, (List.append_nil _ ▸ hperm :)⟩
  rw [← ht, layoutOfDraw, Layout.ofCells, List.foldl_map, List.foldl_map]

/-- **The layout of a draw** has the requested number of cells, all normal, in the rectangle. -/
theorem isPlacement_layoutOfDraw (hdraws : draws.IsComplete call o.sites)
    (hcells : o.cells ≤ o.sites) : o.IsPlacement (o.layoutOfDraw draws call) := by
  obtain ⟨t, heq, hperm⟩ := exists_layoutOfDraw_eq hdraws.isProper hcells
  rw [heq]
  refine ⟨?_, fun e he => ?_, fun s hs => ?_⟩
  · show t.entries.length = o.cells
    rw [hperm.length_eq, List.length_map, hdraws.length_draw _ hcells]
  · obtain ⟨i, -, rfl⟩ := List.mem_map.1 (hperm.mem_iff.1 he)
    rfl
  · obtain ⟨e, he, rfl⟩ := List.mem_map.1 hs
    obtain ⟨i, hi, rfl⟩ := List.mem_map.1 (hperm.mem_iff.1 he)
    exact o.bijOn_site.mapsTo ((hdraws.isProper _ hcells).2 i hi)

end Layouts

end RandomLayoutOptions

end DanglingBonds
