/-
# The sites of a defect scan

A defect scan goes through the box of rows and columns around a layout, widened on all sides, and
leaves out the sites that are taken.

* `mem_intRange`, `pairwise_intRange` : ranges of integers.
* `exists_boundingBox` : the limits of the bounding box, moved out by a number of rows or columns.
* `Layout.IsScanSite` : the free sites of the widened box, each half row counted as a row.
* `exists_scanSites` : the program lists these sites, in order.
* `isLeast_distanceToCells` : the distance to the nearest cell.
-/
import Mathlib
import DanglingBonds.DefectInfluence
import DanglingBonds.Proofs.ExactScalar
import DanglingBonds.Proofs.StableSorting

namespace DanglingBonds

/-! ## Ranges of integers -/

theorem mem_intRange {lo hi k : ℤ} : k ∈ intRange lo hi ↔ lo ≤ k ∧ k ≤ hi := by
  rw [intRange, List.mem_map]
  simp only [List.mem_range]
  constructor
  · rintro ⟨i, hi', rfl⟩
    omega
  · rintro ⟨hlo, hhi⟩
    exact ⟨(k - lo).toNat, by omega, by omega⟩

theorem pairwise_intRange (lo hi : ℤ) : (intRange lo hi).Pairwise (· < ·) := by
  rw [intRange, List.pairwise_map]
  exact List.pairwise_lt_range.imp fun h => by omega

/-! ## Sites by row and column -/

section Sites

variable {x row : ℤ} {s : Site}

@[simp] theorem Site.row_ofRow : (Site.ofRow x row).row = row := by
  show 2 * (row / 2) + ((row % 2).toNat : ℤ) = row
  omega

theorem Site.rank_ofRow : Ranked.rank (Site.ofRow x row) = (row, x) :=
  Prod.ext Site.row_ofRow rfl

theorem Site.z_ofRow_le : (Site.ofRow x row).z ≤ 1 := by
  show (row % 2).toNat ≤ 1
  omega

/-- A site on one of the two halves of a dimer row is known from its row and column. -/
theorem Site.ofRow_row (h : s.z ≤ 1) : Site.ofRow s.x s.row = s := by
  obtain ⟨x, y, z⟩ := s
  have hy : (2 * y + z) / 2 = y := by
    dsimp only at h
    omega
  have hz : ((2 * y + z) % 2).toNat = z := by
    dsimp only at h
    omega
  show Site.mk x ((2 * y + z) / 2) ((2 * y + z) % 2).toNat = ⟨x, y, z⟩
  rw [hy, hz]

/-- So no other such site has its rank. -/
theorem Site.eq_of_rank_eq {s' : Site} (h : s.z ≤ 1) (h' : s'.z ≤ 1)
    (hrank : Ranked.rank s = Ranked.rank s') : s = s' := by
  obtain ⟨hrow, hx⟩ := Prod.ext_iff.1 hrank
  rw [← Site.ofRow_row h, ← Site.ofRow_row h']
  exact congrArg₂ Site.ofRow hx hrow

end Sites

/-! ## The widened box -/

section Box

variable {β : Type} (f : β → ℤ) (x : β) (xs : List β) (v : ℤ)

theorem foldl_min_le_iff :
    xs.foldl (fun m y => min m (f y)) (f x) ≤ v ↔ ∃ y ∈ x :: xs, f y ≤ v := by
  have hfold : ∀ m, xs.foldl (fun m y => min m (f y)) m ≤ v ↔ m ≤ v ∨ ∃ y ∈ xs, f y ≤ v := by
    induction xs with
    | nil => simp
    | cons y ys ih =>
      intro m
      rw [List.foldl_cons, ih, min_le_iff, or_assoc, List.exists_mem_cons_iff]
  rw [hfold, List.exists_mem_cons_iff]

theorem le_foldl_max_iff :
    v ≤ xs.foldl (fun m y => max m (f y)) (f x) ↔ ∃ y ∈ x :: xs, v ≤ f y := by
  have hfold : ∀ m, v ≤ xs.foldl (fun m y => max m (f y)) m ↔ v ≤ m ∨ ∃ y ∈ xs, v ≤ f y := by
    induction xs with
    | nil => simp
    | cons y ys ih =>
      intro m
      rw [List.foldl_cons, ih, le_max_iff, or_assoc, List.exists_mem_cons_iff]
  rw [hfold, List.exists_mem_cons_iff]

end Box

section Bounds

variable {α : Type} {l : Layout α}

theorem sites_ne_nil (hcells : l.isEmpty = false) : l.sites ≠ [] := fun hnil => by
  rw [Layout.isEmpty, Table.isEmpty, List.map_eq_nil_iff.1 hnil] at hcells
  cases hcells

/-- The bounding box of a layout with cells: a limit that is moved out by `pad` is kept if it is
kept for some cell. -/
theorem exists_boundingBox (hcells : l.isEmpty = false) :
    ∃ nw se, l.boundingBox = some (nw, se) ∧
      (∀ pad x, nw.x - pad ≤ x ↔ ∃ c ∈ l.sites, c.x - pad ≤ x) ∧
      (∀ pad x, x ≤ se.x + pad ↔ ∃ c ∈ l.sites, x ≤ c.x + pad) ∧
      (∀ pad row, nw.row - pad ≤ row ↔ ∃ c ∈ l.sites, c.row - pad ≤ row) ∧
      ∀ pad row, row ≤ se.row + pad ↔ ∃ c ∈ l.sites, row ≤ c.row + pad := by
  obtain ⟨s, rest, hsites⟩ := List.exists_cons_of_ne_nil (sites_ne_nil hcells)
  rw [Layout.boundingBox, hsites]
  refine ⟨_, _, rfl, fun pad x => ?_, fun pad x => ?_, fun pad row => ?_, fun pad row => ?_⟩
  · simp only [sub_le_iff_le_add]
    exact foldl_min_le_iff (·.x) s rest (x + pad)
  · simp only [← sub_le_iff_le_add]
    exact le_foldl_max_iff (·.x) s rest (x - pad)
  · simp only [Site.row_ofRow, sub_le_iff_le_add]
    exact foldl_min_le_iff Site.row s rest (row + pad)
  · simp only [Site.row_ofRow, ← sub_le_iff_le_add]
    exact le_foldl_max_iff Site.row s rest (row - pad)

end Bounds

/-- A site of a defect scan: on one of the two halves of a dimer row, not farther west, east, north
and south than the area allows from some cell, and neither occupied nor defective. -/
structure Layout.IsScanSite (l : Layout ℝ) (area : ScanningArea) (s : Site) : Prop where
  half : s.z ≤ 1
  west : ∃ c ∈ l.sites, c.x - area.columns ≤ s.x
  east : ∃ c ∈ l.sites, s.x ≤ c.x + area.columns
  north : ∃ c ∈ l.sites, c.row - 2 * area.dimerRows ≤ s.row
  south : ∃ c ∈ l.sites, s.row ≤ c.row + 2 * area.dimerRows
  vacant : l.isVacant s = true
  sound : l.hasDefect s = false

section Scan

variable {l : Layout ℝ}

/-- A layout with sites to scan has cells. -/
theorem isEmpty_of_isScanSite {area : ScanningArea} {s : Site} (hs : l.IsScanSite area s) :
    l.isEmpty = false := by
  obtain ⟨c, hc, -⟩ := hs.west
  obtain ⟨e, he, -⟩ := List.mem_map.1 hc
  exact List.isEmpty_eq_false_iff.2 (List.ne_nil_of_mem he)

/-- **The sites of a scan** are listed in strictly ascending order. -/
theorem exists_scanSites (hcells : l.isEmpty = false) (area : ScanningArea) :
    ∃ sites, l.scanSites area = some sites ∧ sites.Pairwise Site.Before ∧
      ∀ s, s ∈ sites ↔ l.IsScanSite area s := by
  obtain ⟨nw, se, hbox, hwest, heast, hnorth, hsouth⟩ := exists_boundingBox hcells
  rw [Layout.scanSites, hbox, Option.map_some]
  refine ⟨_, rfl, ?_, fun s => ?_⟩
  · refine List.Pairwise.filter _ (List.pairwise_flatMap.2 ⟨fun row _ => ?_, ?_⟩)
    · refine List.pairwise_map.2 ((pairwise_intRange _ _).imp fun hx => ?_)
      rw [Site.Before, Site.rank_ofRow, Site.rank_ofRow]
      exact .inr ⟨rfl, hx⟩
    · refine (pairwise_intRange _ _).imp fun hrow a ha b hb => ?_
      obtain ⟨x, -, rfl⟩ := List.mem_map.1 ha
      obtain ⟨x', -, rfl⟩ := List.mem_map.1 hb
      rw [Site.Before, Site.rank_ofRow, Site.rank_ofRow]
      exact .inl hrow
  · rw [List.mem_filter, List.mem_flatMap, Bool.and_eq_true, Bool.not_eq_true']
    constructor
    · rintro ⟨⟨row, hrow, hmem⟩, hvacant, hsound⟩
      obtain ⟨x, hx, rfl⟩ := List.mem_map.1 hmem
      rw [mem_intRange, hnorth, hsouth] at hrow
      rw [mem_intRange, hwest, heast] at hx
      refine ⟨Site.z_ofRow_le, hx.1, hx.2, ?_, ?_, hvacant, hsound⟩
      · rw [Site.row_ofRow]
        exact hrow.1
      · rw [Site.row_ofRow]
        exact hrow.2
    · intro hs
      have hrow := mem_intRange.2 ⟨(hnorth _ _).2 hs.north, (hsouth _ _).2 hs.south⟩
      have hx := mem_intRange.2 ⟨(hwest _ _).2 hs.west, (heast _ _).2 hs.east⟩
      exact ⟨⟨s.row, hrow, List.mem_map.2 ⟨s.x, hx, Site.ofRow_row hs.half⟩⟩, hs.vacant, hs.sound⟩

/-- **The nearest cell** of a layout with cells. -/
theorem isLeast_distanceToCells (hcells : l.isEmpty = false) (s : Site) :
    IsLeast {d | ∃ c ∈ l.sites, l.lattice.distance s c = d} (l.distanceToCells s) := by
  set square : Site → ℝ := fun c =>
    Lattice.squaredDistance (l.lattice.position s) (l.lattice.position c) with hsquare
  have hne : l.sites.map square ≠ [] := fun hnil =>
    sites_ne_nil hcells (List.map_eq_nil_iff.1 hnil)
  obtain ⟨before, d, after, hsplit, hmin, hbefore, hafter⟩ :=
    exists_firstMin (fun d : ℝ => d) (fun a b => decide_eq_true_iff) hne
  have hdistance : l.distanceToCells s = Real.sqrt d := by
    obtain ⟨m, rest, hsquares⟩ := List.exists_cons_of_ne_nil hne
    rw [hsquares, firstMin, Option.some.injEq] at hmin
    simp only [decide_eq_true_iff] at hmin
    have hsquares' : (l.sites.map fun c => Lattice.squaredDistance (l.lattice.position s)
        (l.lattice.position c)) = m :: rest := hsquares
    rw [Layout.distanceToCells, hsquares']
    exact congrArg Real.sqrt hmin
  have hd : d ∈ l.sites.map square := hsplit ▸ List.mem_append_right _ List.mem_cons_self
  have hle : ∀ d' ∈ l.sites.map square, d ≤ d' := by
    intro d' hd'
    rw [hsplit, List.mem_append, List.mem_cons] at hd'
    rcases hd' with hd' | rfl | hd'
    · exact (hbefore d' hd').le
    · exact le_rfl
    · exact hafter d' hd'
  rw [hdistance]
  refine ⟨?_, ?_⟩
  · obtain ⟨c, hc, rfl⟩ := List.mem_map.1 hd
    exact ⟨c, hc, rfl⟩
  · rintro _ ⟨c, hc, rfl⟩
    exact Real.sqrt_le_sqrt (hle _ (List.mem_map.2 ⟨c, hc, rfl⟩))

end Scan

end DanglingBonds
