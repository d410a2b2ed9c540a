/-
# Layouts and their histories

A layout is edited by setting and removing cells, defects and potentials. Two sites in the same
column and half row are one place, so after any history a layout is a map from places to roles: the
last edit of a place counts. Its cells are listed in strictly ascending order of their places, and
edits of the cells and edits of their surroundings do not touch each other.

* `Layout.Edit`, `Layout.perform`, `Layout.run` : edits and histories.
* `Layout.role?_run` : the role at a place is the one of the last edit there.
* `Layout.run_of_cell?`, `Layout.run_of_surroundings` : what histories leave unchanged.
* `Layout.boundingBox_eq_some_iff` : the smallest box around the cells.
* `Layout.run_isMap` : a layout after a history.
-/
import Mathlib
import DanglingBonds.Proofs.ListedCells
import DanglingBonds.Proofs.ScanSites

namespace DanglingBonds

open Ranked

namespace Layout

variable {α : Type}

/-! ## Histories -/

/-- An edit of a layout. -/
inductive Edit (α : Type) where
  | setRole (s : Site) (r : Option Role)
  | removeCell (s : Site)
  | placeDefect (s : Site) (d : Defect α)
  | removeDefect (s : Site)
  | setLocalPotential (s : Site) (v : α)
  | setGlobalPotential (v : α)

/-- The site whose cell an edit sets or removes. -/
def Edit.cell? : Edit α → Option Site
  | setRole s _ | removeCell s => some s
  | placeDefect .. | removeDefect _ | setLocalPotential .. | setGlobalPotential _ => none

/-- What an edit makes of the cell at the place of `c`, if it sets or removes that cell. -/
def Edit.roleAt? (c : Site) : Edit α → Option (Option Role)
  | setRole s r => if rank s = rank c then some r else none
  | removeCell s => if rank s = rank c then some none else none
  | placeDefect .. | removeDefect _ | setLocalPotential .. | setGlobalPotential _ => none

/-- Carries out an edit. -/
def perform (l : Layout α) : Edit α → Layout α
  | .setRole s r => l.setRole s r
  | .removeCell s => l.removeCell s
  | .placeDefect s d => l.placeDefect s d
  | .removeDefect s => l.removeDefect s
  | .setLocalPotential s v => l.setLocalPotential s v
  | .setGlobalPotential v => l.setGlobalPotential v

/-- Carries out edits in order. -/
def run (l : Layout α) (edits : List (Edit α)) : Layout α :=
  edits.foldl perform l

/-! ## Roles -/

/-- The last element of a list for which a function has a value. -/
theorem findSome?_reverse_eq_some_iff {β γ : Type} {f : β → Option γ} {xs : List β} {y : γ} :
    xs.reverse.findSome? f = some y ↔
      ∃ before x after, xs = before ++ x :: after ∧ f x = some y ∧ ∀ x' ∈ after, f x' = none := by
  rw [List.findSome?_eq_some_iff]
  constructor
  · rintro ⟨after, x, before, hsplit, hx, hafter⟩
    refine ⟨before.reverse, x, after.reverse, ?_, hx, fun x' hx' => hafter x' (by simpa using hx')⟩
    rw [List.reverse_eq_iff] at hsplit
    simp [hsplit]
  · rintro ⟨before, x, after, rfl, hx, hafter⟩
    refine ⟨after.reverse, x, before.reverse, by simp, hx, fun x' hx' => hafter x' ?_⟩
    simpa using hx'

theorem role?_setRole (l : Layout α) (s c : Site) (r : Option Role) :
    (l.setRole s r).role? c = if rank s = rank c then r else l.role? c := by
  cases r with
  | none => exact Table.get?_erase l.cells s c
  | some role => exact Table.get?_insert l.cells s c role

theorem role?_removeCell (l : Layout α) (s c : Site) :
    (l.removeCell s).role? c = if rank s = rank c then none else l.role? c :=
  Table.get?_erase l.cells s c

/-- An edit gives the role it sets to one place, and leaves all other places as they are. -/
theorem role?_perform (l : Layout α) (e : Edit α) (c : Site) :
    (l.perform e).role? c = (e.roleAt? c).getD (l.role? c) := by
  cases e with
  | setRole s r =>
    rw [perform, role?_setRole, Edit.roleAt?]
    split_ifs
    · rfl
    · rfl
  | removeCell s =>
    rw [perform, role?_removeCell, Edit.roleAt?]
    split_ifs
    · rfl
    · rfl
  | placeDefect s d => rfl
  | removeDefect s => rfl
  | setLocalPotential s v => rfl
  | setGlobalPotential v => rfl

/-- **The role at a place** after a history is the one of the last edit there. -/
theorem role?_run (l : Layout α) (edits : List (Edit α)) (c : Site) :
    (l.run edits).role? c
      = (edits.reverse.findSome? (Edit.roleAt? c)).getD (l.role? c) := by
  induction edits generalizing l with
  | nil => rfl
  | cons e edits ih =>
    show ((l.perform e).run edits).role? c = _
    rw [ih, role?_perform, List.reverse_cons, List.findSome?_append]
    cases edits.reverse.findSome? (Edit.roleAt? c) with
    | some r => rfl
    | none =>
      rw [List.findSome?_singleton]
      rfl

/-- An edit says nothing about the places whose cells it does not set or remove. -/
theorem Edit.roleAt?_eq_none_iff {e : Edit α} {c : Site} :
    e.roleAt? c = none ↔ ∀ s ∈ e.cell?, rank s ≠ rank c := by
  cases e <;> simp [Edit.roleAt?, Edit.cell?]

/-- Only the setting of a role leaves a role. -/
theorem Edit.roleAt?_eq_some_some_iff {e : Edit α} {c : Site} {r : Role} :
    e.roleAt? c = some (some r) ↔ ∃ s, e = .setRole s (some r) ∧ rank s = rank c := by
  cases e <;> simp [Edit.roleAt?, and_comm]

/-- A history that starts from no cells leaves the role that was last set at a place and has not
been replaced or removed since. -/
theorem role?_run_empty [Scalar α] {lattice : Lattice} {edits : List (Edit α)} {c : Site}
    {r : Role} :
    ((empty lattice : Layout α).run edits).role? c = some r ↔
      ∃ before s after, edits = before ++ .setRole s (some r) :: after ∧ rank s = rank c ∧
        ∀ e ∈ after, ∀ s' ∈ e.cell?, rank s' ≠ rank c := by
  have hempty : (empty lattice : Layout α).role? c = none := rfl
  rw [role?_run, hempty]
  have hlast : (edits.reverse.findSome? (Edit.roleAt? c)).getD none = some r ↔
      edits.reverse.findSome? (Edit.roleAt? c) = some (some r) := by
    cases edits.reverse.findSome? (Edit.roleAt? c) with
    | none => simp
    | some r' => simp
  rw [hlast, findSome?_reverse_eq_some_iff]
  simp only [Edit.roleAt?_eq_some_some_iff, Edit.roleAt?_eq_none_iff]
  constructor
  · rintro ⟨before, e, after, hsplit, ⟨s, rfl, hs⟩, hafter⟩
    exact ⟨before, s, after, hsplit, hs, hafter⟩
  · rintro ⟨before, s, after, hsplit, hs, hafter⟩
    exact ⟨before, _, after, hsplit, ⟨s, rfl, hs⟩, hafter⟩

/-- Two sites of one place: the third half of a dimer row is the first half of the next. -/
example :
    ((empty .si100 : Layout ℝ).run
      [.setRole ⟨1, 0, 2⟩ (some .input), .setRole ⟨1, 1, 1⟩ (some .output),
        .removeCell ⟨1, 0, 3⟩]).role? ⟨1, 1, 0⟩ = some .input := rfl

/-! ## Cells and their surroundings -/

/-- Edits of cells leave defects and potentials as they are. -/
theorem run_of_cell? (l : Layout α) {edits : List (Edit α)} (h : ∀ e ∈ edits, e.cell? ≠ none) :
    (l.run edits).defects = l.defects ∧ (l.run edits).localPotentials = l.localPotentials ∧
      (l.run edits).globalPotential = l.globalPotential := by
  induction edits generalizing l with
  | nil => exact ⟨rfl, rfl, rfl⟩
  | cons e edits ih =>
    obtain ⟨he, hedits⟩ := List.forall_mem_cons.1 h
    obtain ⟨hdefects, hlocal, hglobal⟩ := ih (l.perform e) hedits
    cases e with
    | setRole s r =>
      cases r with
      | none => exact ⟨hdefects, hlocal, hglobal⟩
      | some role => exact ⟨hdefects, hlocal, hglobal⟩
    | removeCell s => exact ⟨hdefects, hlocal, hglobal⟩
    | placeDefect s d | removeDefect s | setLocalPotential s v | setGlobalPotential v =>
      exact absurd rfl he

/-- Edits of defects and potentials leave the cells as they are. -/
theorem run_of_surroundings (l : Layout α) {edits : List (Edit α)}
    (h : ∀ e ∈ edits, e.cell? = none) : (l.run edits).cells = l.cells := by
  induction edits generalizing l with
  | nil => rfl
  | cons e edits ih =>
    obtain ⟨he, hedits⟩ := List.forall_mem_cons.1 h
    have hrest := ih (l.perform e) hedits
    cases e with
    | setRole s r | removeCell s => cases he
    | placeDefect s d | removeDefect s | setLocalPotential s v | setGlobalPotential v => exact hrest

/-! ## The box around the cells -/

/-- All cells lie between the rows and columns of two corners. -/
def IsEnclosedBy (l : Layout α) (nw se : Site) : Prop :=
  ∀ s ∈ l.sites, nw.x ≤ s.x ∧ s.x ≤ se.x ∧ nw.row ≤ s.row ∧ s.row ≤ se.row

theorem isEmpty_iff {l : Layout α} : l.isEmpty = true ↔ l.sites = [] := by
  rw [isEmpty, Table.isEmpty, List.isEmpty_iff, sites, Table.keys, List.map_eq_nil_iff]

/-- There is no bounding box if there are no cells. -/
theorem boundingBox_eq_none_iff {l : Layout α} : l.boundingBox = none ↔ l.sites = [] := by
  rw [boundingBox]
  cases l.sites with
  | nil => exact iff_of_true rfl rfl
  | cons s rest => exact iff_of_false (Option.some_ne_none _) (List.cons_ne_nil s rest)

/-- The smallest box of rows and columns around the cells, with corners on one of the two halves of
a dimer row. -/
structure IsBoundingBox (l : Layout α) (nw se : Site) : Prop where
  encloses : l.IsEnclosedBy nw se
  tight : ∀ nw' se', l.IsEnclosedBy nw' se' →
    nw'.x ≤ nw.x ∧ se.x ≤ se'.x ∧ nw'.row ≤ nw.row ∧ se.row ≤ se'.row
  halves : nw.z ≤ 1 ∧ se.z ≤ 1

/-- There is one such box at most. -/
theorem IsBoundingBox.unique {l : Layout α} {nw se nw' se' : Site} (h : l.IsBoundingBox nw se)
    (h' : l.IsBoundingBox nw' se') : nw = nw' ∧ se = se' := by
  obtain ⟨hwest, heast, hnorth, hsouth⟩ := h.tight nw' se' h'.encloses
  obtain ⟨hwest', heast', hnorth', hsouth'⟩ := h'.tight nw se h.encloses
  exact ⟨Site.eq_of_rank_eq h.halves.1 h'.halves.1
      (Prod.ext (le_antisymm hnorth' hnorth) (le_antisymm hwest' hwest)),
    Site.eq_of_rank_eq h.halves.2 h'.halves.2
      (Prod.ext (le_antisymm hsouth hsouth') (le_antisymm heast heast'))⟩

/-- A layout with cells has one. -/
theorem exists_isBoundingBox {l : Layout α} (hcells : l.isEmpty = false) :
    ∃ nw se, l.boundingBox = some (nw, se) ∧ l.IsBoundingBox nw se := by
  obtain ⟨nw, se, hbox, hwest, heast, hnorth, hsouth⟩ := exists_boundingBox hcells
  -- the limits of the box, not moved out
  replace hwest : ∀ x, nw.x ≤ x ↔ ∃ c ∈ l.sites, c.x ≤ x := by simpa using hwest 0
  replace heast : ∀ x, x ≤ se.x ↔ ∃ c ∈ l.sites, x ≤ c.x := by simpa using heast 0
  replace hnorth : ∀ row, nw.row ≤ row ↔ ∃ c ∈ l.sites, c.row ≤ row := by simpa using hnorth 0
  replace hsouth : ∀ row, row ≤ se.row ↔ ∃ c ∈ l.sites, row ≤ c.row := by simpa using hsouth 0
  refine ⟨nw, se, hbox, ⟨fun s hs => ?_, fun nw' se' h => ?_, ?_⟩⟩
  · exact ⟨(hwest s.x).2 ⟨s, hs, le_rfl⟩, (heast s.x).2 ⟨s, hs, le_rfl⟩,
      (hnorth s.row).2 ⟨s, hs, le_rfl⟩, (hsouth s.row).2 ⟨s, hs, le_rfl⟩⟩
  · obtain ⟨w, hw, hwx⟩ := (hwest nw.x).1 le_rfl
    obtain ⟨e, he, hex⟩ := (heast se.x).1 le_rfl
    obtain ⟨n, hn, hnrow⟩ := (hnorth nw.row).1 le_rfl
    obtain ⟨s, hs, hsrow⟩ := (hsouth se.row).1 le_rfl
    exact ⟨(h w hw).1.trans hwx, hex.trans (h e he).2.1, (h n hn).2.2.1.trans hnrow,
      hsrow.trans (h s hs).2.2.2⟩
  · rw [boundingBox] at hbox
    split at hbox
    · cases hbox
    · cases hbox
      exact ⟨Site.z_ofRow_le, Site.z_ofRow_le⟩

/-- A layout without cells has none, since every box encloses its cells. -/
theorem IsBoundingBox.isEmpty_eq_false {l : Layout α} {nw se : Site}
    (h : l.IsBoundingBox nw se) : l.isEmpty = false := by
  by_contra hcells
  have hnil : l.sites = [] := isEmpty_iff.1 (Bool.not_eq_false _ ▸ hcells)
  have hencloses : l.IsEnclosedBy ⟨nw.x + 1, 0, 0⟩ se := by
    intro s hs
    rw [hnil] at hs
    cases hs
  have hwest := (h.tight _ _ hencloses).1
  dsimp only at hwest
  omega

/-- **The bounding box** of a layout is the smallest box around its cells. -/
theorem boundingBox_eq_some_iff {l : Layout α} {nw se : Site} :
    l.boundingBox = some (nw, se) ↔ l.IsBoundingBox nw se := by
  constructor
  · intro hbox
    have hcells : l.isEmpty = false := by
      by_contra hcells
      rw [boundingBox_eq_none_iff.2 (isEmpty_iff.1 (Bool.not_eq_false _ ▸ hcells))] at hbox
      cases hbox
    obtain ⟨nw', se', hbox', h⟩ := exists_isBoundingBox hcells
    cases hbox.symm.trans hbox'
    exact h
  · intro h
    obtain ⟨nw', se', hbox, h'⟩ := exists_isBoundingBox h.isEmpty_eq_false
    obtain ⟨rfl, rfl⟩ := h.unique h'
    exact hbox

/-! ## A layout after a history -/

/-- **A layout is a map from places to roles.** After a history that starts from no cells, a place
has the role that was last set there and has not been replaced or removed since. The cells are
listed once each, in order and with their roles. Later edits of cells leave defects and potentials
as they are, and later edits of defects and potentials leave the cells. The bounding box is the
smallest box around the cells. -/
theorem run_isMap [Scalar α] (lattice : Lattice) (edits : List (Edit α)) :
    let l : Layout α := (empty lattice).run edits
    (∀ c r, l.role? c = some r ↔
        ∃ before s after, edits = before ++ .setRole s (some r) :: after ∧ rank s = rank c ∧
          ∀ e ∈ after, ∀ s' ∈ e.cell?, rank s' ≠ rank c) ∧
      l.ListsCells ∧
      (∀ later : List (Edit α), (∀ e ∈ later, e.cell? ≠ none) →
        (l.run later).defects = l.defects ∧ (l.run later).localPotentials = l.localPotentials ∧
          (l.run later).globalPotential = l.globalPotential) ∧
      (∀ later : List (Edit α), (∀ e ∈ later, e.cell? = none) → (l.run later).cells = l.cells) ∧
      (l.boundingBox = none ↔ l.sites = []) ∧
      ∀ nw se, l.boundingBox = some (nw, se) ↔ l.IsBoundingBox nw se :=
  ⟨fun _ _ => role?_run_empty, listsCells _, fun _ => run_of_cell? _,
    fun _ => run_of_surroundings _, boundingBox_eq_none_iff, fun _ _ => boundingBox_eq_some_iff⟩

end Layout

end DanglingBonds
