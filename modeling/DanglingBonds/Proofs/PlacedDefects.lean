/-
# One defect more

What a defect that is placed on a layout changes. It adds its potential to that of the others, so a
defect without charge leaves the surroundings of the cells, and with them the ground states, as they
are.

* `checkDefects_placeDefect` : a defect that is accepted leaves the defects accepted.
* `defectPotential_placeDefect` : what it does to a site.
* `ofLayout_placeDefect` : what a defect without charge does to the surroundings of the cells.
* `groundSet_placeDefect_of_charge_eq_zero`, `validGroundSet_placeDefect_of_charge_eq_zero` : it
  changes no ground state.
-/
import Mathlib
import DanglingBonds.Proofs.GroundStateSets
import DanglingBonds.Proofs.OrderedTables

namespace DanglingBonds

variable {l : Layout ℝ} {d : Defect ℝ} {s : Site}

/-- With one defect more that is accepted, the defects are still accepted. -/
theorem checkDefects_placeDefect (hl : l.checkDefects = .ok ()) (hd : d.check = .ok ()) (s : Site) :
    (l.placeDefect s d).checkDefects = .ok () := by
  rw [checkDefects_eq_ok_iff] at hl ⊢
  intro e he
  rcases snd_mem_insertEntry he with heq | ⟨e', he', heq⟩
  · rw [heq, hd]
  · rw [← heq, hl e' he']

/-- The potential of the defects, as a sum. -/
theorem defectPotential_eq_sum (l : Layout ℝ) (t : Site) :
    l.defectPotential t = (l.defects.entries.map fun e =>
      pointPotential e.2.charge (l.lattice.distance t e.1) e.2.epsilonR e.2.lambdaTF).sum := by
  rw [List.sum_eq_foldl, List.foldl_map]
  rfl

/-- A defect on a site without one adds its potential. -/
theorem defectPotential_placeDefect (hs : l.hasDefect s = false) (d : Defect ℝ) (t : Site) :
    (l.placeDefect s d).defectPotential t
      = pointPotential d.charge (l.lattice.distance t s) d.epsilonR d.lambdaTF
        + l.defectPotential t := by
  have hperm : (l.placeDefect s d).defects.entries.Perm ((s, d) :: l.defects.entries) :=
    Table.perm_entries_insert d hs
  rw [defectPotential_eq_sum, defectPotential_eq_sum, (hperm.map _).sum_eq, List.map_cons,
    List.sum_cons]
  rfl

/-- A defect without charge leaves the surroundings of the cells as they are. -/
theorem ofLayout_placeDefect (hs : l.hasDefect s = false) (hcharge : d.charge = 0)
    (p : Parameters ℝ) :
    Environment.ofLayout (l.placeDefect s d) p = Environment.ofLayout l p := by
  have hdefects : ∀ t, (l.placeDefect s d).defectPotential t = l.defectPotential t := by
    intro t
    rw [defectPotential_placeDefect hs, hcharge, pointPotential, zero_mul, zero_add]
  simp only [Environment.ofLayout, hdefects]
  rfl

/-- **A defect without charge changes no ground state.** -/
theorem groundSet_placeDefect_of_charge_eq_zero {p : Parameters ℝ} (hp : p.check = .ok ())
    (hd : d.check = .ok ()) (hl : l.checkDefects = .ok ()) (hcells : l.isEmpty = false)
    (hs : l.hasDefect s = false) (hcharge : d.charge = 0) :
    (l.placeDefect s d).groundSet p = l.groundSet p := by
  ext c
  rw [mem_groundSet_iff_simulation hp hl hcells,
    mem_groundSet_iff_simulation hp (checkDefects_placeDefect hl hd s) hcells,
    ofLayout_placeDefect hs hcharge]
  rfl

/-- Neither does it change those that no enumeration finds. -/
theorem validGroundSet_placeDefect_of_charge_eq_zero (hs : l.hasDefect s = false)
    (hcharge : d.charge = 0) (p : Parameters ℝ) :
    (l.placeDefect s d).validGroundSet p = l.validGroundSet p := by
  have henv := ofLayout_placeDefect hs hcharge p
  have hiff : ∀ q : Vector Charge l.size,
      (l.placeDefect s d).IsGroundState p q ↔ l.IsGroundState p q := by
    intro q
    constructor
    · rintro ⟨hin, hstable, hleast⟩
      rw [henv] at hstable hleast
      exact ⟨hin, hstable, hleast⟩
    · rintro ⟨hin, hstable, hleast⟩
      rw [← henv] at hstable hleast
      exact ⟨hin, hstable, hleast⟩
  ext c
  exact exists_congr fun q => and_congr_left fun _ => hiff q

end DanglingBonds
