/-
# Translated layouts

A layout keeps its distances and the order of its sites when it is moved by whole columns and whole
dimer rows. So everything a gate is made of moves along: its roles, its pairs, the layouts of its
input combinations, and what its surroundings put on a site.

* `Site.translate`, `Layout.translate` : the translation, half rows as they are.
* `distance_translate`, `before_translate` : distances and order.
* `Table.get?_translate`, `Table.erase_translate` : what is looked up and dropped.
* `pairs_translate` : the pairs of a role.
* `layoutFor_translate` : the layouts of the input combinations.
-/
import Mathlib
import DanglingBonds.Proofs.Electrostatics
import DanglingBonds.Proofs.InputLayouts

namespace DanglingBonds

/-! ## Sites -/

/-- The site `dx` columns to the east and `dy` dimer rows to the south. -/
def Site.translate (dx dy : ℤ) (s : Site) : Site :=
  ⟨s.x + dx, s.y + dy, s.z⟩

section Sites

variable (dx dy : ℤ)

/-- A dimer row is two rows. -/
theorem rank_translate (s : Site) :
    Ranked.rank (s.translate dx dy)
      = ((Ranked.rank s).1 + 2 * dy, (Ranked.rank s).2 + dx) := by
  refine Prod.ext ?_ rfl
  show 2 * (s.y + dy) + s.z = 2 * s.y + s.z + 2 * dy
  ring

theorem rank_translate_inj {a b : Site} :
    Ranked.rank (a.translate dx dy) = Ranked.rank (b.translate dx dy)
      ↔ Ranked.rank a = Ranked.rank b := by
  rw [rank_translate, rank_translate, Prod.ext_iff, Prod.ext_iff]
  simp only [add_left_inj]

/-- Translated sites are in the order they were in. -/
theorem rankBefore_translate {a b : Site} :
    RankBefore (Ranked.rank (a.translate dx dy)) (Ranked.rank (b.translate dx dy))
      ↔ RankBefore (Ranked.rank a) (Ranked.rank b) := by
  rw [rank_translate, rank_translate]
  simp only [RankBefore, add_left_inj, add_lt_add_iff_right]

theorem before_translate {a b : Site} :
    (a.translate dx dy).Before (b.translate dx dy) ↔ a.Before b :=
  rankBefore_translate dx dy

theorem sameRank_translate (a b : Site) :
    (a.translate dx dy).sameRank (b.translate dx dy) = a.sameRank b := by
  rw [Site.sameRank, Site.sameRank, decide_eq_decide]
  exact rank_translate_inj dx dy

/-- Every position moves by the same vector. -/
theorem position_translate (lattice : Lattice) (s : Site) :
    (lattice.position (s.translate dx dy) : Position ℝ)
      = ⟨(lattice.position s).x + dx * lattice.geometry.columnPitch,
          (lattice.position s).y + dy * lattice.geometry.rowPitch⟩ := by
  simp only [Lattice.position, Site.translate, Scalar.ofInt, Int.cast_add, Position.mk.injEq]
  constructor <;> ring

/-- Distances stay as they are. -/
theorem distance_translate (lattice : Lattice) (a b : Site) :
    (lattice.distance (a.translate dx dy) (b.translate dx dy) : ℝ) = lattice.distance a b := by
  have hsq : (Lattice.squaredDistance (lattice.position (a.translate dx dy))
        (lattice.position (b.translate dx dy)) : ℝ)
      = Lattice.squaredDistance (lattice.position a) (lattice.position b) := by
    rw [position_translate, position_translate]
    simp only [Lattice.squaredDistance]
    ring
  rw [Lattice.distance, Lattice.distance, hsq]

end Sites

/-! ## Tables -/

namespace Table

variable {β : Type} (dx dy : ℤ)

/-- The table with every key translated. -/
def translate (t : Table Site β) : Table Site β where
  entries := t.entries.map fun e => (e.1.translate dx dy, e.2)
  sorted := List.pairwise_map.2 (t.sorted.imp fun h => (rankBefore_translate dx dy).2 h)

theorem entries_translate (t : Table Site β) :
    (t.translate dx dy).entries = t.entries.map fun e => (e.1.translate dx dy, e.2) := rfl

@[simp] theorem size_translate (t : Table Site β) : (t.translate dx dy).size = t.size :=
  List.length_map _

@[simp] theorem values_translate (t : Table Site β) : (t.translate dx dy).values = t.values := by
  rw [values, values, entries_translate, List.map_map]
  rfl

theorem keys_translate (t : Table Site β) :
    (t.translate dx dy).keys = t.keys.map (·.translate dx dy) := by
  rw [keys, keys, entries_translate, List.map_map, List.map_map]
  rfl

/-- A translated key has the value it had. -/
theorem get?_translate (t : Table Site β) (s : Site) :
    (t.translate dx dy).get? (s.translate dx dy) = t.get? s := by
  have htest : ∀ e : Site × β,
      decide (Ranked.rank (e.1.translate dx dy) = Ranked.rank (s.translate dx dy))
        = decide (Ranked.rank e.1 = Ranked.rank s) :=
    fun e => decide_eq_decide.2 (rank_translate_inj dx dy)
  rw [get?, get?, entries_translate, List.find?_map, Option.map_map]
  simp only [Function.comp_def, htest]

/-- Dropping a key and translating may be exchanged. -/
theorem erase_translate (t : Table Site β) (s : Site) :
    (t.translate dx dy).erase (s.translate dx dy) = (t.erase s).translate dx dy := by
  have htest : ∀ e : Site × β,
      decide (Ranked.rank (e.1.translate dx dy) = Ranked.rank (s.translate dx dy))
        = decide (Ranked.rank e.1 = Ranked.rank s) :=
    fun e => decide_eq_decide.2 (rank_translate_inj dx dy)
  have hentries : ((t.translate dx dy).erase (s.translate dx dy)).entries
      = ((t.erase s).translate dx dy).entries := by
    simp only [erase, entries_translate, List.filter_map, Function.comp_def, htest]
  exact eq_of_perm (hentries ▸ List.Perm.refl _)

end Table

/-! ## Layouts -/

/-- The layout with all its cells, defects and local potentials translated. -/
def Layout.translate (dx dy : ℤ) (l : Layout ℝ) : Layout ℝ :=
  { l with
    cells := l.cells.translate dx dy
    defects := l.defects.translate dx dy
    localPotentials := l.localPotentials.translate dx dy }

section Layouts

variable (dx dy : ℤ) (l : Layout ℝ)

@[simp] theorem lattice_translate : (l.translate dx dy).lattice = l.lattice := rfl

theorem size_translate : (l.translate dx dy).size = l.size :=
  l.cells.size_translate dx dy

theorem sites_translate : (l.translate dx dy).sites = l.sites.map (·.translate dx dy) :=
  l.cells.keys_translate dx dy

/-- The same defects are checked. -/
theorem checkDefects_translate : (l.translate dx dy).checkDefects = l.checkDefects := by
  rw [Layout.checkDefects, Layout.checkDefects]
  exact congrArg (·.forM Defect.check) (l.defects.values_translate dx dy)

theorem removeCell_translate (s : Site) :
    (l.translate dx dy).removeCell (s.translate dx dy) = (l.removeCell s).translate dx dy := by
  rw [Layout.removeCell]
  exact congrArg (fun cells => { l.translate dx dy with cells }) (l.cells.erase_translate dx dy s)

theorem localPotential_translate (s : Site) :
    (l.translate dx dy).localPotential (s.translate dx dy) = l.localPotential s := by
  rw [Layout.localPotential, Layout.localPotential]
  exact congrArg (·.getD 0) (l.localPotentials.get?_translate dx dy s)

/-- The defects put on a translated site what they put on it before. -/
theorem defectPotential_translate (s : Site) :
    (l.translate dx dy).defectPotential (s.translate dx dy) = l.defectPotential s := by
  have hentries : (l.translate dx dy).defects.entries
      = l.defects.entries.map fun e => (e.1.translate dx dy, e.2) := rfl
  rw [Layout.defectPotential, Layout.defectPotential, hentries, List.foldl_map]
  simp only [lattice_translate, distance_translate]

end Layouts

/-! ## Pairs -/

/-- The pair of the translated sites. -/
def Pair.translate (dx dy : ℤ) (p : Pair) : Pair :=
  ⟨p.upper.translate dx dy, p.lower.translate dx dy⟩

/-- The candidate with both sites translated. -/
def PairCandidate.translate (dx dy : ℤ) (c : PairCandidate ℝ) : PairCandidate ℝ :=
  ⟨c.distance, c.first.translate dx dy, c.second.translate dx dy⟩

/-- The pairs of a list carry over to its image. -/
theorem unorderedPairs_map {β γ : Type} (f : β → γ) (xs : List β) :
    unorderedPairs (xs.map f) = (unorderedPairs xs).map (Prod.map f f) := by
  induction xs with
  | nil => rfl
  | cons x xs ih =>
    rw [List.map_cons, unorderedPairs, unorderedPairs, List.map_append, ih, List.map_map,
      List.map_map]
    rfl

section Pairs

variable (dx dy : ℤ)

theorem sitesWithRole_translate (l : Layout ℝ) (r : Option Role) :
    (l.translate dx dy).sitesWithRole r = (l.sitesWithRole r).map (·.translate dx dy) := by
  have hentries : (l.translate dx dy).cells.entries
      = l.cells.entries.map fun e => (e.1.translate dx dy, e.2) := rfl
  rw [Layout.sitesWithRole, Layout.sitesWithRole, hentries, List.filter_map, List.map_map,
    List.map_map]
  rfl

/-- Candidates keep their order, ties included. -/
theorem PairCandidate.before_translate (a b : PairCandidate ℝ) :
    (a.translate dx dy).before (b.translate dx dy) = a.before b := by
  simp only [before, translate, DanglingBonds.before_translate]

/-- The candidates, each with its distance, in order. -/
theorem pairCandidates_eq (l : Layout ℝ) (r : Option Role) (w : PairWindow ℝ) :
    pairCandidates l r w = sortBy PairCandidate.before
      (((unorderedPairs (l.sitesWithRole r)).map
          fun e => (⟨l.lattice.distance e.1 e.2, e.1, e.2⟩ : PairCandidate ℝ)).filter
        fun c => w.minimum ≤ c.distance && c.distance ≤ w.maximum) := rfl

theorem pairCandidates_translate (l : Layout ℝ) (r : Option Role) (w : PairWindow ℝ) :
    pairCandidates (l.translate dx dy) r w
      = (pairCandidates l r w).map (·.translate dx dy) := by
  have hall : ((unorderedPairs (l.sitesWithRole r)).map
        (Prod.map (·.translate dx dy) (·.translate dx dy))).map
          (fun e => (⟨l.lattice.distance e.1 e.2, e.1, e.2⟩ : PairCandidate ℝ))
      = ((unorderedPairs (l.sitesWithRole r)).map
          fun e => (⟨l.lattice.distance e.1 e.2, e.1, e.2⟩ : PairCandidate ℝ)).map
            (·.translate dx dy) := by
    rw [List.map_map, List.map_map]
    refine List.map_congr_left fun e _ => ?_
    exact congrArg (PairCandidate.mk · _ _) (distance_translate dx dy l.lattice e.1 e.2)
  rw [pairCandidates_eq, pairCandidates_eq, sitesWithRole_translate, unorderedPairs_map,
    ← sortBy_map (PairCandidate.before_translate dx dy), lattice_translate, hall, List.filter_map]
  rfl

/-- The matching accepts the translated candidates: two sites are one site if they were. -/
theorem matchGreedily_translate (taken : List Site) (cs : List (PairCandidate ℝ)) :
    matchGreedily (taken.map (·.translate dx dy)) (cs.map (·.translate dx dy))
      = (matchGreedily taken cs).map (·.translate dx dy) := by
  have htaken : ∀ (taken : List Site) (s : Site),
      (taken.map (·.translate dx dy)).any (s.translate dx dy).sameRank
        = taken.any s.sameRank := by
    intro taken s
    rw [List.any_map]
    simp only [Function.comp_def, sameRank_translate]
  induction cs generalizing taken with
  | nil => rfl
  | cons c cs ih =>
    have hfirst := htaken taken c.first
    have hsecond := htaken taken c.second
    rw [List.map_cons, matchGreedily, matchGreedily]
    simp only [PairCandidate.translate, hfirst, hsecond]
    split
    · exact ih taken
    · exact congrArg (_ :: ·) (ih (c.first :: c.second :: taken))

theorem Pair.ofCells_translate (lattice : Lattice) (a b : Site) :
    Pair.ofCells ℝ lattice (a.translate dx dy) (b.translate dx dy)
      = (Pair.ofCells ℝ lattice a b).translate dx dy := by
  rw [Pair.ofCells, Pair.ofCells, apply_ite (Pair.translate dx dy)]
  simp only [position_translate, add_lt_add_iff_right, add_le_add_iff_right]
  rfl

theorem Pair.before_translate (lattice : Lattice) (a b : Pair) :
    Pair.before ℝ lattice (a.translate dx dy) (b.translate dx dy) = Pair.before ℝ lattice a b := by
  simp only [Pair.before, Pair.translate, position_translate, add_lt_add_iff_right]

/-- **The pairs of a translated layout** are the translated pairs, in the same order. -/
theorem pairs_translate (l : Layout ℝ) (r : Option Role) (w : PairWindow ℝ) :
    (l.translate dx dy).pairs r w = (l.pairs r w).map (·.translate dx dy) := by
  have hmatched := matchGreedily_translate dx dy [] (pairCandidates l r w)
  rw [List.map_nil] at hmatched
  rw [Layout.pairs, Layout.pairs, pairCandidates_translate, hmatched, List.map_map,
    ← sortBy_map (Pair.before_translate dx dy l.lattice), List.map_map, lattice_translate]
  congr 1
  exact List.map_congr_left fun c _ => Pair.ofCells_translate dx dy l.lattice c.first c.second

end Pairs

/-! ## Input combinations -/

section InputCombinations

variable (dx dy : ℤ)

theorem setPairs_translate (index : ℕ) (ps : List Pair) (l : Layout ℝ) :
    InputTerminals.setPairs index (ps.map (·.translate dx dy)) (l.translate dx dy)
      = (InputTerminals.setPairs index ps l).translate dx dy := by
  induction ps generalizing l with
  | nil => rfl
  | cons p ps ih =>
    have hkept : (if index.testBit ps.length then (p.translate dx dy).upper
          else (p.translate dx dy).lower)
        = (if index.testBit ps.length then p.upper else p.lower).translate dx dy := by
      split <;> rfl
    rw [List.map_cons, InputTerminals.setPairs, InputTerminals.setPairs, List.length_map, hkept,
      removeCell_translate, ih]

/-- **The layout of an input combination** is translated with the gate. -/
theorem layoutFor_translate (l : Layout ℝ) (w : PairWindow ℝ) (index : ℕ) :
    (InputTerminals.ofLayout (l.translate dx dy) w).layoutFor index
      = ((InputTerminals.ofLayout l w).layoutFor index).translate dx dy := by
  rw [InputTerminals.layoutFor, InputTerminals.layoutFor, InputTerminals.ofLayout,
    InputTerminals.ofLayout, pairs_translate, setPairs_translate]

end InputCombinations

end DanglingBonds
