/-
# The cells of a layout

A layout lists its cells in strictly ascending order of their places, with one role each. A place
has a role if a cell is listed there, and the lists of the cells of one role make up that of all
cells.

* `Layout.mem_entries_iff`, `Layout.mem_sitesWithRole_iff` : cells and their roles.
* `Layout.size_eq_ncard` : the number of cells is the number of places with a role.
* `Layout.perm_sitesWithRole` : the cells of the three roles make up all cells.
* `Layout.listsCells` : the lists and counts of cells agree with their roles.
-/
import Mathlib
import DanglingBonds.Layout
import DanglingBonds.Proofs.OrderedTables

namespace DanglingBonds

open Ranked

namespace Layout

variable {α : Type} {l : Layout α} {s c : Site}

/-! ## Cells and roles -/

theorem role?_eq_some_iff {r : Role} :
    l.role? c = some r ↔ ∃ s, (s, r) ∈ l.cells.entries ∧ rank s = rank c := by
  rw [role?, Table.get?_eq_some_iff]
  constructor
  · rintro ⟨e, he, hrank, rfl⟩
    exact ⟨e.1, he, hrank⟩
  · rintro ⟨s, he, hrank⟩
    exact ⟨_, he, hrank, rfl⟩

theorem mem_sites_iff : s ∈ l.sites ↔ ∃ r, (s, r) ∈ l.cells.entries := by
  rw [sites, Table.keys, List.mem_map]
  constructor
  · rintro ⟨⟨s', r⟩, he, rfl⟩
    exact ⟨r, he⟩
  · rintro ⟨r, he⟩
    exact ⟨_, he, rfl⟩

/-- The cells are listed with their roles. -/
theorem mem_entries_iff {r : Role} :
    (s, r) ∈ l.cells.entries ↔ s ∈ l.sites ∧ l.role? s = some r := by
  rw [mem_sites_iff, role?_eq_some_iff]
  constructor
  · exact fun he => ⟨⟨r, he⟩, s, he, rfl⟩
  · rintro ⟨⟨r', he⟩, s', he', hrank⟩
    have heq := l.cells.eq_of_rank_eq he' he hrank
    rwa [(Prod.mk.inj heq).2]

/-- A place has a role if a cell is listed there. -/
theorem role?_ne_none_iff : l.role? c ≠ none ↔ ∃ s ∈ l.sites, rank s = rank c := by
  rw [Option.ne_none_iff_exists']
  simp only [role?_eq_some_iff, mem_sites_iff]
  constructor
  · rintro ⟨r, s, he, hrank⟩
    exact ⟨s, ⟨r, he⟩, hrank⟩
  · rintro ⟨s, ⟨r, he⟩, hrank⟩
    exact ⟨r, s, he, hrank⟩

theorem isVacant_iff : l.isVacant c = true ↔ l.role? c = none := by
  rw [isVacant, Table.contains, role?, Bool.not_eq_true', Option.isSome_eq_false_iff,
    Option.isNone_iff_eq_none]

/-- The cells of a role are the listed cells that have it. -/
theorem mem_sitesWithRole_iff {r : Option Role} :
    s ∈ l.sitesWithRole r ↔ s ∈ l.sites ∧ l.role? s = r := by
  rw [sitesWithRole, List.mem_map]
  simp only [List.mem_filter, beq_iff_eq]
  constructor
  · rintro ⟨⟨s', role⟩, ⟨he, rfl⟩, rfl⟩
    exact mem_entries_iff.1 he
  · rintro ⟨hs, rfl⟩
    obtain ⟨role, he⟩ := mem_sites_iff.1 hs
    exact ⟨(s, role), ⟨he, (mem_entries_iff.1 he).2.symm⟩, rfl⟩

/-! ## Lists and counts -/

theorem pairwise_sites (l : Layout α) : l.sites.Pairwise Site.Before :=
  List.pairwise_map.2 l.cells.sorted

theorem nodup_map_rank_sites (l : Layout α) : (l.sites.map rank).Nodup :=
  List.pairwise_map.2 (l.pairwise_sites.imp RankBefore.ne)

theorem nodup_sitesWithRole (l : Layout α) (r : Option Role) : (l.sitesWithRole r).Nodup :=
  (List.filter_sublist.map Prod.fst).nodup l.nodup_map_rank_sites.of_map

/-- There are as many cells as places with a role. -/
theorem size_eq_ncard (l : Layout α) :
    l.size = {k : ℤ × ℤ | ∃ c : Site, rank c = k ∧ l.role? c ≠ none}.ncard := by
  have hset : {k : ℤ × ℤ | ∃ c : Site, rank c = k ∧ l.role? c ≠ none}
      = ((l.sites.map rank).toFinset : Set (ℤ × ℤ)) := by
    ext k
    simp only [role?_ne_none_iff, Set.mem_ofPred_eq, Finset.mem_coe, List.mem_toFinset,
      List.mem_map]
    constructor
    · rintro ⟨c, rfl, s, hs, hrank⟩
      exact ⟨s, hs, hrank⟩
    · rintro ⟨s, hs, rfl⟩
      exact ⟨s, rfl, s, hs, rfl⟩
  rw [hset, Set.ncard_coe_finset, List.toFinset_card_of_nodup l.nodup_map_rank_sites,
    List.length_map, sites, Table.keys, List.length_map]
  rfl

/-- The cells of the three roles make up all cells. -/
theorem perm_sitesWithRole (l : Layout α) :
    (l.sitesWithRole (some .normal) ++ l.sitesWithRole (some .input)
      ++ l.sitesWithRole (some .output)).Perm l.sites := by
  have hdisjoint : ∀ {r r' : Option Role}, r ≠ r' →
      ∀ s ∈ l.sitesWithRole r, ∀ s' ∈ l.sitesWithRole r', s ≠ s' := by
    rintro r r' hne s hs _ hs' rfl
    exact hne ((mem_sitesWithRole_iff.1 hs).2.symm.trans (mem_sitesWithRole_iff.1 hs').2)
  have hnodup : (l.sitesWithRole (some .normal) ++ l.sitesWithRole (some .input)
      ++ l.sitesWithRole (some .output)).Nodup := by
    refine List.nodup_append.2 ⟨List.nodup_append.2 ⟨l.nodup_sitesWithRole _,
      l.nodup_sitesWithRole _, hdisjoint (by decide)⟩, l.nodup_sitesWithRole _, ?_⟩
    intro s hs
    rcases List.mem_append.1 hs with hs | hs
    · exact hdisjoint (by decide) s hs
    · exact hdisjoint (by decide) s hs
  rw [List.perm_ext_iff_of_nodup hnodup l.nodup_map_rank_sites.of_map]
  intro s
  simp only [List.mem_append, mem_sitesWithRole_iff, ← and_or_left, and_iff_left_iff_imp]
  intro hs
  obtain ⟨role, he⟩ := mem_sites_iff.1 hs
  rw [(mem_entries_iff.1 he).2]
  cases role <;> simp

/-- How the lists and counts of cells agree with their roles. -/
structure ListsCells (l : Layout α) : Prop where
  entries : ∀ s r, (s, r) ∈ l.cells.entries ↔ s ∈ l.sites ∧ l.role? s = some r
  /-- A place has a role if a cell is listed there. -/
  occupied : ∀ c, l.role? c ≠ none ↔ ∃ s ∈ l.sites, rank s = rank c
  ascending : l.sites.Pairwise Site.Before
  distinct : (l.sites.map rank).Nodup
  size : l.size = {k : ℤ × ℤ | ∃ c : Site, rank c = k ∧ l.role? c ≠ none}.ncard
  vacant : ∀ c, l.isVacant c = true ↔ l.role? c = none
  withRole : ∀ s r, s ∈ l.sitesWithRole r ↔ s ∈ l.sites ∧ l.role? s = r
  withoutRole : l.sitesWithRole none = []
  partition : (l.sitesWithRole (some .normal) ++ l.sitesWithRole (some .input)
    ++ l.sitesWithRole (some .output)).Perm l.sites

/-- **The cells of a layout** are listed once each, in order and with their roles. -/
theorem listsCells (l : Layout α) : l.ListsCells where
  entries _ _ := mem_entries_iff
  occupied _ := role?_ne_none_iff
  ascending := l.pairwise_sites
  distinct := l.nodup_map_rank_sites
  size := l.size_eq_ncard
  vacant _ := isVacant_iff
  withRole _ _ := mem_sitesWithRole_iff
  withoutRole := by
    refine List.eq_nil_iff_forall_not_mem.2 fun s hs => ?_
    obtain ⟨hsite, hnone⟩ := mem_sitesWithRole_iff.1 hs
    exact role?_ne_none_iff.2 ⟨s, hsite, rfl⟩ hnone
  partition := l.perm_sitesWithRole

end Layout

end DanglingBonds
