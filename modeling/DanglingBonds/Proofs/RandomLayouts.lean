/-
# Random layouts

A random layout has the requested number of normal cells, on different sites of a rectangle. It is
that of the first acceptable draw, and there is none only if every draw that may be made is refused
for positive charges. Several random layouts are the first of the acceptable ones that differ in
their sites, in the order of the draws.

* `AnalysisError.IsInvalidArea` : errors that refuse an area.
* `accepts_iff` : what is acceptable.
* `generate_cases` : a random layout, or none.
* `pairwise_newLayouts` : new layouts differ in their sites.
* `exists_newLayouts_of_generateMany` : several random layouts.
* `randomLayouts_meet_specification` : all of this.
-/
import Mathlib
import DanglingBonds.Proofs.DrawnLayouts
import DanglingBonds.Proofs.DrawnSequences
import DanglingBonds.Proofs.Exactness

namespace DanglingBonds

/-- Whether an error refuses an area: for its corners, or for the number of its sites. -/
def AnalysisError.IsInvalidArea {α : Type} : AnalysisError α → Prop
  | .invertedArea _ _ => True
  | .crowdedArea _ _ => True
  | _ => False

namespace RandomLayoutOptions

variable {α : Type} [Scalar α] {o : RandomLayoutOptions α} {draws : DrawSource}

/-! ## A random layout -/

/-- A layout is acceptable unless positive charges are forbidden and it admits one. -/
theorem accepts_iff {l : Layout α} : o.accepts l = true ↔
    (o.positiveCharges = .forbidden → l.admitsPositive o.parameters = false) := by
  rw [accepts, Bool.or_eq_true, beq_iff_eq, Bool.not_eq_true']
  cases o.positiveCharges with
  | allowed => simp
  | forbidden => simp

/-- It is refused if they are forbidden and it admits one. -/
theorem not_accepts_iff {call : ℕ} : ¬ o.Accepts draws call ↔
    o.positiveCharges = .forbidden ∧
      (o.layoutOfDraw draws call).admitsPositive o.parameters = true := by
  rw [Accepts, accepts_iff, Classical.not_imp, Bool.not_eq_false]

/-- Errors of the options are reported. -/
theorem generate_of_check_eq_error {e : AnalysisError α} (hcheck : o.check = .error e) :
    o.generate draws = .error e := by
  rw [generate, Drawing.result, run_next_of_check_eq_error hcheck]

/-- **A random layout** is that of the first acceptable draw, or there is none. -/
theorem generate_cases (hcheck : o.check = .ok ()) (draws : DrawSource) :
    (∃ call < o.attempts, o.Accepts draws call ∧
      o.generate draws = .ok (o.layoutOfDraw draws call)) ∨
    ((∀ call < o.attempts, ¬ o.Accepts draws call) ∧
      o.generate draws = .error (.exhausted o.attempts)) := by
  rw [generate, Drawing.result, next_eq hcheck]
  rcases o.run_firstAccepted draws o.attempts 0 with
    ⟨k, -, hk, haccepts, -, hrun⟩ | ⟨hrefused, hrun⟩
  · rw [Nat.zero_add] at hk
    exact .inl ⟨k, hk, haccepts, by rw [hrun]⟩
  · refine .inr ⟨fun call hcall => hrefused call call.zero_le ?_, by rw [hrun]⟩
    rwa [Nat.zero_add]

/-! ## Several random layouts -/

/-- New layouts differ in their sites. -/
theorem pairwise_newLayouts (o : RandomLayoutOptions α) (draws : DrawSource) (calls : ℕ) :
    (o.newLayouts draws calls).Pairwise fun l l' => l.sites ≠ l'.sites := by
  induction calls with
  | zero => exact List.Pairwise.nil
  | succ calls ih =>
    by_cases hnew : o.IsNew draws calls
    · rw [newLayouts_succ_of_isNew hnew, List.pairwise_append]
      refine ⟨ih, List.pairwise_singleton _ _, fun l hl l' hl' => ?_⟩
      obtain ⟨j, hj, rfl⟩ := List.mem_map.1 hl
      obtain ⟨hlt, hjnew⟩ := List.mem_filter.1 hj
      rw [List.mem_singleton.1 hl']
      exact hnew.2 j (List.mem_range.1 hlt) (of_decide_eq_true hjnew).1
    · rw [newLayouts_succ_of_not_isNew hnew]
      exact ih

/-- With options that are refused no layouts are returned, unless none are asked for. -/
theorem eq_nil_of_check_eq_error {e : AnalysisError α} {count : ℕ} {ls : List (Layout α)}
    (hcheck : o.check = .error e) (h : o.generateMany draws count = .ok ls) :
    count = 0 ∧ ls = [] := by
  rw [generateMany, Drawing.result] at h
  rcases run_nextMany_of_check_eq_error hcheck draws count with ⟨hcount, hrun⟩ | ⟨e', hrun⟩
  · rw [hrun] at h
    exact ⟨hcount, (Except.ok.inj h).symm⟩
  · rw [hrun] at h
    cases h

/-- **Several random layouts** are the requested number of new ones, in the order of the draws. -/
theorem exists_newLayouts_of_generateMany {count : ℕ} {ls : List (Layout α)}
    (h : o.generateMany draws count = .ok ls) :
    ls.length = count ∧ ∃ made, ls = o.newLayouts draws made := by
  cases hcheck : o.check with
  | error e =>
    obtain ⟨rfl, rfl⟩ := eq_nil_of_check_eq_error hcheck h
    exact ⟨rfl, 0, rfl⟩
  | ok u =>
    obtain ⟨made, hmade, hrun⟩ := exists_run_nextMany hcheck draws count
    rw [generateMany, Drawing.result, hrun] at h
    by_cases hnew : count ≤ Nat.count (o.IsNew draws) made
    · rw [if_pos hnew] at h
      obtain rfl := Except.ok.inj h
      refine ⟨?_, made, rfl⟩
      rw [length_newLayouts]
      exact le_antisymm (count_isNew_le fun n hn hfinished => (hmade.2 hfinished).not_gt hn) hnew
    · rw [if_neg hnew] at h
      cases h

/-! ## The specification -/

/-- A layout that may be returned: a placement, without positive charges where they are
forbidden. -/
structure Meets (o : RandomLayoutOptions α) (l : Layout α) : Prop where
  isPlacement : o.IsPlacement l
  admitsPositive_eq : o.positiveCharges = .forbidden → l.admitsPositive o.parameters = false

/-- An acceptable draw yields such a layout. -/
theorem meets_layoutOfDraw {call : ℕ} (hdraws : draws.IsComplete call o.sites)
    (hcells : o.cells ≤ o.sites) (h : o.Accepts draws call) :
    o.Meets (o.layoutOfDraw draws call) :=
  ⟨isPlacement_layoutOfDraw hdraws hcells, accepts_iff.1 h⟩

section Meeting

variable (hp : o.parameters.check = .ok ())

include hp

/-- An area is refused for its corners, or for the number of its sites. -/
theorem isInvalidArea_generate_iff :
    (∃ e : AnalysisError α, o.generate draws = .error e ∧ e.IsInvalidArea) ↔
      o.IsInverted ∨ o.sites < o.cells := by
  rcases check_cases hp with
    ⟨hinverted, hcheck⟩ | ⟨-, hcrowded, hcheck⟩ | ⟨hordered, hcells, hcheck⟩
  · exact iff_of_true ⟨_, generate_of_check_eq_error hcheck, trivial⟩ (.inl hinverted)
  · exact iff_of_true ⟨_, generate_of_check_eq_error hcheck, trivial⟩ (.inr hcrowded)
  · refine iff_of_false ?_ (not_or.2 ⟨hordered, hcells.not_gt⟩)
    rintro ⟨e, he, hinvalid⟩
    rcases generate_cases hcheck draws with ⟨call, -, -, h⟩ | ⟨-, h⟩
    · cases he.symm.trans h
    · cases he.symm.trans h
      exact hinvalid

/-- What is returned meets the options. -/
theorem meets_of_generate (hdraws : ∀ call, draws.IsComplete call o.sites) {l : Layout α}
    (h : o.generate draws = .ok l) : o.Meets l := by
  cases hcheck : o.check with
  | error e => cases (generate_of_check_eq_error hcheck).symm.trans h
  | ok u =>
    rcases generate_cases hcheck draws with ⟨call, -, haccepts, hcall⟩ | ⟨-, hnone⟩
    · cases hcall.symm.trans h
      exact meets_layoutOfDraw (hdraws call) (cells_le_sites hp hcheck) haccepts
    · cases hnone.symm.trans h

/-- Attempts are used up by positive charges alone. -/
theorem refused_of_generate {n : ℕ} (h : o.generate draws = .error (.exhausted n)) :
    n = o.attempts ∧ ∀ call < o.attempts, o.positiveCharges = .forbidden ∧
      (o.layoutOfDraw draws call).admitsPositive o.parameters = true := by
  rcases check_cases hp with ⟨-, hcheck⟩ | ⟨-, -, hcheck⟩ | ⟨-, -, hcheck⟩
  · cases (generate_of_check_eq_error hcheck).symm.trans h
  · cases (generate_of_check_eq_error hcheck).symm.trans h
  · rcases generate_cases hcheck draws with ⟨call, -, -, hcall⟩ | ⟨hrefused, hnone⟩
    · cases hcall.symm.trans h
    · cases hnone.symm.trans h
      exact ⟨rfl, fun call hcall => not_accepts_iff.1 (hrefused call hcall)⟩

/-- Each of several random layouts meets the options. -/
theorem meets_of_mem_generateMany (hdraws : ∀ call, draws.IsComplete call o.sites) {count : ℕ}
    {ls : List (Layout α)} (h : o.generateMany draws count = .ok ls) {l : Layout α} (hl : l ∈ ls) :
    o.Meets l := by
  cases hcheck : o.check with
  | error e =>
    rw [(eq_nil_of_check_eq_error hcheck h).2] at hl
    exact absurd hl List.not_mem_nil
  | ok u =>
    obtain ⟨-, made, rfl⟩ := exists_newLayouts_of_generateMany h
    obtain ⟨call, hcall, rfl⟩ := List.mem_map.1 hl
    have hnew : o.IsNew draws call := of_decide_eq_true (List.mem_filter.1 hcall).2
    exact meets_layoutOfDraw (hdraws call) (cells_le_sites hp hcheck) hnew.1

end Meeting

/-- **Random layouts meet their specification.** Let the parameters be accepted, and let every draw
yield as many different indices as are asked for. The indices of the rectangle's sites are those
sites, one to one. An area is refused exactly if its corners are inverted or it has fewer sites than
cells are requested. Otherwise there is a random layout, which has as many normal cells in the area
as are requested and admits no positive charge where that is forbidden, or every draw that may be
made is refused for a positive charge. Several random layouts are of the same kind, differ in their
sites and are the first so many acceptable ones that differ, in the order of the draws. -/
theorem randomLayouts_meet_specification (hp : o.parameters.check = .ok ())
    (hdraws : ∀ call, draws.IsComplete call o.sites) :
    Set.BijOn o.site (Set.Iio o.sites) o.area ∧
    ((∃ e : AnalysisError α, o.generate draws = .error e ∧ e.IsInvalidArea) ↔
      o.IsInverted ∨ o.area.ncard < o.cells) ∧
    (¬ (o.IsInverted ∨ o.area.ncard < o.cells) →
      (∃ l, o.generate draws = .ok l) ∨ o.generate draws = .error (.exhausted o.attempts)) ∧
    (∀ l, o.generate draws = .ok l → o.Meets l) ∧
    (∀ n, o.generate draws = .error (.exhausted n) → n = o.attempts ∧
      ∀ call < o.attempts, o.positiveCharges = .forbidden ∧
        (o.layoutOfDraw draws call).admitsPositive o.parameters = true) ∧
    ∀ count ls, o.generateMany draws count = .ok ls →
      ls.length = count ∧ (ls.Pairwise fun l l' => l.sites ≠ l'.sites) ∧ (∀ l ∈ ls, o.Meets l) ∧
      ∃ made, ls = o.newLayouts draws made := by
  rw [o.ncard_area]
  refine ⟨o.bijOn_site, isInvalidArea_generate_iff hp, fun hvalid => ?_,
    fun l hl => meets_of_generate hp hdraws hl, fun n hn => refused_of_generate hp hn,
    fun count ls h => ?_⟩
  · rcases generate_cases ((check_eq_ok_iff hp).2 hvalid) draws with ⟨call, -, -, h⟩ | ⟨-, h⟩
    · exact .inl ⟨_, h⟩
    · exact .inr h
  · obtain ⟨hlength, made, rfl⟩ := exists_newLayouts_of_generateMany h
    exact ⟨hlength, o.pairwise_newLayouts draws made,
      fun l hl => meets_of_mem_generateMany hp hdraws h hl, made, rfl⟩

end RandomLayoutOptions

/-- Options for two cells on a row of eleven sites, with two attempts. Neither cell may become
positive, and the permittivity is one at which neighbours would. -/
noncomputable def elevenSites : RandomLayoutOptions ℝ where
  northWest := ⟨0, 0, 0⟩
  southEast := ⟨10, 0, 0⟩
  cells := 2
  positiveCharges := .forbidden
  parameters := { (default : Parameters ℝ) with epsilonR := 1.0 }
  attempts := 2

/-- Neighbours, then cells far from each other, twice. -/
def nearAndFar : DrawSource :=
  .ofLists [[0, 1], [0, 10], [0, 1], [0, 9]]

theorem check_parameters_elevenSites : elevenSites.parameters.check = .ok () := by
  refine Parameters.check_eq_ok_iff.2 ⟨.inr rfl, ?_, ?_⟩
  · show (0 : ℝ) < 1.0
    norm_num
  · show (0 : ℝ) < 5.0
    norm_num

theorem check_elevenSites : elevenSites.check = .ok () := by
  refine (RandomLayoutOptions.check_eq_ok_iff check_parameters_elevenSites).2 ?_
  show ¬ (((10 : ℤ) < 0 ∨ (0 : ℤ) < 0) ∨ 11 < 2)
  decide

/-- Neighbours act on each other by more than the upper level. -/
theorem le_screenedPotential_one_column : 2 ≤ screenedPotential (0.384 : ℝ) 1.0 5.0 := by
  have hscreened : (2.9 : ℝ) * (1 - 0.384 / 5.0) ≤ screenedPotential 0.384 1.0 5.0 := by
    refine le_screenedPotential (by norm_num) (by norm_num) (by norm_num) ?_
    show 2.9 * (4 * 3.15 * 8.854e-12 * 1.0 * (0.384 * 1e-9)) ≤ (1.602e-19 : ℝ)
    norm_num
  exact le_trans (by norm_num) hscreened

/-- Cells nine or more columns apart do not. -/
theorem screenedPotential_nine_columns_le {columns : ℤ} (h : 9 ≤ columns) :
    screenedPotential (columns * 0.384 : ℝ) 1.0 5.0 ≤ 0.5 := by
  have hcolumns : (9 : ℝ) ≤ columns := by exact_mod_cast h
  refine screenedPotential_le (by norm_num) (by norm_num) (show (0 : ℝ) < 9 * 0.384 by norm_num)
    (by linarith) ?_
  show (1.602e-19 : ℝ) ≤ 0.5 * (4 * 3 * 8.854e-12 * 1.0 * (9 * 0.384 * 1e-9))
  norm_num

/-- So neighbours are refused. -/
theorem not_accepts_nearAndFar {call : ℕ}
    (h : elevenSites.layoutOfDraw nearAndFar call = rowOfTwo 1 Int.one_pos) :
    ¬ elevenSites.Accepts nearAndFar call := by
  refine RandomLayoutOptions.not_accepts_iff.2 ⟨rfl, ?_⟩
  rw [h, admitsPositive_rowOfTwo_iff, Int.cast_one, one_mul]
  show -(1e-6 : ℝ) < screenedPotential 0.384 1.0 5.0 + (-0.32 - 0.59)
  linarith [le_screenedPotential_one_column]

/-- The others are accepted. -/
theorem accepts_nearAndFar {call : ℕ} (columns : ℤ) (hpos : 0 < columns) (hfar : 9 ≤ columns)
    (h : elevenSites.layoutOfDraw nearAndFar call = rowOfTwo columns hpos) :
    elevenSites.Accepts nearAndFar call := by
  refine RandomLayoutOptions.accepts_iff.2 fun _ => ?_
  rw [h, ← Bool.not_eq_true, admitsPositive_rowOfTwo_iff, not_lt]
  show screenedPotential (columns * 0.384 : ℝ) 1.0 5.0 + (-0.32 - 0.59) ≤ -(1e-6 : ℝ)
  linarith [screenedPotential_nine_columns_le hfar]

/-- Of the first four draws, the second and the last are accepted, and both are new. -/
theorem count_nearAndFar :
    Nat.count (elevenSites.Accepts nearAndFar) 3 = 1 ∧
      Nat.count (elevenSites.IsNew nearAndFar) 4 = 2 := by
  have h0 : ¬ elevenSites.Accepts nearAndFar 0 := not_accepts_nearAndFar rfl
  have h1 : elevenSites.Accepts nearAndFar 1 :=
    accepts_nearAndFar 10 (by decide) (by decide) rfl
  have h2 : ¬ elevenSites.Accepts nearAndFar 2 := not_accepts_nearAndFar rfl
  have h3 : elevenSites.Accepts nearAndFar 3 :=
    accepts_nearAndFar 9 (by decide) (by decide) rfl
  have hnew1 : elevenSites.IsNew nearAndFar 1 := by
    refine ⟨h1, fun j hj haccepts => ?_⟩
    obtain rfl : j = 0 := by omega
    exact absurd haccepts h0
  have hnew3 : elevenSites.IsNew nearAndFar 3 := by
    refine ⟨h3, fun j hj haccepts => ?_⟩
    obtain rfl | rfl | rfl : j = 0 ∨ j = 1 ∨ j = 2 := by omega
    · exact absurd haccepts h0
    · show (rowOfTwo 10 (by decide)).sites ≠ (rowOfTwo 9 (by decide)).sites
      decide
    · exact absurd haccepts h2
  have hold0 : ¬ elevenSites.IsNew nearAndFar 0 := fun h => h0 h.1
  have hold2 : ¬ elevenSites.IsNew nearAndFar 2 := fun h => h2 h.1
  constructor
  · simp only [Nat.count_succ, Nat.count_zero, h0, h1, h2, if_true, if_false]
  · simp only [Nat.count_succ, Nat.count_zero, hold0, hnew1, hold2, hnew3, if_true, if_false]

/-- So two layouts take four draws. -/
theorem isLeast_isFinished_nearAndFar :
    IsLeast {n | elevenSites.IsFinished nearAndFar 2 n} 4 := by
  obtain ⟨haccepted, hnew⟩ := count_nearAndFar
  refine ⟨.inl hnew.ge, fun n hfinished => ?_⟩
  by_contra hlt
  have hn : n ≤ 3 := by omega
  have hone : Nat.count (elevenSites.Accepts nearAndFar) n ≤ 1 :=
    (Nat.count_monotone _ hn).trans_eq haccepted
  rcases hfinished with hnew | henough | ⟨hattempts, hrow⟩
  · have hle : Nat.count (elevenSites.IsNew nearAndFar) n
        ≤ Nat.count (elevenSites.Accepts nearAndFar) n :=
      Nat.count_mono_left fun _ _ h => h.1
    omega
  · exact absurd (henough.trans hone) (by decide)
  · exact hrow 1 hattempts (hn.trans (by decide))
      (accepts_nearAndFar 10 (by decide) (by decide) rfl)

/-- Where neighbours are refused, cells far from each other are returned: one layout of the first
two draws, and two of the first four. -/
theorem randomLayouts_meet_specification_elevenSites :
    elevenSites.parameters.check = .ok () ∧
      (∀ call, nearAndFar.IsComplete call elevenSites.sites) ∧
      elevenSites.positiveCharges = .forbidden ∧ elevenSites.area.ncard = 11 ∧
      (∃ l, elevenSites.generate nearAndFar = .ok l ∧ elevenSites.Meets l) ∧
      ∃ ls, elevenSites.generateMany nearAndFar 2 = .ok ls ∧ ls.length = 2 ∧
        (ls.Pairwise fun l l' => l.sites ≠ l'.sites) ∧ ∀ l ∈ ls, elevenSites.Meets l := by
  have hp := check_parameters_elevenSites
  have hdraws : ∀ call, nearAndFar.IsComplete call elevenSites.sites :=
    fun call => DrawSource.isComplete_ofLists _ call _
  obtain ⟨-, -, hresult, hmeets, hexhausted, hmany⟩ :=
    RandomLayoutOptions.randomLayouts_meet_specification hp hdraws
  have hsites : elevenSites.area.ncard = 11 := RandomLayoutOptions.ncard_area _
  have hvalid : ¬ (elevenSites.IsInverted ∨ elevenSites.area.ncard < elevenSites.cells) := by
    rw [hsites]
    show ¬ (((10 : ℤ) < 0 ∨ (0 : ℤ) < 0) ∨ 11 < 2)
    decide
  refine ⟨hp, hdraws, rfl, hsites, ?_, ?_⟩
  · rcases hresult hvalid with ⟨l, hl⟩ | hnone
    · exact ⟨l, hl, hmeets l hl⟩
    · -- not every draw is refused
      have hrefused := (hexhausted _ hnone).2 1 Nat.one_lt_two
      exact absurd (accepts_nearAndFar 10 (by decide) (by decide) rfl)
        (RandomLayoutOptions.not_accepts_iff.2 hrefused)
  · obtain ⟨made, hmade, hrun⟩ :=
      RandomLayoutOptions.exists_run_nextMany check_elevenSites nearAndFar 2
    obtain rfl := hmade.unique isLeast_isFinished_nearAndFar
    rw [if_pos count_nearAndFar.2.ge] at hrun
    have hls : elevenSites.generateMany nearAndFar 2 = .ok (elevenSites.newLayouts nearAndFar 4) := by
      rw [RandomLayoutOptions.generateMany, Drawing.result, hrun]
    obtain ⟨hlength, hpairwise, hall, -⟩ := hmany 2 _ hls
    exact ⟨_, hls, hlength, hpairwise, hall⟩

end DanglingBonds
