/-
# Levels of compared energies

What the levels of a list of energies and the ground states of a simulation are takes no more than
energies that compare like numbers. All that is said here holds of binary64 numbers as long as none
of them is not a number, and of whatever rounding they went through.

* `FormLevels` : values that compare like numbers, ties included.
* `CountsLevels` : levels, from the highest down, that count a list of energies.
* `Spectrum.countsLevels_ofRounded` : the levels of a list of energies count it.
* `Spectrum.exists_ground?_eq_some` : the lowest level.
* `Spectrum.sameLevels_of_perm` : levels do not depend on the order of the energies.
* `Simulation.groundStates_eq_filter`, `groundState?_eq_head?` : the ground states.
-/
import Mathlib
import DanglingBonds.Simulation
import DanglingBonds.Proofs.Comparison

namespace DanglingBonds

variable {α : Type} [Scalar α]

/-! ## Values that form levels -/

/-- Values that form levels: `<` is a strict weak order on them, and `==` holds of those that
tie. -/
structure FormLevels (values : Set α) : Prop where
  isWeakOrderOn : IsWeakOrderOn values fun a b => a < b
  beq_iff : ∀ a ∈ values, ∀ b ∈ values, (a == b) = true ↔ ¬ a < b ∧ ¬ b < a

/-- Real numbers form levels. -/
theorem formLevels_real (values : Set ℝ) : FormLevels values where
  isWeakOrderOn := (comparable_real values).isWeakOrderOn
  beq_iff a _ b _ := by
    rw [beq_iff_eq, not_lt, not_lt, and_comm]
    exact le_antisymm_iff

namespace FormLevels

variable {values : Set α} (h : FormLevels values) {a b c : α} (ha : a ∈ values) (hb : b ∈ values)

include h

theorem mono {values' : Set α} (hsub : values' ⊆ values) : FormLevels values' where
  isWeakOrderOn := h.isWeakOrderOn.comap hsub
  beq_iff a ha b hb := h.beq_iff a (hsub ha) b (hsub hb)

include ha

theorem beq_self : (a == a) = true :=
  (h.beq_iff a ha a ha).2 ⟨h.isWeakOrderOn.irrefl ha, h.isWeakOrderOn.irrefl ha⟩

include hb

theorem beq_comm : (a == b) = (b == a) := by
  rw [Bool.eq_iff_iff, h.beq_iff a ha b hb, h.beq_iff b hb a ha, and_comm]

/-- Of two levels neither is the other. -/
theorem beq_eq_false_of_lt (hlt : a < b) : (a == b) = false := by
  rw [← Bool.not_eq_true, h.beq_iff a ha b hb]
  exact fun htie => htie.1 hlt

/-- A level is above what ties with a lower one. -/
theorem lt_of_beq_of_lt (hc : c ∈ values) (hab : (a == b) = true) (hbc : b < c) : a < c :=
  h.isWeakOrderOn.of_tie_of_lt ha hb hc ((h.beq_iff a ha b hb).1 hab).2 hbc

/-- What ties with a level is above all that is below the level. -/
theorem lt_of_lt_of_beq (hc : c ∈ values) (hab : a < b) (hbc : (b == c) = true) : a < c :=
  h.isWeakOrderOn.of_lt_of_tie ha hb hc hab ((h.beq_iff b hb c hc).1 hbc).2

/-- Two values that tie with a level tie with the same values. -/
theorem beq_congr (hc : c ∈ values) (hab : (a == b) = true) : (c == a) = (c == b) := by
  have htrans : ∀ {x y}, x ∈ values → y ∈ values → (x == y) = true → (c == x) = true →
      (c == y) = true := by
    intro x y hx hy hxy hcx
    obtain ⟨hxy₁, hxy₂⟩ := (h.beq_iff x hx y hy).1 hxy
    obtain ⟨hcx₁, hcx₂⟩ := (h.beq_iff c hc x hx).1 hcx
    refine (h.beq_iff c hc y hy).2 ⟨?_, ?_⟩
    · exact h.isWeakOrderOn.not_trans c hc x hx y hy hcx₁ hxy₁
    · exact h.isWeakOrderOn.not_trans y hy x hx c hc hxy₂ hcx₂
  rw [Bool.eq_iff_iff]
  exact ⟨htrans ha hb hab, htrans hb ha (h.beq_comm ha hb ▸ hab)⟩

end FormLevels

/-! ## Counting energies -/

/-- The levels, the highest first, of a list of energies: each is one of the energies, with the
number of those that tie with it, and every energy is on one of them. -/
structure CountsLevels (levels : List (α × ℕ)) (energies : List α) : Prop where
  descending : levels.Pairwise fun a b => b.1 < a.1
  mem : ∀ level ∈ levels, level.1 ∈ energies
  count_eq : ∀ level ∈ levels, level.2 = energies.countP (· == level.1)
  exists_level : ∀ e ∈ energies, ∃ level ∈ levels, (e == level.1) = true
  sum_counts : (levels.map (·.2)).sum = energies.length

namespace CountsLevels

variable {levels : List (α × ℕ)} {energies : List α} {values : Set α}

/-- The order of the energies does not matter. -/
theorem perm (h : CountsLevels levels energies) {energies' : List α}
    (hperm : energies.Perm energies') : CountsLevels levels energies' where
  descending := h.descending
  mem level hlevel := hperm.mem_iff.1 (h.mem level hlevel)
  count_eq level hlevel := (h.count_eq level hlevel).trans (hperm.countP_eq _)
  exists_level e he := h.exists_level e (hperm.mem_iff.2 he)
  sum_counts := h.sum_counts.trans hperm.length_eq

section Steps

variable (hvalues : FormLevels values) (henergies : ∀ e ∈ energies, e ∈ values) {x : α}
  (hx : x ∈ values)

include hvalues henergies hx

/-- An energy on the first level raises its number. -/
theorem raise {top : α} {count : ℕ} {lower : List (α × ℕ)}
    (h : CountsLevels ((top, count) :: lower) energies) (htop : (top == x) = true) :
    CountsLevels ((top, count + 1) :: lower) (energies ++ [x]) := by
  obtain ⟨hbelow, hlower⟩ := List.pairwise_cons.1 h.descending
  obtain ⟨hmem, hmems⟩ := List.forall_mem_cons.1 h.mem
  obtain ⟨hcount, hcounts⟩ := List.forall_mem_cons.1 h.count_eq
  have htop' : top ∈ values := henergies top hmem
  have hxtop : (x == top) = true := by rw [hvalues.beq_comm hx htop', htop]
  refine ⟨List.pairwise_cons.2 ⟨hbelow, hlower⟩, ?_, ?_, fun e he => ?_, ?_⟩
  · exact List.forall_mem_cons.2 ⟨List.mem_append_left _ hmem,
      fun level hlevel => List.mem_append_left _ (hmems level hlevel)⟩
  · refine List.forall_mem_cons.2 ⟨?_, fun level hlevel => ?_⟩
    · rw [List.countP_append, List.countP_singleton, if_pos hxtop, ← hcount]
    · have hlt := hvalues.lt_of_lt_of_beq (henergies _ (hmems level hlevel)) htop' hx
        (hbelow level hlevel) htop
      have hnot : (x == level.1) = false := by
        rw [hvalues.beq_comm hx (henergies _ (hmems level hlevel))]
        exact hvalues.beq_eq_false_of_lt (henergies _ (hmems level hlevel)) hx hlt
      rw [List.countP_append, List.countP_singleton, hnot, ← hcounts level hlevel]
      rfl
  · rcases List.mem_append.1 he with he | he
    · obtain ⟨level, hlevel, htie⟩ := h.exists_level e he
      rcases List.mem_cons.1 hlevel with rfl | hlevel
      · exact ⟨_, List.mem_cons_self, htie⟩
      · exact ⟨level, List.mem_cons_of_mem _ hlevel, htie⟩
    · rw [List.mem_singleton.1 he]
      exact ⟨_, List.mem_cons_self, hxtop⟩
  · have hsum := h.sum_counts
    rw [List.map_cons, List.sum_cons] at hsum ⊢
    rw [List.length_append, ← hsum, List.length_singleton]
    exact Nat.add_right_comm count 1 _

/-- An energy above all levels is a new level. -/
theorem add (h : CountsLevels levels energies) (hlt : ∀ level ∈ levels, level.1 < x) :
    CountsLevels ((x, 1) :: levels) (energies ++ [x]) := by
  have hnone : energies.countP (· == x) = 0 := by
    refine List.countP_eq_zero.2 fun e he htie => ?_
    obtain ⟨level, hlevel, hon⟩ := h.exists_level e he
    have hvalue := henergies _ (h.mem level hlevel)
    have hlt' := hvalues.lt_of_beq_of_lt (henergies e he) hvalue hx hon (hlt level hlevel)
    rw [hvalues.beq_eq_false_of_lt (henergies e he) hx hlt'] at htie
    cases htie
  refine ⟨List.pairwise_cons.2 ⟨hlt, h.descending⟩, ?_, ?_, fun e he => ?_, ?_⟩
  · exact List.forall_mem_cons.2 ⟨List.mem_append_right _ List.mem_cons_self,
      fun level hlevel => List.mem_append_left _ (h.mem level hlevel)⟩
  · refine List.forall_mem_cons.2 ⟨?_, fun level hlevel => ?_⟩
    · rw [List.countP_append, List.countP_singleton, if_pos (hvalues.beq_self hx), hnone]
    · have hvalue := henergies _ (h.mem level hlevel)
      have hnot : (x == level.1) = false := by
        rw [hvalues.beq_comm hx hvalue]
        exact hvalues.beq_eq_false_of_lt hvalue hx (hlt level hlevel)
      rw [List.countP_append, List.countP_singleton, hnot, ← h.count_eq level hlevel]
      rfl
  · rcases List.mem_append.1 he with he | he
    · obtain ⟨level, hlevel, htie⟩ := h.exists_level e he
      exact ⟨level, List.mem_cons_of_mem _ hlevel, htie⟩
    · rw [List.mem_singleton.1 he]
      exact ⟨_, List.mem_cons_self, hvalues.beq_self hx⟩
  · rw [List.map_cons, List.sum_cons, h.sum_counts, List.length_append, List.length_singleton]
    exact Nat.add_comm 1 _

/-- One energy more, none of the others being above it. -/
theorem addToLevels (h : CountsLevels levels energies) (hmax : ∀ e ∈ energies, ¬ x < e) :
    CountsLevels (DanglingBonds.addToLevels levels x) (energies ++ [x]) := by
  cases levels with
  | nil => exact h.add hvalues henergies hx fun level hlevel => absurd hlevel List.not_mem_nil
  | cons level lower =>
    obtain ⟨top, count⟩ := level
    rw [DanglingBonds.addToLevels]
    split
    · rename_i htop
      exact h.raise hvalues henergies hx htop
    · rename_i hne
      have hmem := h.mem _ List.mem_cons_self
      have htop : top < x := by
        by_contra hnot
        exact hne ((hvalues.beq_iff top (henergies top hmem) x hx).2 ⟨hnot, hmax top hmem⟩)
      refine h.add hvalues henergies hx (List.forall_mem_cons.2 ⟨htop, fun level hlevel => ?_⟩)
      have hlevel' := henergies _ (h.mem level (List.mem_cons_of_mem _ hlevel))
      exact hvalues.isWeakOrderOn.trans hlevel' (henergies top hmem) hx
        ((List.pairwise_cons.1 h.descending).1 level hlevel) htop

end Steps

/-- Counting an ascending list of energies. -/
theorem foldl (hvalues : FormLevels values) (henergies : ∀ e ∈ energies, e ∈ values)
    (h : energies.Pairwise fun a b => ¬ b < a) :
    CountsLevels (energies.foldl DanglingBonds.addToLevels []) energies := by
  induction energies using List.reverseRecOn with
  | nil =>
    exact ⟨List.Pairwise.nil, by simp, by simp, by simp, rfl⟩
  | append_singleton energies x ih =>
    obtain ⟨hinit, -, hmax⟩ := List.pairwise_append.1 h
    obtain ⟨hmems, hx⟩ := List.forall_mem_append.1 henergies
    rw [List.foldl_append]
    exact (ih hmems hinit).addToLevels hvalues hmems (hx x List.mem_cons_self)
      fun e he => hmax e he x List.mem_cons_self

end CountsLevels

/-! ## The levels of a list of energies -/

namespace Spectrum

variable {energies : List α}

/-- **The levels** of a list of energies count it. -/
theorem countsLevels_ofRounded (h : FormLevels {e | e ∈ energies}) :
    CountsLevels (ofRounded energies).levels.reverse energies := by
  have hsorted : (sortBy (fun a b => decide (a < b)) energies).Pairwise fun a b => ¬ b < a := by
    refine pairwise_sortBy_of_isWeakOrderOn (fun a b => decide_eq_true_iff) ?_
    exact h.isWeakOrderOn.comap fun e he => mem_sortBy.1 he
  rw [ofRounded, List.reverse_reverse]
  exact (CountsLevels.foldl h (fun e he => mem_sortBy.1 he) hsorted).perm perm_sortBy

/-- Two spectra with the same levels: energies that compare as equal, with the same numbers of
states. -/
def SameLevels (s s' : Spectrum α) : Prop :=
  List.Forall₂ (fun a b => (a.1 == b.1) = true ∧ a.2 = b.2) s.levels s'.levels

/-- Where only equal energies compare as equal, such spectra are equal. -/
theorem SameLevels.eq {s s' : Spectrum α} (h : s.SameLevels s')
    (heq : ∀ a b : α, (a == b) = true → a = b) : s = s' := by
  have hsame : List.Forall₂ (· = ·) s.levels s'.levels :=
    h.imp fun a b hab => Prod.ext (heq _ _ hab.1) hab.2
  rw [List.forall₂_eq_eq_eq] at hsame
  cases s
  exact congrArg Spectrum.mk hsame

/-- **The order of the energies** does not matter to their levels. -/
theorem sameLevels_of_perm (h : FormLevels {e | e ∈ energies}) {energies' : List α}
    (hperm : energies'.Perm energies) : (ofRounded energies').SameLevels (ofRounded energies) := by
  have h' : FormLevels {e | e ∈ energies'} := h.mono fun e he => hperm.mem_iff.1 he
  have hcounts := countsLevels_ofRounded h
  have hcounts' := (countsLevels_ofRounded h').perm hperm
  obtain ⟨rank, hrank⟩ := h.isWeakOrderOn.exists_rank
  have htie : ∀ a ∈ energies, ∀ b ∈ energies, (a == b) = true ↔ rank a = rank b := by
    intro a ha b hb
    rw [h.beq_iff a ha b hb, hrank a ha b hb, hrank b hb a ha]
    omega
  -- the levels of either list have the ranks of all energies, in descending order
  have hranks : ∀ {levels : List (α × ℕ)}, CountsLevels levels energies →
      (levels.map fun level => rank level.1).Pairwise (· > ·) ∧
        ∀ k, k ∈ levels.map (fun level => rank level.1) ↔ ∃ e ∈ energies, rank e = k := by
    intro levels hlevels
    refine ⟨List.pairwise_map.2 (hlevels.descending.imp_of_mem fun ha hb hlt => ?_), fun k => ?_⟩
    · exact (hrank _ (hlevels.mem _ hb) _ (hlevels.mem _ ha)).1 hlt
    · rw [List.mem_map]
      constructor
      · rintro ⟨level, hlevel, rfl⟩
        exact ⟨level.1, hlevels.mem level hlevel, rfl⟩
      · rintro ⟨e, he, rfl⟩
        obtain ⟨level, hlevel, hon⟩ := hlevels.exists_level e he
        exact ⟨level, hlevel, ((htie e he _ (hlevels.mem level hlevel)).1 hon).symm⟩
  obtain ⟨hordered, hmem⟩ := hranks hcounts
  obtain ⟨hordered', hmem'⟩ := hranks hcounts'
  have heq : (ofRounded energies').levels.reverse.map (fun level => rank level.1)
      = (ofRounded energies).levels.reverse.map fun level => rank level.1 :=
    List.Pairwise.eq_of_mem_iff hordered' hordered fun k => (hmem' k).trans (hmem k).symm
  rw [List.map_reverse, List.map_reverse, List.reverse_inj] at heq
  refine List.forall₂_iff_get.2 ⟨by simpa using congrArg List.length heq, fun i hi hi' => ?_⟩
  have hlevel' := List.mem_reverse.2 (List.get_mem (ofRounded energies').levels ⟨i, hi⟩)
  have hlevel := List.mem_reverse.2 (List.get_mem (ofRounded energies).levels ⟨i, hi'⟩)
  have hon : ((ofRounded energies').levels.get ⟨i, hi⟩).1
      == ((ofRounded energies).levels.get ⟨i, hi'⟩).1 := by
    rw [htie _ (hcounts'.mem _ hlevel') _ (hcounts.mem _ hlevel)]
    have hget := List.getElem_of_eq heq (i := i) (by simpa using hi)
    simpa using hget
  refine ⟨hon, ?_⟩
  rw [hcounts'.count_eq _ hlevel', hcounts.count_eq _ hlevel]
  refine List.countP_congr fun e he => ?_
  rw [h.beq_congr (hcounts'.mem _ hlevel') (hcounts.mem _ hlevel) he hon]

/-- **The lowest level** of energies is one of them that no other is below, and the degeneracy is
the number of those that tie with it. -/
theorem exists_ground?_eq_some (h : FormLevels {e | e ∈ energies}) (hne : energies ≠ []) :
    ∃ e, (ofRounded energies).ground? = some e ∧ e ∈ energies ∧ (∀ e' ∈ energies, ¬ e' < e) ∧
      (ofRounded energies).degeneracy = energies.countP (· == e) := by
  have hcounts := countsLevels_ofRounded h
  have hordered := List.pairwise_reverse.1 hcounts.descending
  have hmem : ∀ level ∈ (ofRounded energies).levels, level.1 ∈ energies :=
    fun level hlevel => hcounts.mem level (List.mem_reverse.2 hlevel)
  rw [ground?, degeneracy]
  cases hlevels : (ofRounded energies).levels with
  | nil =>
    obtain ⟨e, he⟩ := List.exists_mem_of_ne_nil _ hne
    obtain ⟨level, hlevel, -⟩ := hcounts.exists_level e he
    rw [hlevels] at hlevel
    exact absurd hlevel List.not_mem_nil
  | cons level higher =>
    rw [hlevels] at hordered hmem
    refine ⟨level.1, rfl, hmem level List.mem_cons_self, fun e he hlt => ?_, ?_⟩
    · obtain ⟨level', hlevel', hon⟩ := hcounts.exists_level e he
      rw [List.mem_reverse, hlevels] at hlevel'
      have hbelow := hmem level List.mem_cons_self
      rcases List.mem_cons.1 hlevel' with rfl | hhigher
      · exact ((h.beq_iff e he _ hbelow).1 hon).1 hlt
      · -- the energy is on a higher level
        have habove := (List.pairwise_cons.1 hordered).1 level' hhigher
        have hvalue := hmem level' hlevel'
        rw [h.beq_comm he hvalue] at hon
        exact h.isWeakOrderOn.asymm e he _ hbelow hlt
          (h.lt_of_lt_of_beq hbelow hvalue he habove hon)
    · exact hcounts.count_eq level (List.mem_reverse.2 (hlevels ▸ List.mem_cons_self))

end Spectrum

/-! ## Ground states -/

namespace Simulation

variable {n : ℕ} {r : Simulation α n}

/-- The rounded energies of the distributions. -/
def roundedEnergies (r : Simulation α n) : List α :=
  r.energies.map roundEnergy

/-- The levels of a simulation are those of its rounded energies. -/
theorem spectrum_eq_ofRounded (r : Simulation α n) : r.spectrum = .ofRounded r.roundedEnergies :=
  rfl

theorem roundedEnergies_eq_map (r : Simulation α n) :
    r.roundedEnergies = r.distributions.map fun s => roundEnergy s.energy :=
  List.map_map

theorem mem_roundedEnergies {s : Surface α n} (hs : s ∈ r.distributions) :
    roundEnergy s.energy ∈ r.roundedEnergies := by
  rw [roundedEnergies_eq_map]
  exact List.mem_map_of_mem hs

/-- No distribution has less energy, as rounded. -/
def isLowest (r : Simulation α n) (s : Surface α n) : Bool :=
  r.distributions.all fun s' => !decide (roundEnergy s'.energy < roundEnergy s.energy)

theorem isLowest_iff {s : Surface α n} :
    r.isLowest s = true ↔
      ∀ s' ∈ r.distributions, ¬ roundEnergy s'.energy < roundEnergy s.energy := by
  simp only [isLowest, List.all_eq_true, Bool.not_eq_true', decide_eq_false_iff_not]

section Comparable

variable (h : FormLevels {e | e ∈ r.roundedEnergies})

include h

/-- The distributions on the lowest level are those that no other is below. -/
theorem exists_ground?_spectrum (hne : r.distributions ≠ []) :
    ∃ e, r.spectrum.ground? = some e ∧
      (∀ s ∈ r.distributions, (roundEnergy s.energy == e) = r.isLowest s) ∧
      r.spectrum.degeneracy = r.distributions.countP fun s => roundEnergy s.energy == e := by
  have hne' : r.roundedEnergies ≠ [] := by
    rw [roundedEnergies_eq_map]
    exact fun hnil => hne (List.map_eq_nil_iff.1 hnil)
  obtain ⟨e, hground, he, hleast, hcount⟩ := Spectrum.exists_ground?_eq_some h hne'
  refine ⟨e, hground, fun s hs => ?_, ?_⟩
  · have hs' := mem_roundedEnergies hs
    rw [Bool.eq_iff_iff, h.beq_iff _ hs' e he, isLowest_iff, and_iff_right (hleast _ hs')]
    constructor
    · intro hnot s' hmem
      have hmem' := mem_roundedEnergies hmem
      exact h.isWeakOrderOn.not_trans _ hmem' e he _ hs' (hleast _ hmem') hnot
    · intro hlowest
      rw [roundedEnergies_eq_map] at he
      obtain ⟨s', hs', rfl⟩ := List.mem_map.1 he
      exact hlowest s' hs'
  · rw [spectrum_eq_ofRounded, hcount, roundedEnergies_eq_map, List.countP_map]
    rfl

/-- **The ground states** are the distributions that no other is below. -/
theorem groundStates_eq_filter : r.groundStates = r.distributions.filter r.isLowest := by
  by_cases hnil : r.distributions = []
  · rw [groundStates, hnil, List.filter_nil]
    cases r.spectrum.ground? with
    | none => rfl
    | some e => rfl
  · obtain ⟨e, hground, hlowest, -⟩ := exists_ground?_spectrum h hnil
    rw [groundStates, hground]
    exact List.filter_congr hlowest

/-- The degeneracy is their number. -/
theorem length_groundStates : r.groundStates.length = r.spectrum.degeneracy := by
  by_cases hnil : r.distributions = []
  · rw [groundStates_eq_filter h, hnil, spectrum_eq_ofRounded, roundedEnergies_eq_map, hnil]
    rfl
  · obtain ⟨e, -, hlowest, hcount⟩ := exists_ground?_spectrum h hnil
    rw [groundStates_eq_filter h, hcount, List.countP_eq_length_filter, List.filter_congr hlowest]

/-- **The ground state** is the first of them. -/
theorem groundState?_eq_head? : r.groundState? = r.groundStates.head? := by
  by_cases hnil : r.distributions = []
  · rw [groundStates_eq_filter h, groundState?, hnil]
    rfl
  · have hweak : IsWeakOrderOn {s | s ∈ r.distributions}
        fun a b : Surface α n => roundEnergy a.energy < roundEnergy b.energy :=
      h.isWeakOrderOn.comap fun s hs => mem_roundedEnergies hs
    have hlt : ∀ a b : Surface α n, decide (roundEnergy a.energy < roundEnergy b.energy) = true
        ↔ roundEnergy a.energy < roundEnergy b.energy := fun a b => decide_eq_true_iff
    obtain ⟨before, s, after, heq, hmin, hbefore, hafter⟩ :=
      exists_firstMin_of_isWeakOrderOn hlt hweak hnil
    have hs : s ∈ r.distributions := heq ▸ List.mem_append_right _ List.mem_cons_self
    -- what stands before the first minimum is not lowest, for the minimum is below it
    have hskip : before.filter r.isLowest = [] := by
      refine List.filter_eq_nil_iff.2 fun s' hs' hlowest => ?_
      exact isLowest_iff.1 hlowest s hs (hbefore s' hs')
    have hlowest : r.isLowest s = true := by
      rw [isLowest_iff, heq]
      refine List.forall_mem_append.2 ⟨fun s' hs' => ?_, List.forall_mem_cons.2 ⟨?_, hafter⟩⟩
      · exact hweak.asymm s hs s' (heq ▸ List.mem_append_left _ hs') (hbefore s' hs')
      · exact hweak.irrefl hs
    rw [groundStates_eq_filter h, groundState?, hmin, heq, List.filter_append, hskip,
      List.nil_append, List.filter_cons_of_pos hlowest]
    rfl

end Comparable

end Simulation

end DanglingBonds
