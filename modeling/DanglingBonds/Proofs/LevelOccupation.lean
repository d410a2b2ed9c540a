/-
# Occupation by levels and by states

The probability of an excited state adds up the levels of a list of energies, each weighted by its
number of states; the probability of an erroneous state adds up the states one after the other. If
the states of least energy are the transparent ones, both are the share of all that lies above the
ground state. Only that share changes with the temperature: a ground state has weight one at every
temperature, an excited state has none at zero kelvin and never less when it gets warmer.

* `Spectrum.sum_levels_ofRounded` : a weighted sum over levels is a sum over energies.
* `taggedStates` : the states of a list of energies, transparent if their energy is least.
* `excitedProbability_eq_erroneousProbability` : both probabilities agree.
* `excitedProbability_of_pos` : the probability in Boltzmann factors.
* `weight_mono`, `IsGroundTagged.erroneousShare_mono` : what a higher temperature does.
* `excitedProbability_agrees` : the common value at all temperatures.
-/
import Mathlib
import DanglingBonds.Proofs.OccupationProbability

namespace DanglingBonds

/-! ## Levels and states -/

section Levels

variable {α : Type} [Scalar α]

/-- The weight of a level, relative to an energy: that of one of its states, times their number. -/
def levelWeight (ground t : α) (level : α × ℕ) : α :=
  Scalar.ofNat level.2 * boltzmannFactor (level.1 - ground) t

namespace Spectrum

/-- The weight of all levels. -/
def partitionFunction (s : Spectrum α) (ground t : α) : α :=
  s.levels.foldl (fun z level => z + levelWeight ground t level) 0

/-- The weight of the levels above an energy. -/
def excitedWeight (s : Spectrum α) (ground t : α) : α :=
  s.levels.foldl (fun z level => if ground < level.1 then z + levelWeight ground t level else z) 0

end Spectrum

/-- The probability is a share of the weight of all levels. -/
theorem excitedProbability_eq_div {s : Spectrum α} {ground t : α}
    (ht : checkTemperature t = .ok ()) (hground : s.ground? = some ground) :
    excitedProbability s t = .ok (s.excitedWeight ground t / s.partitionFunction ground t) := by
  rw [excitedProbability, ht, hground]
  rfl

/-- Without levels nothing is excited, and without states nothing is erroneous. -/
theorem excitedProbability_of_ground?_eq_none {s : Spectrum α} {t : α}
    (ht : checkTemperature t = .ok ()) (hground : s.ground? = none) :
    excitedProbability s t = .ok 0 := by
  rw [excitedProbability, ht, hground]
  rfl

theorem erroneousProbability_nil {t : α} (ht : checkTemperature t = .ok ()) :
    erroneousProbability ([] : List (StateEnergy α)) t = .ok 0 := by
  rw [erroneousProbability, ht]
  rfl

/-- The states of a list of energies, after rounding. Those of least energy are transparent. -/
def taggedStates (energies : List α) : List (StateEnergy α) :=
  energies.map fun e =>
    ⟨roundEnergy e, decide (∀ e' ∈ energies, roundEnergy e ≤ roundEnergy e')⟩

end Levels

/-! ## Sums over levels -/

section Sums

variable (f : ℝ → ℝ)

/-- One energy more adds one term. -/
theorem sum_addToLevels (levels : List (ℝ × ℕ)) (e : ℝ) :
    ((addToLevels levels e).map fun level => (level.2 : ℝ) * f level.1).sum
      = (levels.map fun level => (level.2 : ℝ) * f level.1).sum + f e := by
  cases levels with
  | nil => simp [addToLevels]
  | cons level lower =>
    obtain ⟨top, count⟩ := level
    rw [addToLevels]
    split
    · rename_i htop
      rw [beq_iff_eq.1 htop]
      simp only [List.map_cons, List.sum_cons]
      push_cast
      ring
    · simp only [List.map_cons, List.sum_cons]
      push_cast
      ring

/-- **Levels stand for energies.** A sum over the levels of a list of energies, each term taken as
often as its level occurs, is the sum over the energies. -/
theorem Spectrum.sum_levels_ofRounded (energies : List ℝ) :
    ((ofRounded energies).levels.map fun level => (level.2 : ℝ) * f level.1).sum
      = (energies.map f).sum := by
  have hfold : ∀ (energies : List ℝ) (levels : List (ℝ × ℕ)),
      ((energies.foldl addToLevels levels).map fun level => (level.2 : ℝ) * f level.1).sum
        = (levels.map fun level => (level.2 : ℝ) * f level.1).sum + (energies.map f).sum := by
    intro energies
    induction energies with
    | nil => simp
    | cons e energies ih =>
      intro levels
      rw [List.foldl_cons, ih, sum_addToLevels, List.map_cons, List.sum_cons, add_assoc]
  rw [ofRounded, List.map_reverse, List.sum_reverse, hfold, List.map_nil, List.sum_nil, zero_add]
  exact (perm_sortBy.map f).sum_eq

end Sums

section Weights

variable {E : ℝ → ℝ} {t ground : ℝ} {energies : List ℝ}

/-- The weight of all levels is that of all energies. -/
theorem Spectrum.partitionFunction_eq_sum (energies : List ℝ) (ground t : ℝ) :
    @partitionFunction ℝ (exactWith E) (ofRounded energies) ground t
      = (energies.map fun e => weight E t (e - ground)).sum := by
  rw [← sum_levels_ofRounded, List.sum_eq_foldl, List.foldl_map]
  rfl

/-- The weight of the levels above an energy is that of the energies above it. -/
theorem Spectrum.excitedWeight_eq_sum (energies : List ℝ) (ground t : ℝ) :
    @excitedWeight ℝ (exactWith E) (ofRounded energies) ground t
      = (energies.map fun e => if ground < e then weight E t (e - ground) else 0).sum := by
  have hstep : (fun (z : ℝ) (level : ℝ × ℕ) =>
      if ground < level.1 then z + level.2 * weight E t (level.1 - ground) else z)
        = fun z level => z + level.2 *
            if ground < level.1 then weight E t (level.1 - ground) else 0 := by
    funext z level
    split
    · rfl
    · rw [mul_zero, add_zero]
  rw [← sum_levels_ofRounded, List.sum_eq_foldl, List.foldl_map, ← hstep]
  rfl

end Weights

/-! ## The states of least energy are transparent -/

section Tagged

variable {E : ℝ → ℝ} {t : ℝ} {energies : List ℝ}

/-- The lowest level of some energies is the energy of a tagged state of least energy. -/
theorem exists_isLeastState_taggedStates (hne : energies ≠ []) :
    ∃ s, IsLeastState (taggedStates energies) s ∧
      (Spectrum.ofEnergies energies).ground? = some s.energy ∧
      (∀ e ∈ energies, s.energy ≤ roundEnergy e) ∧ ∃ e ∈ energies, roundEnergy e = s.energy := by
  obtain ⟨ground, hground, hmem, hleast, -⟩ := Spectrum.exists_ground?_eq_some
    (formLevels_real _) (List.map_eq_nil_iff.not.2 hne : energies.map roundEnergy ≠ [])
  obtain ⟨e, he, rfl⟩ := List.mem_map.1 hmem
  have hle : ∀ e' ∈ energies, roundEnergy e ≤ roundEnergy e' := fun e' he' =>
    not_lt.1 (hleast _ (List.mem_map_of_mem he'))
  refine ⟨_, ⟨List.mem_map_of_mem he, fun s hs => ?_⟩, hground, hle, e, he, rfl⟩
  obtain ⟨e', he', rfl⟩ := List.mem_map.1 hs
  exact hle e' he'

/-- A tagged state is transparent unless its energy is above the least. -/
theorem transparent_eq_false_iff {ground e : ℝ} (hle : ∀ e ∈ energies, ground ≤ roundEnergy e)
    (hmem : ∃ e ∈ energies, roundEnergy e = ground) :
    decide (∀ e' ∈ energies, roundEnergy e ≤ roundEnergy e') = false ↔
      ground < roundEnergy e := by
  obtain ⟨e₀, he₀, rfl⟩ := hmem
  rw [decide_eq_false_iff_not, ← not_le]
  exact not_congr ⟨fun h => h e₀ he₀, fun h e' he' => h.trans (hle e' he')⟩

/-- **Levels and states.** The probability of an excited level is the probability of an erroneous
state, if the states of least energy are the transparent ones. -/
theorem excitedProbability_eq_erroneousProbability (ht : 0 ≤ t) (energies : List ℝ) :
    @excitedProbability ℝ (exactWith E) (.ofEnergies energies) t
      = @erroneousProbability ℝ (exactWith E) (taggedStates energies) t := by
  by_cases hnil : energies = []
  · rw [hnil]
    rfl
  · obtain ⟨s, hs, hground, hle, hmem⟩ := exists_isLeastState_taggedStates hnil
    have htemperature : @checkTemperature ℝ (exactWith E) t = .ok () :=
      if_pos (decide_eq_true ht)
    rw [erroneousProbability_of_isLeastState ht hs]
    refine (@excitedProbability_eq_div ℝ (exactWith E) _ _ t htemperature hground).trans ?_
    -- numerators and denominators agree, term by term over the rounded energies
    refine congrArg Except.ok (congrArg₂ _ ?_ ?_)
    · refine (Spectrum.excitedWeight_eq_sum _ s.energy t).trans ?_
      rw [erroneousWeight_eq_sum, taggedStates, List.map_map, List.map_map]
      refine congrArg List.sum (List.map_congr_left fun e _ => ?_)
      have htag := transparent_eq_false_iff (e := e) hle hmem
      by_cases hlt : s.energy < roundEnergy e
      · simp only [Function.comp_apply, if_pos hlt, htag.2 hlt, Bool.false_eq_true, if_false]
      · have htransparent := Bool.eq_true_of_not_eq_false (htag.not.2 hlt)
        simp only [Function.comp_apply, if_neg hlt, htransparent, if_true]
    · refine (Spectrum.partitionFunction_eq_sum _ s.energy t).trans ?_
      rw [partitionFunction_eq_sum, taggedStates, List.map_map, List.map_map]
      rfl

/-- The probability of an excited level above zero kelvin, in Boltzmann factors. -/
theorem excitedProbability_of_pos (ht : 0 < t) (hne : energies ≠ []) :
    ∃ ground, (Spectrum.ofEnergies energies).ground? = some ground ∧
      @excitedProbability ℝ (exactWith E) (.ofEnergies energies) t = .ok
        (((energies.map roundEnergy).map fun e =>
            if ground < e then E (-(e - ground) / (boltzmannConstant * t)) else 0).sum
          / ((energies.map roundEnergy).map fun e =>
            E (-(e - ground) / (boltzmannConstant * t))).sum) := by
  obtain ⟨s, -, hground, -⟩ := exists_isLeastState_taggedStates hne
  have htemperature : @checkTemperature ℝ (exactWith E) t = .ok () :=
    if_pos (decide_eq_true ht.le)
  refine ⟨s.energy, hground,
    (@excitedProbability_eq_div ℝ (exactWith E) _ _ t htemperature hground).trans ?_⟩
  refine congrArg Except.ok (congrArg₂ _ ?_ ?_)
  · refine (Spectrum.excitedWeight_eq_sum _ s.energy t).trans ?_
    simp only [weight_of_pos ht]
  · refine (Spectrum.partitionFunction_eq_sum _ s.energy t).trans ?_
    simp only [weight_of_pos ht]

end Tagged

/-! ## Temperature -/

section Temperature

variable {E : ℝ → ℝ} {t t' : ℝ} {states : List (StateEnergy ℝ)}

theorem boltzmannConstant_pos : (0 : ℝ) < boltzmannConstant := by
  show (0 : ℝ) < 8.617e-5
  norm_num

/-- At zero kelvin an excited state has no weight. -/
theorem weight_at_zero {excitation : ℝ} (h : 0 < excitation) : weight E 0 excitation = 0 := by
  rw [weight_eq, if_pos rfl, if_pos h]

/-- **Warmer.** An excited state has no less weight at a higher temperature. -/
theorem weight_mono (hE : IsExponential E) {excitation : ℝ} (hexcited : 0 < excitation)
    (ht : 0 ≤ t) (h : t ≤ t') : weight E t excitation ≤ weight E t' excitation := by
  rcases ht.eq_or_lt with rfl | hpos
  · rw [weight_at_zero hexcited]
    exact weight_nonneg hE t' excitation
  · rw [weight_of_pos hpos, weight_of_pos (hpos.trans_le h), neg_div, neg_div]
    refine hE.strictMono.monotone (neg_le_neg ?_)
    have hk := boltzmannConstant_pos
    gcongr

/-- States of which those at an energy are transparent, and no others. -/
def IsGroundTagged (states : List (StateEnergy ℝ)) (ground : ℝ) : Prop :=
  ∀ s ∈ states, ground ≤ s.energy ∧ (s.transparent = true ↔ s.energy = ground)

/-- The share of the states that are not transparent. -/
noncomputable def erroneousShare (E : ℝ → ℝ) (states : List (StateEnergy ℝ)) (ground t : ℝ) : ℝ :=
  @erroneousWeight ℝ (exactWith E) states ground t
    / @partitionFunction ℝ (exactWith E) states ground t

namespace IsGroundTagged

variable {ground : ℝ} (h : IsGroundTagged states ground)

include h

/-- A state that is not transparent is above the ground state. -/
theorem lt_energy {s : StateEnergy ℝ} (hs : s ∈ states) (herroneous : ¬ s.transparent = true) :
    ground < s.energy :=
  lt_of_le_of_ne (h s hs).1 fun heq => herroneous ((h s hs).2.2 heq.symm)

/-- The transparent states have the same weight at every temperature. -/
theorem partitionFunction_eq (hE : IsExponential E) (t : ℝ) :
    @partitionFunction ℝ (exactWith E) states ground t
      = states.countP (·.transparent) + @erroneousWeight ℝ (exactWith E) states ground t := by
  rw [partitionFunction_eq_sum, erroneousWeight_eq_sum]
  induction states with
  | nil => simp
  | cons s states ih =>
    obtain ⟨⟨-, hs⟩, hrest⟩ := List.forall_mem_cons.1 h
    rw [List.map_cons, List.sum_cons, List.map_cons, List.sum_cons, ih hrest, List.countP_cons]
    cases htransparent : s.transparent with
    | true =>
      rw [hs.1 htransparent, sub_self, weight_zero hE, if_pos rfl, if_pos rfl]
      push_cast
      ring
    | false =>
      simp only [Bool.false_eq_true, if_false]
      push_cast
      ring

/-- At zero kelvin only the transparent states have weight. -/
theorem erroneousWeight_zero : @erroneousWeight ℝ (exactWith E) states ground 0 = 0 := by
  rw [erroneousWeight_eq_sum]
  refine List.sum_eq_zero fun w hw => ?_
  obtain ⟨s, hs, rfl⟩ := List.mem_map.1 hw
  split
  · rfl
  · rename_i herroneous
    exact weight_at_zero (sub_pos.2 (h.lt_energy hs herroneous))

theorem erroneousWeight_mono (hE : IsExponential E) (ht : 0 ≤ t) (htt' : t ≤ t') :
    @erroneousWeight ℝ (exactWith E) states ground t
      ≤ @erroneousWeight ℝ (exactWith E) states ground t' := by
  rw [erroneousWeight_eq_sum, erroneousWeight_eq_sum]
  refine List.sum_le_sum fun s hs => ?_
  split
  · exact le_rfl
  · rename_i herroneous
    exact weight_mono hE (sub_pos.2 (h.lt_energy hs herroneous)) ht htt'

variable (hpos : 0 < states.countP (·.transparent)) (hE : IsExponential E)

include hpos hE

/-- There is a share that is transparent. -/
theorem erroneousShare_mem (t : ℝ) :
    0 ≤ erroneousShare E states ground t ∧ erroneousShare E states ground t < 1 := by
  have hwrong := erroneousWeight_nonneg hE states ground t
  have hcount : (0 : ℝ) < states.countP (·.transparent) := Nat.cast_pos.2 hpos
  rw [erroneousShare, h.partitionFunction_eq hE]
  refine ⟨by positivity, (div_lt_one (by positivity)).2 ?_⟩
  exact lt_add_of_pos_left _ hcount

/-- **The share grows with the temperature.** -/
theorem erroneousShare_mono (ht : 0 ≤ t) (htt' : t ≤ t') :
    erroneousShare E states ground t ≤ erroneousShare E states ground t' := by
  have hwrong := erroneousWeight_nonneg hE states ground t
  have hwrong' := erroneousWeight_nonneg hE states ground t'
  have hmono := h.erroneousWeight_mono hE ht htt'
  have hcount : (0 : ℝ) < states.countP (·.transparent) := Nat.cast_pos.2 hpos
  rw [erroneousShare, erroneousShare, h.partitionFunction_eq hE, h.partitionFunction_eq hE,
    div_le_div_iff₀ (by positivity) (by positivity)]
  -- both products have the product of the two weights in common
  have hscaled := mul_le_mul_of_nonneg_right hmono hcount.le
  linarith

end IsGroundTagged

end Temperature

/-! ## The common value -/

section Agreement

variable {E : ℝ → ℝ} {energies : List ℝ}

/-- The tagged states of some energies, in any order. -/
theorem isGroundTagged_of_perm {states : List (StateEnergy ℝ)}
    (hperm : states.Perm (taggedStates energies)) {s : StateEnergy ℝ}
    (hle : ∀ e ∈ energies, s.energy ≤ roundEnergy e)
    (hmem : ∃ e ∈ energies, roundEnergy e = s.energy) : IsGroundTagged states s.energy := by
  intro s' hs'
  obtain ⟨e, he, rfl⟩ := List.mem_map.1 (hperm.mem_iff.1 hs')
  have htag := transparent_eq_false_iff (e := e) hle hmem
  refine ⟨hle e he, ?_⟩
  rw [← not_iff_not, Bool.not_eq_true, htag, lt_iff_le_and_ne, ne_comm]
  exact and_iff_right (hle e he)

/-- Powers use no exponential function. -/
theorem powNat_go_exactWith (E : ℝ → ℝ) (x : ℝ) (n : ℕ) (acc : ℝ) :
    @Scalar.powNat.go ℝ (exactWith E) x n acc = Scalar.powNat.go x n acc := by
  induction n using Nat.strong_induction_on generalizing x acc with
  | _ n ih =>
    unfold Scalar.powNat.go
    by_cases hzero : n = 0
    · rw [if_pos hzero, if_pos hzero]
    · rw [if_neg hzero, if_neg hzero]
      by_cases hhalf : n / 2 = 0
      · exact (if_pos hhalf).trans (if_pos hhalf).symm
      · exact (if_neg hhalf).trans ((ih (n / 2) (by omega) _ _).trans (if_neg hhalf).symm)

/-- So energies are rounded alike in all of exact arithmetic. -/
theorem roundEnergy_exactWith (E : ℝ → ℝ) : @roundEnergy ℝ (exactWith E) = roundEnergy := by
  funext e
  unfold roundEnergy Scalar.roundToPlaces Scalar.powInt Scalar.powNat
  dsimp only
  rw [powNat_go_exactWith]
  rfl

theorem ofEnergies_exactWith (E : ℝ → ℝ) (energies : List ℝ) :
    @Spectrum.ofEnergies ℝ (exactWith E) energies = Spectrum.ofEnergies energies := by
  unfold Spectrum.ofEnergies
  rw [roundEnergy_exactWith]
  rfl

theorem taggedStates_exactWith (E : ℝ → ℝ) (energies : List ℝ) :
    @taggedStates ℝ (exactWith E) energies = taggedStates energies := by
  unfold taggedStates
  rw [roundEnergy_exactWith]

/-- **The two occupation probabilities agree.** For any exponential function and any energies, the
probability of an excited level is that of an erroneous state among the rounded energies, in
whatever order, where a state is transparent exactly if its rounded energy is the least. The value
is zero at zero kelvin, less than one at any temperature, and never falls as it gets warmer. -/
theorem excitedProbability_agrees (hE : IsExponential E) (energies : List ℝ) :
    letI := exactWith E
    ∃ p : ℝ → ℝ,
      (∀ t, 0 ≤ t → excitedProbability (.ofEnergies energies) t = .ok (p t)) ∧
      (∀ states, states.Perm (taggedStates energies) → ∀ t, 0 ≤ t →
        erroneousProbability states t = .ok (p t)) ∧
      p 0 = 0 ∧ (∀ t, 0 ≤ t → 0 ≤ p t ∧ p t < 1) ∧ MonotoneOn p (Set.Ici 0) := by
  rw [ofEnergies_exactWith, taggedStates_exactWith]
  by_cases hnil : energies = []
  · subst hnil
    have htemperature : ∀ t : ℝ, 0 ≤ t → @checkTemperature ℝ (exactWith E) t = .ok () :=
      fun t ht => if_pos (decide_eq_true ht)
    refine ⟨fun _ => 0, fun t ht => ?_, fun states hperm t ht => ?_, rfl,
      fun t _ => ⟨le_rfl, zero_lt_one⟩, fun _ _ _ _ _ => le_rfl⟩
    · exact @excitedProbability_of_ground?_eq_none ℝ (exactWith E) _ t (htemperature t ht) rfl
    · rw [hperm.eq_nil]
      exact @erroneousProbability_nil ℝ (exactWith E) t (htemperature t ht)
  · obtain ⟨s, hs, -, hle, hmem⟩ := exists_isLeastState_taggedStates hnil
    have htagged := isGroundTagged_of_perm (List.Perm.refl _) hle hmem
    have hpos : 0 < (taggedStates energies).countP (·.transparent) :=
      List.countP_pos_iff.2 ⟨s, hs.1, (htagged s hs.1).2.2 rfl⟩
    refine ⟨erroneousShare E (taggedStates energies) s.energy, fun t ht => ?_,
      fun states hperm t ht => ?_, ?_, fun t _ => htagged.erroneousShare_mem hpos hE t,
      fun t ht t' _ htt' => htagged.erroneousShare_mono hpos hE ht htt'⟩
    · refine (excitedProbability_eq_erroneousProbability ht energies).trans ?_
      exact erroneousProbability_of_isLeastState ht hs
    · obtain ⟨hpartition, herroneous⟩ := weights_perm (E := E) hperm s.energy t
      rw [erroneousProbability_of_isLeastState ht (hs.perm hperm), hpartition, herroneous]
      rfl
    · rw [erroneousShare, htagged.erroneousWeight_zero, zero_div]

/-- Two energies that round to the same value and one above them: at room temperature both
probabilities have the same value, which a higher temperature does not lower. -/
theorem excitedProbability_agrees_nearTie :
    let energies : List ℝ := [0.02, 4e-7, 0]
    IsExponential Real.exp ∧ ∃ p p', excitedProbability (.ofEnergies energies) 300 = .ok p ∧
      erroneousProbability (taggedStates energies).reverse 300 = .ok p ∧
      excitedProbability (.ofEnergies energies) 400 = .ok p' ∧ 0 ≤ p ∧ p ≤ p' ∧ p' < 1 := by
  intro energies
  obtain ⟨p, hlevels, hstates, -, hmem, hmono⟩ :=
    excitedProbability_agrees isExponential_exp energies
  have h300 : (0 : ℝ) ≤ 300 := by norm_num
  have h400 : (0 : ℝ) ≤ 400 := by norm_num
  exact ⟨isExponential_exp, p 300, p 400, hlevels 300 h300,
    hstates _ (List.reverse_perm _) 300 h300, hlevels 400 h400, (hmem 300 h300).1,
    hmono h300 h400 (by norm_num), (hmem 400 h400).2⟩

end Agreement

end DanglingBonds
