/-
# Zero kelvin

At zero kelvin the states of least energy have weight one and all others none. So the probability of
an erroneous state is the share of the erroneous ones among the states of least energy: a verdict,
zero or one, exactly if these states are all read alike. If they are not, the probability lies
strictly between. An excited level never has any weight.

* `erroneousProbability_zero_eq_share` : the share.
* `share_eq_zero_iff`, `share_eq_one_iff` : when it is zero, and when one.
* `excitedProbability_zero` : no excited level is occupied.
* `zeroKelvin_isVerdict_iff` : when the probabilities are verdicts.
* `zeroKelvin_tied` : two states of least energy that are read differently.
-/
import Mathlib
import DanglingBonds.Proofs.LevelOccupation

namespace DanglingBonds

/-! ## States of least energy -/

/-- The states of a list that have a given energy. -/
noncomputable def statesAt (states : List (StateEnergy ℝ)) (energy : ℝ) :
    List (StateEnergy ℝ) :=
  states.filter fun s => decide (s.energy = energy)

section States

variable {states : List (StateEnergy ℝ)} {s : StateEnergy ℝ} (hs : IsLeastState states s)

include hs

/-- The states that have as much energy as one of least energy are those of least energy. -/
theorem mem_statesAt_iff {t : StateEnergy ℝ} :
    t ∈ statesAt states s.energy ↔ IsLeastState states t := by
  rw [statesAt, List.mem_filter, decide_eq_true_iff]
  constructor
  · rintro ⟨ht, heq⟩
    exact ⟨ht, fun t' ht' => heq ▸ hs.2 t' ht'⟩
  · exact fun ht => ⟨ht.1, le_antisymm (ht.2 s hs.1) (hs.2 t ht.1)⟩

theorem length_statesAt_pos : 0 < (statesAt states s.energy).length :=
  List.length_pos_of_mem ((mem_statesAt_iff hs).2 hs)

/-- **The probability at zero kelvin** is the share of the erroneous states among those of least
energy. -/
theorem erroneousProbability_zero_eq_share :
    erroneousProbability states 0 = .ok
      (((statesAt states s.energy).countP fun t => !t.transparent : ℕ)
        / ((statesAt states s.energy).length : ℕ)) := by
  rw [erroneousProbability_zero hs, statesAt, List.countP_filter, ← List.countP_eq_length_filter]

/-- It is zero if all states of least energy are transparent. -/
theorem share_eq_zero_iff :
    ((((statesAt states s.energy).countP fun t => !t.transparent : ℕ) : ℝ)
        / ((statesAt states s.energy).length : ℕ)) = 0 ↔
      ∀ t, IsLeastState states t → t.transparent = true := by
  have hlength : ((statesAt states s.energy).length : ℝ) ≠ 0 :=
    Nat.cast_ne_zero.2 (length_statesAt_pos hs).ne'
  rw [div_eq_zero_iff, or_iff_left hlength, Nat.cast_eq_zero, List.countP_eq_zero]
  simp only [mem_statesAt_iff hs, Bool.not_eq_true', Bool.not_eq_false]

/-- It is one if all states of least energy are erroneous. -/
theorem share_eq_one_iff :
    ((((statesAt states s.energy).countP fun t => !t.transparent : ℕ) : ℝ)
        / ((statesAt states s.energy).length : ℕ)) = 1 ↔
      ∀ t, IsLeastState states t → t.transparent = false := by
  have hlength : ((statesAt states s.energy).length : ℝ) ≠ 0 :=
    Nat.cast_ne_zero.2 (length_statesAt_pos hs).ne'
  rw [div_eq_one_iff_eq hlength, Nat.cast_inj, List.countP_eq_length]
  simp only [mem_statesAt_iff hs, Bool.not_eq_true']

end States

/-! ## Excited levels -/

/-- At zero kelvin no level above the ground state has weight. -/
theorem Spectrum.excitedWeight_zero (s : Spectrum ℝ) (ground : ℝ) :
    s.excitedWeight ground 0 = 0 := by
  rw [excitedWeight]
  induction s.levels with
  | nil => rfl
  | cons level levels ih =>
    have hstep : (if ground < level.1 then 0 + levelWeight ground 0 level else 0) = 0 := by
      split
      · rename_i hlt
        have hweight : (boltzmannFactor (level.1 - ground) 0 : ℝ) = 0 :=
          weight_at_zero (E := Real.exp) (sub_pos.2 hlt)
        rw [levelWeight, hweight, mul_zero, add_zero]
      · rfl
    rw [List.foldl_cons, hstep, ih]

/-- **No excited level is occupied** at zero kelvin. -/
theorem excitedProbability_zero (s : Spectrum ℝ) : excitedProbability s 0 = .ok 0 := by
  have htemperature : (checkTemperature 0 : Except (SetupError ℝ) Unit) = .ok () :=
    if_pos (decide_eq_true le_rfl)
  cases hground : s.ground? with
  | none => exact excitedProbability_of_ground?_eq_none htemperature hground
  | some ground =>
    rw [excitedProbability_eq_div htemperature hground, s.excitedWeight_zero, zero_div]

/-! ## The verdict -/

/-- **When zero kelvin gives a verdict.** The probability of an erroneous state at zero kelvin is a
number from zero to one. It is zero exactly if all states of least energy are transparent, and one
exactly if there are states and all those of least energy are erroneous; so it is one of the two
exactly if no two states of least energy are read differently. The probability of an excited level
is zero for any levels. -/
theorem zeroKelvin_isVerdict_iff (states : List (StateEnergy ℝ)) (levels : Spectrum ℝ) :
    (∃ p, erroneousProbability states 0 = .ok p ∧ 0 ≤ p ∧ p ≤ 1 ∧
      (p = 0 ↔ ∀ s, IsLeastState states s → s.transparent = true) ∧
      (p = 1 ↔ states ≠ [] ∧ ∀ s, IsLeastState states s → s.transparent = false) ∧
      (p = 0 ∨ p = 1 ↔ ∀ s s', IsLeastState states s → IsLeastState states s' →
        s.transparent = s'.transparent)) ∧
    excitedProbability levels 0 = .ok 0 := by
  refine ⟨?_, excitedProbability_zero levels⟩
  by_cases hnil : states = []
  · have hnone : ∀ s, ¬ IsLeastState states s := fun s hs => by
      rw [hnil] at hs
      exact List.not_mem_nil hs.1
    refine ⟨0, ?_, le_rfl, zero_le_one, iff_of_true rfl fun s hs => absurd hs (hnone s),
      iff_of_false zero_ne_one fun h => h.1 hnil,
      iff_of_true (.inl rfl) fun s _ hs => absurd hs (hnone s)⟩
    rw [hnil]
    exact erroneousProbability_nil (if_pos (decide_eq_true le_rfl))
  · obtain ⟨s, hs⟩ := exists_isLeastState hnil
    have hzero := share_eq_zero_iff hs
    have hone := share_eq_one_iff hs
    have hle : ((statesAt states s.energy).countP fun t => !t.transparent)
        ≤ (statesAt states s.energy).length := List.countP_le_length
    refine ⟨_, erroneousProbability_zero_eq_share hs, by positivity,
      div_le_one_of_le₀ (Nat.cast_le.2 hle) (Nat.cast_nonneg _), hzero,
      hone.trans (and_iff_right hnil).symm, ?_⟩
    rw [hzero, hone]
    constructor
    · rintro (htransparent | herroneous) t t' ht ht'
      · rw [htransparent t ht, htransparent t' ht']
      · rw [herroneous t ht, herroneous t' ht']
    · intro halike
      cases hread : s.transparent with
      | true => exact .inl fun t ht => (halike t s ht hs).trans hread
      | false => exact .inr fun t ht => (halike t s ht hs).trans hread

/-- Two states of the same energy, one transparent and one erroneous: at zero kelvin the
probability of an erroneous state is neither zero nor one. -/
theorem zeroKelvin_tied :
    ¬ ∀ states : List (StateEnergy ℝ),
      ∃ p, erroneousProbability states 0 = .ok p ∧ (p = 0 ∨ p = 1) := by
  intro h
  obtain ⟨p, hp, hverdict⟩ := h [⟨0, true⟩, ⟨0, false⟩]
  have hs : IsLeastState [⟨0, true⟩, ⟨0, false⟩] ⟨0, true⟩ := by
    refine ⟨List.mem_cons_self, fun s hs => ?_⟩
    rcases List.mem_pair.1 hs with rfl | rfl
    · exact le_rfl
    · exact le_rfl
  have hs' : IsLeastState [⟨0, true⟩, ⟨0, false⟩] ⟨0, false⟩ :=
    ⟨List.mem_cons_of_mem _ List.mem_cons_self, hs.2⟩
  rw [erroneousProbability_zero_eq_share hs, Except.ok.injEq] at hp
  subst hp
  rcases hverdict with hzero | hone
  · cases (share_eq_zero_iff hs).1 hzero _ hs'
  · cases (share_eq_one_iff hs).1 hone _ hs

end DanglingBonds
