/-
# Energies are compared by their rounded values

Two energies count as equal if they agree after rounding to six decimals. Rounding is monotone and
moves an energy by half a step at most, so energies that count as equal lie within the tolerance of
each other. The converse fails: two energies on either side of a rounding boundary differ, however
near they are. So a ground state is degenerate exactly if a second energy rounds to the same value
as the least.

* `roundEnergy_eq` : rounding in closed form.
* `roundEnergy_mono`, `abs_roundEnergy_sub_le` : what rounding does to energies.
* `isDegenerate_ofEnergies_iff` : when a list of energies is degenerate.
* `degeneracy_by_rounding` : what is reported, of a list of energies and of a gate.
* `near_tie_undetected` : a tie within the tolerance that is not reported.
-/
import Mathlib
import DanglingBonds.Proofs.HeldCells

namespace DanglingBonds

/-! ## Rounding -/

/-- An energy is rounded to a multiple of a millionth of an electronvolt. -/
theorem roundEnergy_eq (e : ℝ) : roundEnergy e = Scalar.round (e * 10 ^ 6) / 10 ^ 6 := by
  have hfactor : (Scalar.powInt 10.0 (Scalar.signedPlaces energyPlaces) : ℝ) = 10 ^ 6 := by
    have hplaces : Scalar.signedPlaces energyPlaces = 6 := by decide
    rw [Scalar.powInt, hplaces, powNat_eq_pow]
    norm_num
  rw [roundEnergy, Scalar.roundToPlaces, hfactor]

/-- Greater energies are not rounded to smaller ones. -/
theorem roundEnergy_mono {e e' : ℝ} (h : e ≤ e') : roundEnergy e ≤ roundEnergy e' := by
  rw [roundEnergy_eq, roundEnergy_eq]
  have hround : (Scalar.round (e * 10 ^ 6) : ℝ) ≤ Scalar.round (e' * 10 ^ 6) :=
    round_mono (by linarith)
  gcongr

/-- Rounding moves an energy by half the tolerance at most. -/
theorem abs_roundEnergy_sub_le (e : ℝ) : |roundEnergy e - e| ≤ stabilityTolerance / 2 := by
  have hround := abs_round_sub_le (e * 10 ^ 6)
  have hscale : roundEnergy e - e = (Scalar.round (e * 10 ^ 6) - e * 10 ^ 6) / 10 ^ 6 := by
    rw [roundEnergy_eq]
    ring
  rw [hscale, abs_div, abs_of_pos (by norm_num : (0 : ℝ) < 10 ^ 6)]
  show _ ≤ (1e-6 : ℝ) / 2
  rw [div_le_iff₀ (by norm_num)]
  linarith

/-- Energies that round to the same value lie within the tolerance of each other. -/
theorem abs_sub_le_of_roundEnergy_eq {e e' : ℝ} (h : roundEnergy e = roundEnergy e') :
    |e - e'| ≤ stabilityTolerance := by
  have he := abs_le.1 (abs_roundEnergy_sub_le e)
  have he' := abs_le.1 (abs_roundEnergy_sub_le e')
  rw [abs_le]
  constructor <;> linarith [he.1, he.2, he'.1, he'.2]

/-! ## Degenerate energies -/

/-- The degeneracy of a list of energies with a least one counts those that round to the same
value. -/
theorem degeneracy_ofEnergies {energies : List ℝ} {e : ℝ} (he : e ∈ energies)
    (hle : ∀ e' ∈ energies, e ≤ e') :
    (Spectrum.ofEnergies energies).degeneracy
      = (energies.map roundEnergy).count (roundEnergy e) := by
  rw [Spectrum.ofEnergies]
  refine Spectrum.degeneracy_ofRounded (List.mem_map_of_mem he) fun x hx => ?_
  obtain ⟨e', he', rfl⟩ := List.mem_map.1 hx
  exact roundEnergy_mono (hle e' he')

/-- Two copies of the least rounded value come from two entries. -/
theorem one_lt_degeneracy_ofEnergies_iff {energies : List ℝ} {i : Fin energies.length}
    (hi : ∀ k, energies.get i ≤ energies.get k) :
    1 < (Spectrum.ofEnergies energies).degeneracy ↔ ∃ m n : Fin energies.length, m < n ∧
      roundEnergy (energies.get m) = roundEnergy (energies.get i) ∧
      roundEnergy (energies.get n) = roundEnergy (energies.get i) := by
  have hle : ∀ e ∈ energies, energies.get i ≤ e := by
    intro e he
    obtain ⟨k, rfl⟩ := List.get_of_mem he
    exact hi k
  rw [degeneracy_ofEnergies (energies.get_mem i) hle, ← Nat.succ_le_iff,
    ← List.duplicate_iff_two_le_count, List.duplicate_iff_exists_distinct_get]
  have hlength : (energies.map roundEnergy).length = energies.length := List.length_map _
  constructor
  · rintro ⟨m, n, hlt, hm, hn⟩
    exact ⟨m.cast hlength, n.cast hlength, hlt, by simpa using hm.symm, by simpa using hn.symm⟩
  · rintro ⟨m, n, hlt, hm, hn⟩
    exact ⟨m.cast hlength.symm, n.cast hlength.symm, hlt, by simpa using hm.symm,
      by simpa using hn.symm⟩

/-- **Degenerate energies.** A list of energies is degenerate exactly if a second entry rounds to
the same value as a least one. -/
theorem isDegenerate_ofEnergies_iff (energies : List ℝ) :
    (Spectrum.ofEnergies energies).isDegenerate = true ↔ ∃ i j : Fin energies.length, i ≠ j ∧
      (∀ k, energies.get i ≤ energies.get k) ∧
      roundEnergy (energies.get j) = roundEnergy (energies.get i) := by
  rw [Spectrum.isDegenerate, decide_eq_true_iff]
  constructor
  · intro h
    have hnil : energies ≠ [] := by
      rintro rfl
      exact absurd h (by decide)
    have hnonempty : Nonempty (Fin energies.length) := ⟨⟨0, List.length_pos_iff.2 hnil⟩⟩
    obtain ⟨i, hi⟩ := Finite.exists_min energies.get
    obtain ⟨m, n, hlt, hm, hn⟩ := (one_lt_degeneracy_ofEnergies_iff hi).1 h
    -- one of the two is not entry `i`
    by_cases him : i = m
    · exact ⟨i, n, him ▸ hlt.ne, hi, hn⟩
    · exact ⟨i, m, him, hi, hm⟩
  · rintro ⟨i, j, hij, hi, hround⟩
    rw [one_lt_degeneracy_ofEnergies_iff hi]
    rcases lt_or_gt_of_ne hij with hlt | hlt
    · exact ⟨i, j, hlt, rfl, hround⟩
    · exact ⟨j, i, hlt, hround, rfl⟩

/-! ## Ties that are not reported -/

/-- An energy between two boundaries is rounded to the step between them. -/
theorem roundEnergy_of_between {e : ℝ} {k : ℤ} (he : 0 ≤ e) (hlow : k - 1 / 2 ≤ e * 10 ^ 6)
    (hup : e * 10 ^ 6 < k + 1 / 2) : roundEnergy e = k / 10 ^ 6 := by
  have hround : (Scalar.round (e * 10 ^ 6) : ℝ) = k := by
    show (if 0 ≤ e * 10 ^ 6 then ((⌊e * 10 ^ 6 + 0.5⌋ : ℤ) : ℝ)
      else ((⌈e * 10 ^ 6 - 0.5⌉ : ℤ) : ℝ)) = k
    rw [if_pos (by positivity), Int.cast_inj, Int.floor_eq_iff]
    constructor <;> linarith
  rw [roundEnergy_eq, hround]

/-- Zero and energies less than half a step above it round to zero. -/
theorem roundEnergy_eq_zero {e : ℝ} (he : 0 ≤ e) (hup : e < 5e-7) : roundEnergy e = 0 := by
  rw [roundEnergy_of_between (k := 0) he (by push_cast; linarith) (by push_cast; linarith)]
  norm_num

/-- An energy more than half a step above zero is rounded up. -/
theorem roundEnergy_above_half : roundEnergy (6e-7 : ℝ) = 1e-6 := by
  rw [roundEnergy_of_between (k := 1) (by norm_num) (by norm_num) (by norm_num)]
  norm_num

/-- A second energy within the tolerance of the least need not be found: zero and six tenths of a
millionth of an electronvolt are rounded to different values. -/
theorem near_tie_undetected :
    ¬ ∀ energies : List ℝ,
      (∃ i j : Fin energies.length, i ≠ j ∧ (∀ k, energies.get i ≤ energies.get k) ∧
        energies.get j - energies.get i ≤ stabilityTolerance) →
      (Spectrum.ofEnergies energies).isDegenerate = true := by
  intro h
  have hleast : ∀ k : Fin 2, ([0, 6e-7] : List ℝ).get 0 ≤ ([0, 6e-7] : List ℝ).get k := by
    intro k
    fin_cases k
    · exact le_rfl
    · show (0 : ℝ) ≤ 6e-7
      norm_num
  have hnear : ([0, 6e-7] : List ℝ).get 1 - ([0, 6e-7] : List ℝ).get 0 ≤ stabilityTolerance := by
    show (6e-7 : ℝ) - 0 ≤ 1e-6
    norm_num
  have hdegenerate := h [0, 6e-7] ⟨0, 1, by decide, hleast, hnear⟩
  rw [isDegenerate_ofEnergies_iff] at hdegenerate
  obtain ⟨i, j, hij, -, hround⟩ := hdegenerate
  -- of two different entries one is rounded to zero and the other is not
  have hne : (0 : ℝ) ≠ 1e-6 := by norm_num
  have hzero : roundEnergy (0 : ℝ) = 0 := roundEnergy_eq_zero le_rfl (by norm_num)
  change Fin 2 at i j
  fin_cases i <;> fin_cases j
  · exact hij rfl
  · exact hne (hzero.symm.trans (hround.symm.trans roundEnergy_above_half))
  · exact hne (hzero.symm.trans (hround.trans roundEnergy_above_half))
  · exact hij rfl

/-! ## What is reported -/

/-- **Degeneracy is decided by rounding.** A list of energies is degenerate exactly if a second
entry rounds to the same value as a least one, and entries that do lie within the tolerance of each
other. If a gate check reports an input combination as passing, one distribution of its simulation
has the least energy and all others have a greater one after rounding. Their energies are those of
their charges, and every assignment that the engine is to find is among them. -/
theorem degeneracy_by_rounding :
    (∀ energies : List ℝ, (Spectrum.ofEnergies energies).isDegenerate = true ↔
      ∃ i j : Fin energies.length, i ≠ j ∧ (∀ k, energies.get i ≤ energies.get k) ∧
        roundEnergy (energies.get j) = roundEnergy (energies.get i)) ∧
    (∀ e e' : ℝ, roundEnergy e = roundEnergy e' → |e - e'| ≤ stabilityTolerance) ∧
    ∀ (l : Layout ℝ) (tables : List TruthTable) (o : GateOptions ℝ) (a : Assessment) (i : ℕ),
      l.assess tables o = .ok a → i < (InputTerminals.ofLayout l o.window).combinations →
      a.Passes i →
      let gate := (InputTerminals.ofLayout l o.window).layoutFor i
      ∃ r before ground after, gate.simulate o.engine o.parameters = .ok r ∧
        r.distributions = before ++ ground :: after ∧
        (∀ s ∈ before ++ after, roundEnergy ground.energy < roundEnergy s.energy) ∧
        (∀ s ∈ r.distributions, s.energy
          = (Environment.ofLayout gate o.parameters).electrostaticEnergy s.charges) ∧
        (gate.FitsIndices o.parameters o.engine →
          ∀ q, gate.Finds o.parameters o.engine q → ∃ s ∈ r.distributions, s.charges = q) := by
  refine ⟨isDegenerate_ofEnergies_iff, fun _ _ => abs_sub_le_of_roundEnergy_eq, ?_⟩
  intro l tables o a i h hi hpasses gate
  obtain ⟨-, -, houtputs, -⟩ := accepted_of_assess h
  obtain ⟨_, ⟨r, ground, ⟨-, hr⟩, hground, htied, -⟩, -⟩ := passesInput_of_assess h hi hpasses
  obtain ⟨before, after, hsplit, hlt⟩ := hground.exists_split_of_not_isTied htied
  refine ⟨r, before, ground, after, hr, hsplit, hlt, fun s hs => ?_, fun hfits q hq => ?_⟩
  · exact (isStableSurface_of_mem_distributions hr hs).energy
  · obtain ⟨hp, hl⟩ := accepted_of_simulate_eq_ok hr
    obtain ⟨r', hr', -, hmem⟩ := exists_simulate_exact hp hl (isEmpty_layoutFor houtputs i) hfits
    obtain rfl : r = r' := Except.ok.inj (hr.symm.trans hr')
    exact List.mem_map.1 ((hmem q).2 hq)

/-- Zero and four tenths of a millionth of an electronvolt are degenerate, and each input
combination of the wire that is held at zero has one distribution of least rounded energy. -/
theorem degeneracy_by_rounding_heldWire :
    (Spectrum.ofEnergies ([0, 4e-7] : List ℝ)).isDegenerate = true ∧
      heldWire.assess [⟨1, [false, false], rfl⟩] weakGate = .ok ⟨none, 2⟩ ∧
      Assessment.Passes ⟨none, 2⟩ 1 ∧
      ∃ r before ground after,
        (heldWireFor 1).simulate weakGate.engine weakGate.parameters = .ok r ∧
        r.distributions = before ++ ground :: after ∧
        ∀ s ∈ before ++ after, roundEnergy ground.energy < roundEnergy s.energy := by
  obtain ⟨hdegenerate, -, hreported⟩ := degeneracy_by_rounding
  have hpasses : Assessment.Passes ⟨none, 2⟩ 1 := Assessment.passes_of_operational rfl 1
  have hone : 1 < (InputTerminals.ofLayout heldWire weakGate.window).combinations := by
    rw [combinations_heldWire]
    decide
  refine ⟨(hdegenerate _).2 ⟨0, 1, by decide, fun k => ?_, ?_⟩, assess_heldWire, hpasses, ?_⟩
  · change Fin 2 at k
    fin_cases k
    · exact le_rfl
    · show (0 : ℝ) ≤ 4e-7
      norm_num
  · have hzero : ∀ e : ℝ, 0 ≤ e → e < 5e-7 → roundEnergy e = 0 := fun _ => roundEnergy_eq_zero
    show roundEnergy (4e-7 : ℝ) = roundEnergy 0
    rw [hzero _ (by norm_num) (by norm_num), hzero _ le_rfl (by norm_num)]
  · obtain ⟨r, before, ground, after, hr, hsplit, hlt, -⟩ :=
      hreported heldWire _ weakGate _ 1 assess_heldWire hone hpasses
    exact ⟨r, before, ground, after, hr, hsplit, hlt⟩

end DanglingBonds
