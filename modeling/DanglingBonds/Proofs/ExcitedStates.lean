/-
# The gate check and the excited states

The gate check reads an output off the opposite charges of its two cells, the analysis of excited
states off the lower cell alone. Where no cell can be positive the two readings agree, and at zero
kelvin only states of least energy have weight. So an input combination that passes is never read
wrongly at zero kelvin, and one with a wrong output always is.

* `leastEnergy?_eq_some` : the least energy of a list of states.
* `erroneousProbability_zero`, `erroneousProbability_zero_of_least` : zero kelvin.
* `showsOutputs_singleton_iff` : the two readings of an output that carries a bit.
* `exists_stateEnergies` : the states of a simulation with one ground state.
* `excitedStates_agree` : the analysis of excited states finds what the gate check finds.
-/
import Mathlib
import DanglingBonds.Occupation
import DanglingBonds.Proofs.HeldCells

namespace DanglingBonds

/-! ## States of least energy -/

/-- A state of a list that has no more energy than any other. -/
def IsLeastState (states : List (StateEnergy ℝ)) (s : StateEnergy ℝ) : Prop :=
  s ∈ states ∧ ∀ s' ∈ states, s.energy ≤ s'.energy

section States

variable {states : List (StateEnergy ℝ)} {s : StateEnergy ℝ}

/-- The least energy so far, after more states. -/
theorem foldl_least_le_iff (states : List (StateEnergy ℝ)) (m x : ℝ) :
    x ≤ states.foldl (fun m s => Scalar.least m s.energy) m ↔
      x ≤ m ∧ ∀ s ∈ states, x ≤ s.energy := by
  induction states generalizing m with
  | nil => simp
  | cons s states ih =>
    rw [List.foldl_cons, ih, least_eq_min, le_min_iff, List.forall_mem_cons, and_assoc]

/-- **The least energy** of a list of states is that of a state of least energy. -/
theorem leastEnergy?_eq_some (hs : IsLeastState states s) :
    leastEnergy? states = some s.energy := by
  obtain ⟨first, rest, rfl⟩ := List.exists_cons_of_ne_nil (List.ne_nil_of_mem hs.1)
  have hbound : ∀ x, x ≤ rest.foldl (fun m s => Scalar.least m s.energy) first.energy ↔
      ∀ t ∈ first :: rest, x ≤ t.energy := by
    intro x
    rw [foldl_least_le_iff, List.forall_mem_cons]
  rw [leastEnergy?]
  exact congrArg some (le_antisymm ((hbound _).1 le_rfl s hs.1) ((hbound _).2 hs.2))

/-- States have one of least energy. -/
theorem exists_isLeastState (h : states ≠ []) : ∃ s, IsLeastState states s := by
  induction states with
  | nil => exact absurd rfl h
  | cons first rest ih =>
    by_cases hrest : rest = []
    · refine ⟨first, List.mem_cons_self, fun s' hs' => ?_⟩
      rw [hrest, List.mem_singleton] at hs'
      rw [hs']
    · obtain ⟨s, hs, hle⟩ := ih hrest
      rcases le_total first.energy s.energy with hfirst | hfirst
      · exact ⟨first, List.mem_cons_self,
          List.forall_mem_cons.2 ⟨le_rfl, fun s' hs' => hfirst.trans (hle s' hs')⟩⟩
      · exact ⟨s, List.mem_cons_of_mem _ hs, List.forall_mem_cons.2 ⟨hfirst, hle⟩⟩

/-! ## Zero kelvin -/

/-- At zero kelvin a sum of weights counts the states of least energy. -/
theorem foldl_weight_zero (counts : StateEnergy ℝ → Bool) {m : ℝ} (z : ℝ)
    (hm : ∀ s ∈ states, m ≤ s.energy) :
    states.foldl (fun z s => if counts s then z + boltzmannFactor (s.energy - m) 0 else z) z
      = z + (states.countP fun s => counts s && decide (s.energy = m) : ℕ) := by
  induction states generalizing z with
  | nil => simp
  | cons s states ih =>
    obtain ⟨hs, hrest⟩ := List.forall_mem_cons.1 hm
    have hweight : (boltzmannFactor (s.energy - m) 0 : ℝ) = if s.energy = m then 1 else 0 := by
      rw [boltzmannFactor, if_pos (beq_self_eq_true (0 : ℝ))]
      by_cases heq : s.energy = m
      · rw [if_pos heq, if_neg (by rw [heq, sub_self]; exact lt_irrefl 0)]
      · rw [if_neg heq, if_pos (sub_pos.2 (lt_of_le_of_ne hs (Ne.symm heq)))]
    rw [List.foldl_cons, ih _ hrest, List.countP_cons, hweight]
    cases hcounts : counts s with
    | false => simp
    | true =>
      by_cases heq : s.energy = m
      · simp [heq]
        ring
      · simp [heq]

/-- **The erroneous share at zero kelvin** is that among the states of least energy. -/
theorem erroneousProbability_zero (hs : IsLeastState states s) :
    erroneousProbability states 0 = .ok
      ((states.countP fun t => !t.transparent && decide (t.energy = s.energy) : ℕ)
        / (states.countP fun t => decide (t.energy = s.energy) : ℕ)) := by
  have htemperature : (checkTemperature 0 : Except (SetupError ℝ) Unit) = .ok () := by
    rw [checkTemperature]
    exact if_pos (decide_eq_true le_rfl)
  have htotal : states.foldl (fun z t => z + boltzmannFactor (t.energy - s.energy) 0) 0
      = ((states.countP fun t => decide (t.energy = s.energy) : ℕ) : ℝ) := by
    have hsum := foldl_weight_zero (fun _ => true) 0 hs.2
    simpa only [if_true, Bool.true_and, zero_add] using hsum
  have hwrong : states.foldl (fun z t =>
        if t.transparent then z else z + boltzmannFactor (t.energy - s.energy) 0) 0
      = ((states.countP fun t => !t.transparent && decide (t.energy = s.energy) : ℕ) : ℝ) := by
    have hsum := foldl_weight_zero (fun t => !t.transparent) 0 hs.2
    simpa only [Bool.not_eq_true', ← Bool.not_eq_true, ite_not, zero_add] using hsum
  rw [erroneousProbability, htemperature, leastEnergy?_eq_some hs, ← hwrong, ← htotal]
  rfl

/-- If the states of least energy are read alike, so is all that has weight at zero kelvin. -/
theorem erroneousProbability_zero_of_least (hs : IsLeastState states s) {b : Bool}
    (h : ∀ t, IsLeastState states t → t.transparent = b) :
    erroneousProbability states 0 = .ok (if b then 0 else 1) := by
  have hread : ∀ t ∈ states, t.energy = s.energy → t.transparent = b := fun t ht heq =>
    h t ⟨ht, fun t' ht' => heq ▸ hs.2 t' ht'⟩
  have hpositive : 0 < states.countP fun t => decide (t.energy = s.energy) :=
    List.countP_pos_iff.2 ⟨s, hs.1, decide_eq_true rfl⟩
  rw [erroneousProbability_zero hs]
  cases b with
  | true =>
    have hnone : (states.countP fun t => !t.transparent && decide (t.energy = s.energy)) = 0 := by
      refine List.countP_eq_zero.2 fun t ht => ?_
      rw [Bool.and_eq_true, Bool.not_eq_true', decide_eq_true_iff]
      rintro ⟨hwrong, heq⟩
      rw [hread t ht heq] at hwrong
      cases hwrong
    rw [hnone, Nat.cast_zero, zero_div]
    rfl
  | false =>
    have hall : (states.countP fun t => !t.transparent && decide (t.energy = s.energy))
        = states.countP fun t => decide (t.energy = s.energy) := by
      refine List.countP_congr fun t ht => ?_
      rw [Bool.and_eq_true, Bool.not_eq_true', decide_eq_true_iff]
      exact and_iff_right_of_imp (hread t ht)
    rw [hall, div_self (Nat.cast_ne_zero.2 hpositive.ne')]
    rfl

end States

/-! ## Two readings of an output -/

section Outputs

variable {charge : Site → Option Charge} {index : ℕ} {outputs : List (Pair × TruthTable)}

/-- Outputs are shown if each of them is. -/
theorem showsOutputs_iff_forall :
    showsOutputs charge index outputs = true ↔
      ∀ e ∈ outputs, showsOutputs charge index [e] = true := by
  simp only [showsOutputs, List.all_eq_true, List.mem_singleton, forall_eq]

/-- **The two readings of an output** agree if its pair carries a bit. -/
theorem showsOutputs_singleton_iff {e : Pair × TruthTable} {bit : Bool}
    (h : CarriesBit charge e.1 bit) :
    showsOutputs charge index [e] = true ↔ IsRight charge index e := by
  have hlower := (carriesBit_iff.1 h).2
  -- the lower cell is charged for a one, and only then
  have hshown : showsOutputs charge index [e] = true ↔ e.2.bit? index = some bit := by
    simp only [showsOutputs, List.all_cons, List.all_nil, Bool.and_true, hlower, beq_iff_eq]
    cases bit with
    | true => exact Iff.rfl
    | false => exact Iff.rfl
  rw [hshown]
  constructor
  · exact fun hbit => ⟨bit, hbit, h⟩
  · rintro ⟨bit', hbit', h'⟩
    rw [h.eq h', hbit']

/-- Two cells without positive charges that differ carry a bit. -/
theorem exists_carriesBit {pair : Pair} {upper lower : Charge}
    (hupper : charge pair.upper = some upper) (hlower : charge pair.lower = some lower)
    (hupper' : upper ≠ .positive) (hlower' : lower ≠ .positive)
    (hne : charge pair.upper ≠ charge pair.lower) :
    ∃ bit, CarriesBit charge pair bit := by
  cases upper with
  | positive => exact absurd rfl hupper'
  | negative =>
    cases lower with
    | positive => exact absurd rfl hlower'
    | negative => exact absurd (hupper.trans hlower.symm) hne
    | neutral => exact ⟨false, hupper, hlower⟩
  | neutral =>
    cases lower with
    | positive => exact absurd rfl hlower'
    | negative => exact ⟨true, hupper, hlower⟩
    | neutral => exact absurd (hupper.trans hlower.symm) hne

end Outputs

/-! ## States of a simulation -/

/-- The states of a simulation with one distribution of least rounded energy: they have a state of
least energy, and each such state is that distribution. -/
theorem exists_stateEnergies {n : ℕ} {r : Simulation ℝ n} {s : Surface ℝ n} (hs : r.IsLeast s)
    (htied : ¬ r.IsTied) {outputs : List Pair} {tables : List TruthTable}
    (hcount : tables.length = outputs.length) (hne : outputs ≠ []) (index : ℕ) :
    ∃ states, r.stateEnergies outputs tables index = .ok states ∧
      (∃ t, IsLeastState states t) ∧ ∀ t, IsLeastState states t →
        t.transparent = showsOutputs s.chargeAt? index (outputs.zip tables) := by
  have harity : (outputs.isEmpty || outputs.length != tables.length) = false := by
    rw [List.isEmpty_eq_false_iff.2 hne, hcount, bne_self_eq_false, Bool.or_false]
  rw [Simulation.stateEnergies, harity, if_neg Bool.false_ne_true]
  refine ⟨_, rfl, exists_isLeastState ?_, fun t ht => ?_⟩
  · exact List.ne_nil_of_mem (mem_sortBy.2 (List.mem_map_of_mem hs.1))
  · obtain ⟨s', hs', rfl⟩ := List.mem_map.1 (mem_sortBy.1 ht.1)
    have hle := ht.2 _ (mem_sortBy.2 (List.mem_map_of_mem hs.1))
    have hleast : r.IsLeast s' := ⟨hs', fun s'' hs'' => hle.trans (hs.2 s'' hs'')⟩
    rw [hs.eq_of_not_isTied hleast htied]

/-! ## Input combinations -/

/-- What the analysis of excited states says about input combination `i` at zero kelvin: all states
of least energy are read as `transparent`, and the probability of a wrong reading is `p`. -/
def Layout.ReadsGround (l : Layout ℝ) (tables : List TruthTable) (o : GateOptions ℝ) (i : ℕ)
    (transparent : Bool) (p : ℝ) : Prop :=
  ∃ r states,
    ((InputTerminals.ofLayout l o.window).layoutFor i).simulate o.engine o.parameters = .ok r ∧
    r.stateEnergies (l.pairs (some .output) o.window) tables i = .ok states ∧
    (∃ s, IsLeastState states s) ∧ (∀ s, IsLeastState states s → s.transparent = transparent) ∧
    erroneousProbability states 0 = .ok p

section Inputs

variable {l : Layout ℝ} {tables : List TruthTable} {o : GateOptions ℝ} {i : ℕ}

/-- No cell of a ground state is positive. -/
theorem Layout.HasGround.ne_positive {charge : Site → Option Charge} (h : l.HasGround o charge)
    {site : Site} (hsite : site ∈ l.sites) : ∃ c, charge site = some c ∧ c ≠ .positive := by
  obtain ⟨r, s, ⟨hpositive, hr⟩, hs, -, rfl⟩ := h
  have hstable := isStableSurface_of_mem_distributions hr hs.1
  obtain ⟨hp, -⟩ := accepted_of_simulate_eq_ok hr
  have hadmits : l.admitsPositive o.parameters = false := by
    rw [← Bool.not_eq_true, admitsPositive_eq_true_iff]
    exact hpositive
  obtain ⟨k, hk, -⟩ := Surface.exists_chargeAt?_eq_some hstable.env_eq hsite
  exact ⟨_, hk, Environment.ne_positive_of_canBePositive_eq_false
    (Environment.ofLayout_between_nonneg l hp) (admitsPositive_eq_false_iff.1 hadmits k)
    (hstable.stable.population k)⟩

/-- The outputs of the ground state are what the analysis of excited states reads. -/
theorem readsGround_of_hasGround {charge : Site → Option Charge}
    (hcount : tables.length = (l.pairs (some .output) o.window).length)
    (hne : l.pairs (some .output) o.window ≠ [])
    (h : ((InputTerminals.ofLayout l o.window).layoutFor i).HasGround o charge) {b : Bool}
    (hshown : showsOutputs charge i ((l.pairs (some .output) o.window).zip tables) = b) :
    l.ReadsGround tables o i b (if b then 0 else 1) := by
  obtain ⟨r, s, ⟨-, hr⟩, hs, htied, rfl⟩ := h
  obtain ⟨states, hstates, ⟨t, ht⟩, hread⟩ := exists_stateEnergies hs htied hcount hne i
  rw [hshown] at hread
  exact ⟨r, states, hr, hstates, ⟨t, ht⟩, hread, erroneousProbability_zero_of_least ht hread⟩

/-- **The analysis of excited states agrees with the gate check.** Let the truth tables fit a gate
and one of its input combinations be checked. If nothing is found to be wrong, all states of least
energy of that input combination show the expected outputs, and at zero kelvin the probability of a
wrong output is zero; if an output is found to be wrong, no state of least energy shows them, and
the probability is one. -/
theorem excitedStates_agree (l : Layout ℝ) (tables : List TruthTable) (o : GateOptions ℝ) {i : ℕ}
    {v : InputVerdict}
    (harity : (checkArity tables (l.pairs (some .input) o.window).length
      (l.pairs (some .output) o.window).length : Except (AnalysisError ℝ) Unit) = .ok ())
    (hi : i < (InputTerminals.ofLayout l o.window).combinations)
    (h : ((InputTerminals.ofLayout l o.window).layoutFor i).checkInput i
      ((l.pairs (some .output) o.window).zip tables) o = .ok v) :
    (v.failure = none → l.ReadsGround tables o i true 0) ∧
      ∀ j, v.failure = some (.wrongOutput j) → l.ReadsGround tables o i false 1 := by
  obtain ⟨hcount, houtputs, hvars⟩ := checkArity_eq_ok_iff.1 harity
  have hne := List.length_eq_zero_iff.not.1 houtputs
  have hbits : ∀ e ∈ (l.pairs (some .output) o.window).zip tables, (e.2.bit? i).isSome = true :=
    isSome_bit?_of_mem_outputs hvars hi
  constructor
  · intro hv
    obtain ⟨charge, hground, hright⟩ := passes_of_checkInput hbits h hv
    refine readsGround_of_hasGround hcount hne hground (showsOutputs_iff_forall.2 fun e he => ?_)
    obtain ⟨bit, -, hcarries⟩ := hright e he
    exact (showsOutputs_singleton_iff hcarries).2 (hright e he)
  · intro j hv
    obtain ⟨charge, e, hground, hfirst, hunequal⟩ := fails_of_checkInput hbits h hv
    refine readsGround_of_hasGround hcount hne hground (Bool.eq_false_of_not_eq_true fun hall => ?_)
    -- the pair of the wrong output carries a bit, for its cells differ and neither is positive
    have he := List.mem_of_getElem? hfirst.getElem?
    obtain ⟨hupper, hlower⟩ := mem_sites_layoutFor (List.of_mem_zip he).1 i
    obtain ⟨upper, hupper, hupper'⟩ := hground.ne_positive hupper
    obtain ⟨lower, hlower, hlower'⟩ := hground.ne_positive hlower
    obtain ⟨bit, hcarries⟩ := exists_carriesBit hupper hlower hupper' hlower' hunequal
    exact hfirst.not_isRight
      ((showsOutputs_singleton_iff hcarries).1 (showsOutputs_iff_forall.1 hall e he))

end Inputs

/-- The second input combination of the wire whose output is held at zero passes for the table of
zeros and has a wrong output for that of ones. -/
theorem excitedStates_agree_heldWire :
    let check (t : TruthTable) := ((InputTerminals.ofLayout heldWire weakGate.window).layoutFor
      1).checkInput 1 ((heldWire.pairs (some .output) weakGate.window).zip [t]) weakGate
    1 < (InputTerminals.ofLayout heldWire weakGate.window).combinations ∧
      check ⟨1, [false, false], rfl⟩ = .ok ⟨true, none⟩ ∧
      check ⟨1, [true, true], rfl⟩ = .ok ⟨true, some (.wrongOutput 0)⟩ ∧
      heldWire.ReadsGround [⟨1, [false, false], rfl⟩] weakGate 1 true 0 ∧
      heldWire.ReadsGround [⟨1, [true, true], rfl⟩] weakGate 1 false 1 := by
  intro check
  have hone : 1 < (InputTerminals.ofLayout heldWire weakGate.window).combinations := by
    rw [combinations_heldWire]
    decide
  have hzeros : check ⟨1, [false, false], rfl⟩ = .ok ⟨true, none⟩ :=
    checkInput_of_passes (passesInput_heldWire rfl)
  have hones : check ⟨1, [true, true], rfl⟩ = .ok ⟨true, some (.wrongOutput 0)⟩ :=
    checkInput_of_fails (isSome_bit?_of_mem_outputs (k := 1) (by simp) (by decide))
      (failsInput_heldWire rfl)
  exact ⟨hone, hzeros, hones,
    (excitedStates_agree heldWire _ weakGate (checkArity_heldWire rfl) hone hzeros).1 rfl,
    (excitedStates_agree heldWire _ weakGate (checkArity_heldWire rfl) hone hones).2 0 rfl⟩

end DanglingBonds
