/-
# What the check of an input combination decides

An input combination passes if no cell can be positive, a single distribution has the least rounded
energy, and in it every output pair carries the bit of its truth table. If it does not pass there is
exactly one reason, for the reasons are looked for in a fixed order.

* `CarriesBit`, `IsRight`, `IsFirstBad` : what the outputs should carry.
* `Layout.Passes`, `Layout.Fails` : an input combination that passes, and one that fails.
* `checkInput_of_passes`, `checkInput_of_fails`, `passes_or_fails` : what its check finds out.
* `Layout.PassesInput`, `Layout.FailsInput` : the input combinations of a gate.
* `canBePositive_layoutFor` : a gate at a low potential fails at once.
-/
import Mathlib
import DanglingBonds.Proofs.EnergyLevels
import DanglingBonds.Proofs.Existence
import DanglingBonds.Proofs.InputChecks

namespace DanglingBonds

/-! ## Outputs -/

/-- A pair carries a one if its lower cell alone is negative, a zero if its upper cell alone is. -/
def CarriesBit (charge : Site → Option Charge) (pair : Pair) : Bool → Prop
  | true => charge pair.upper = some .neutral ∧ charge pair.lower = some .negative
  | false => charge pair.upper = some .negative ∧ charge pair.lower = some .neutral

/-- An output carries the bit of its truth table for input combination `index`. -/
def IsRight (charge : Site → Option Charge) (index : ℕ) (output : Pair × TruthTable) : Prop :=
  ∃ bit, output.2.bit? index = some bit ∧ CarriesBit charge output.1 bit

/-- Output `j` is `e`, and the first that is not right. -/
structure IsFirstBad (charge : Site → Option Charge) (index : ℕ)
    (outputs : List (Pair × TruthTable)) (j : ℕ) (e : Pair × TruthTable) : Prop where
  getElem? : outputs[j]? = some e
  not_isRight : ¬ IsRight charge index e
  isRight_of_lt : ∀ i < j, ∀ e', outputs[i]? = some e' → IsRight charge index e'

section Outputs

variable {charge : Site → Option Charge} {index : ℕ} {e : Pair × TruthTable}
  {outputs : List (Pair × TruthTable)}

theorem carriesBit_iff {pair : Pair} {bit : Bool} :
    CarriesBit charge pair bit ↔ charge pair.upper = some (pairCharges bit).1
      ∧ charge pair.lower = some (pairCharges bit).2 := by
  cases bit with
  | true => exact Iff.rfl
  | false => exact Iff.rfl

/-- The two cells of a pair that carries a bit have different charges. -/
theorem CarriesBit.upper_ne_lower {pair : Pair} {bit : Bool} (h : CarriesBit charge pair bit) :
    charge pair.upper ≠ charge pair.lower := by
  obtain ⟨hupper, hlower⟩ := carriesBit_iff.1 h
  rw [hupper, hlower]
  cases bit with
  | true => decide
  | false => decide

/-- What is reported of output `j` if it is not right. -/
def outputFault (charge : Site → Option Charge) (pair : Pair) (j : ℕ) : FailureReason :=
  if charge pair.upper = charge pair.lower then .undefinedOutput j else .wrongOutput j

/-- An output that is right is left behind. -/
theorem firstBadOutput_cons_of_isRight (h : IsRight charge index e) (output : ℕ) :
    firstBadOutput charge index output (e :: outputs)
      = firstBadOutput charge index (output + 1) outputs := by
  obtain ⟨bit, hbit, hcarries⟩ := h
  obtain ⟨hupper, hlower⟩ := carriesBit_iff.1 hcarries
  have hexpected : (e.2.bit? index).getD false = bit := by rw [hbit, Option.getD_some]
  rw [firstBadOutput, hexpected, if_neg hcarries.upper_ne_lower, if_neg]
  rintro (hne | hne)
  · exact hne hupper
  · exact hne hlower

/-- One that is not right is reported. -/
theorem firstBadOutput_cons_of_not_isRight (hbit : (e.2.bit? index).isSome = true)
    (h : ¬ IsRight charge index e) (output : ℕ) :
    firstBadOutput charge index output (e :: outputs)
      = some (outputFault charge e.1 output) := by
  obtain ⟨bit, hbit⟩ := Option.isSome_iff_exists.1 hbit
  have hexpected : (e.2.bit? index).getD false = bit := by rw [hbit, Option.getD_some]
  rw [firstBadOutput, outputFault, hexpected]
  split
  · rfl
  · rw [if_pos]
    by_contra hboth
    push Not at hboth
    exact h ⟨bit, hbit, carriesBit_iff.2 hboth⟩

/-- Outputs that are all right have no fault. -/
theorem firstBadOutput_of_forall_isRight (h : ∀ e ∈ outputs, IsRight charge index e)
    (output : ℕ) : firstBadOutput charge index output outputs = none := by
  induction outputs generalizing output with
  | nil => rfl
  | cons e rest ih =>
    obtain ⟨he, hrest⟩ := List.forall_mem_cons.1 h
    rw [firstBadOutput_cons_of_isRight he]
    exact ih hrest (output + 1)

/-- **The first output that is not right** is the one that is reported. -/
theorem firstBadOutput_of_isFirstBad
    (hbits : ∀ e ∈ outputs, (e.2.bit? index).isSome = true) {j : ℕ}
    (h : IsFirstBad charge index outputs j e) (output : ℕ) :
    firstBadOutput charge index output outputs
      = some (outputFault charge e.1 (output + j)) := by
  induction outputs generalizing output j with
  | nil => cases h.getElem?
  | cons e' rest ih =>
    obtain ⟨hbit, hbits⟩ := List.forall_mem_cons.1 hbits
    cases j with
    | zero =>
      cases h.getElem?
      exact firstBadOutput_cons_of_not_isRight hbit h.not_isRight output
    | succ j =>
      have hright : IsRight charge index e' := h.isRight_of_lt 0 j.succ_pos e' rfl
      have hrest : IsFirstBad charge index rest j e :=
        ⟨h.getElem?, h.not_isRight, fun i hi e'' he'' =>
          h.isRight_of_lt (i + 1) (Nat.succ_lt_succ hi) e'' he''⟩
      rw [firstBadOutput_cons_of_isRight hright, ih hbits hrest, Nat.add_right_comm,
        Nat.add_assoc]

/-- Either all outputs are right or there is a first that is not. -/
theorem forall_isRight_or_exists_isFirstBad (charge : Site → Option Charge) (index : ℕ)
    (outputs : List (Pair × TruthTable)) :
    (∀ e ∈ outputs, IsRight charge index e) ∨ ∃ j e, IsFirstBad charge index outputs j e := by
  induction outputs with
  | nil => exact .inl (by simp)
  | cons e rest ih =>
    by_cases he : IsRight charge index e
    · rcases ih with hall | ⟨j, e', hfirst⟩
      · exact .inl (List.forall_mem_cons.2 ⟨he, hall⟩)
      · refine .inr ⟨j + 1, e', hfirst.getElem?, hfirst.not_isRight, fun i hi e'' he'' => ?_⟩
        cases i with
        | zero =>
          cases he''
          exact he
        | succ i => exact hfirst.isRight_of_lt i (Nat.lt_of_succ_lt_succ hi) e'' he''
    · exact .inr ⟨0, e, rfl, he, fun i hi => absurd hi i.not_lt_zero⟩

/-- Outputs without a fault are all right. -/
theorem isRight_of_firstBadOutput_eq_none
    (hbits : ∀ e ∈ outputs, (e.2.bit? index).isSome = true) {output : ℕ}
    (h : firstBadOutput charge index output outputs = none) :
    ∀ e ∈ outputs, IsRight charge index e := by
  rcases forall_isRight_or_exists_isFirstBad charge index outputs with hall | ⟨j, e, hfirst⟩
  · exact hall
  · rw [firstBadOutput_of_isFirstBad hbits hfirst] at h
    cases h

/-- A pair carries one bit only. -/
theorem CarriesBit.eq {pair : Pair} {bit bit' : Bool} (h : CarriesBit charge pair bit)
    (h' : CarriesBit charge pair bit') : bit = bit' := by
  have hupper := (carriesBit_iff.1 h).1.symm.trans (carriesBit_iff.1 h').1
  revert hupper
  cases bit <;> cases bit' <;> decide

/-- So a truth table whose outputs are right can have one value only. -/
theorem IsRight.bit?_eq {pair : Pair} {t t' : TruthTable} (h : IsRight charge index (pair, t))
    (h' : IsRight charge index (pair, t')) : t.bit? index = t'.bit? index := by
  obtain ⟨bit, hbit, hcarries⟩ := h
  obtain ⟨bit', hbit', hcarries'⟩ := h'
  have hsame : bit = bit' := hcarries.eq hcarries'
  exact hbit.trans (hsame ▸ hbit'.symm)

end Outputs

/-! ## Simulations -/

section Simulations

variable {n : ℕ} {r : Simulation ℝ n} {index : ℕ} {outputs : List (Pair × TruthTable)}

theorem failure?_of_distributions_eq_nil (h : r.distributions = []) :
    r.failure? index outputs = some .noValidDistribution := by
  rw [Simulation.failure?, Simulation.groundState?_eq_none_iff.2 h]

theorem failure?_of_isTied (h : r.IsTied) :
    r.failure? index outputs = some .degenerateGroundState := by
  have ⟨s, _, _, hs, _⟩ := h
  obtain ⟨ground, hground, -⟩ :=
    Simulation.exists_groundState?_eq_some (List.ne_nil_of_mem hs.1)
  rw [Simulation.failure?, hground]
  exact if_pos (Simulation.isDegenerate_spectrum_iff.2 h)

/-- A single distribution of least rounded energy is the one whose outputs are looked at. -/
theorem failure?_of_isLeast {s : Surface ℝ n} (hs : r.IsLeast s) (h : ¬ r.IsTied) :
    r.failure? index outputs = firstBadOutput s.chargeAt? index 0 outputs := by
  obtain ⟨ground, hground, hleast⟩ :=
    Simulation.exists_groundState?_eq_some (List.ne_nil_of_mem hs.1)
  rw [Simulation.failure?, hground, hs.eq_of_not_isTied hleast h]
  exact if_neg (Simulation.isDegenerate_spectrum_iff.not.2 h)

end Simulations

/-! ## Input combinations -/

namespace Layout

/-- With all cells negative, the potential of some cell agrees with a positive charge. -/
def CanBePositive (l : Layout ℝ) (p : Parameters ℝ) : Prop :=
  ∃ i, isPopulationStable .positive
    ((Environment.ofLayout l p).potential (Vector.replicate l.size .negative) i) p = true

/-- No cell can be positive, and the simulation returns `r`. -/
def Returns (l : Layout ℝ) (o : GateOptions ℝ) (r : Simulation ℝ l.size) : Prop :=
  ¬ l.CanBePositive o.parameters ∧ l.simulate o.engine o.parameters = .ok r

/-- The charges of the one distribution of least rounded energy. -/
def HasGround (l : Layout ℝ) (o : GateOptions ℝ) (charge : Site → Option Charge) : Prop :=
  ∃ r s, l.Returns o r ∧ r.IsLeast s ∧ ¬ r.IsTied ∧ s.chargeAt? = charge

/-- There is one ground state, and all outputs are right in it. -/
def Passes (l : Layout ℝ) (index : ℕ) (outputs : List (Pair × TruthTable)) (o : GateOptions ℝ) :
    Prop :=
  ∃ charge, l.HasGround o charge ∧ ∀ e ∈ outputs, IsRight charge index e

/-- What each reason for a failure says. None of them leaves room for one that is listed before. -/
def Fails (l : Layout ℝ) (index : ℕ) (outputs : List (Pair × TruthTable)) (o : GateOptions ℝ) :
    FailureReason → Prop
  | .positiveCharges => l.CanBePositive o.parameters
  | .noValidDistribution => ∃ r, l.Returns o r ∧ r.distributions = []
  | .degenerateGroundState => ∃ r, l.Returns o r ∧ r.IsTied
  | .undefinedOutput j => ∃ charge e, l.HasGround o charge ∧ IsFirstBad charge index outputs j e ∧
      charge e.1.upper = charge e.1.lower
  | .wrongOutput j => ∃ charge e, l.HasGround o charge ∧ IsFirstBad charge index outputs j e ∧
      charge e.1.upper ≠ charge e.1.lower

end Layout

section Inputs

variable {l : Layout ℝ} {o : GateOptions ℝ} {index : ℕ} {outputs : List (Pair × TruthTable)}

theorem admitsPositive_eq_true_iff {p : Parameters ℝ} :
    l.admitsPositive p = true ↔ l.CanBePositive p := by
  rw [Layout.admitsPositive, List.any_eq_true, Layout.CanBePositive]
  simp only [List.mem_finRange, true_and, Environment.potential_replicate_negative]
  rfl

/-- Without positive charges the check of an input combination is that of its simulation. -/
theorem checkInput_of_returns {r : Simulation ℝ l.size} (h : l.Returns o r) :
    l.checkInput index outputs o = .ok ⟨true, r.failure? index outputs⟩ := by
  obtain ⟨hnone, hr⟩ := h
  rw [Layout.checkInput, if_neg (admitsPositive_eq_true_iff.not.2 hnone), hr]
  rfl

/-- With one ground state the check is that of the outputs. -/
theorem checkInput_of_hasGround {charge : Site → Option Charge} (h : l.HasGround o charge) :
    l.checkInput index outputs o = .ok ⟨true, firstBadOutput charge index 0 outputs⟩ := by
  obtain ⟨r, s, hr, hs, htied, rfl⟩ := h
  rw [checkInput_of_returns hr, failure?_of_isLeast hs htied]

/-- **An input combination that passes** is simulated and found to be right. -/
theorem checkInput_of_passes (h : l.Passes index outputs o) :
    l.checkInput index outputs o = .ok ⟨true, none⟩ := by
  obtain ⟨charge, hground, hright⟩ := h
  rw [checkInput_of_hasGround hground, firstBadOutput_of_forall_isRight hright]

/-- **An input combination that fails** is reported with the reason, and is simulated unless some
cell can be positive. -/
theorem checkInput_of_fails (hbits : ∀ e ∈ outputs, (e.2.bit? index).isSome = true)
    {reason : FailureReason} (h : l.Fails index outputs o reason) :
    l.checkInput index outputs o = .ok ⟨decide (reason ≠ .positiveCharges), some reason⟩ := by
  cases reason with
  | positiveCharges =>
    rw [Layout.checkInput, if_pos (admitsPositive_eq_true_iff.2 h)]
    rfl
  | noValidDistribution =>
    obtain ⟨r, hr, hnil⟩ := h
    rw [checkInput_of_returns hr, failure?_of_distributions_eq_nil hnil]
    rfl
  | degenerateGroundState =>
    obtain ⟨r, hr, htied⟩ := h
    rw [checkInput_of_returns hr, failure?_of_isTied htied]
    rfl
  | undefinedOutput j =>
    obtain ⟨charge, e, hground, hfirst, hequal⟩ := h
    rw [checkInput_of_hasGround hground, firstBadOutput_of_isFirstBad hbits hfirst, outputFault,
      if_pos hequal, Nat.zero_add]
    rfl
  | wrongOutput j =>
    obtain ⟨charge, e, hground, hfirst, hunequal⟩ := h
    rw [checkInput_of_hasGround hground, firstBadOutput_of_isFirstBad hbits hfirst, outputFault,
      if_neg hunequal, Nat.zero_add]
    rfl

/-- An input combination passes or fails, unless its simulation is refused. -/
theorem passes_or_fails (hsimulate : ¬ l.CanBePositive o.parameters →
      ∃ r, l.simulate o.engine o.parameters = .ok r) :
    l.Passes index outputs o ∨ ∃ reason, l.Fails index outputs o reason := by
  by_cases hpositive : l.CanBePositive o.parameters
  · exact .inr ⟨.positiveCharges, hpositive⟩
  obtain ⟨r, hr⟩ := hsimulate hpositive
  have hreturns : l.Returns o r := ⟨hpositive, hr⟩
  by_cases hnil : r.distributions = []
  · exact .inr ⟨.noValidDistribution, r, hreturns, hnil⟩
  by_cases htied : r.IsTied
  · exact .inr ⟨.degenerateGroundState, r, hreturns, htied⟩
  obtain ⟨s, -, hs⟩ := Simulation.exists_groundState?_eq_some hnil
  have hground : l.HasGround o s.chargeAt? := ⟨r, s, hreturns, hs, htied, rfl⟩
  rcases forall_isRight_or_exists_isFirstBad s.chargeAt? index outputs with hright | ⟨j, e, hfirst⟩
  · exact .inl ⟨_, hground, hright⟩
  by_cases hequal : s.chargeAt? e.1.upper = s.chargeAt? e.1.lower
  · exact .inr ⟨.undefinedOutput j, _, e, hground, hfirst, hequal⟩
  · exact .inr ⟨.wrongOutput j, _, e, hground, hfirst, hequal⟩

/-- What fails does not pass. -/
theorem not_passes_of_fails (hbits : ∀ e ∈ outputs, (e.2.bit? index).isSome = true)
    {reason : FailureReason} (h : l.Fails index outputs o reason) :
    ¬ l.Passes index outputs o := by
  intro hpasses
  have hcheck := (checkInput_of_fails hbits h).symm.trans (checkInput_of_passes hpasses)
  have hfailure := congrArg InputVerdict.failure (Except.ok.inj hcheck)
  cases hfailure

/-- An input combination fails for one reason only. -/
theorem reason_unique (hbits : ∀ e ∈ outputs, (e.2.bit? index).isSome = true)
    {reason reason' : FailureReason} (h : l.Fails index outputs o reason)
    (h' : l.Fails index outputs o reason') : reason' = reason := by
  have hcheck := (checkInput_of_fails hbits h').symm.trans (checkInput_of_fails hbits h)
  exact Option.some.inj (congrArg InputVerdict.failure (Except.ok.inj hcheck))

/-- A check that is not refused has simulated the input combination, unless some cell can be
positive. -/
theorem exists_simulate_of_checkInput {v : InputVerdict}
    (h : l.checkInput index outputs o = .ok v) (hnone : ¬ l.CanBePositive o.parameters) :
    ∃ r, l.simulate o.engine o.parameters = .ok r := by
  rw [Layout.checkInput, if_neg (admitsPositive_eq_true_iff.not.2 hnone)] at h
  obtain ⟨r, hr, -⟩ := map_eq_ok_iff.1 h
  exact ⟨r, hr⟩

/-- An input combination with which nothing is found to be wrong passes. -/
theorem passes_of_checkInput (hbits : ∀ e ∈ outputs, (e.2.bit? index).isSome = true)
    {v : InputVerdict} (h : l.checkInput index outputs o = .ok v) (hv : v.failure = none) :
    l.Passes index outputs o := by
  rcases passes_or_fails (exists_simulate_of_checkInput h) with hpasses | ⟨reason, hfails⟩
  · exact hpasses
  · obtain rfl := Except.ok.inj (h.symm.trans (checkInput_of_fails hbits hfails))
    cases hv

/-- One with which something is found to be wrong fails for that reason. -/
theorem fails_of_checkInput (hbits : ∀ e ∈ outputs, (e.2.bit? index).isSome = true)
    {v : InputVerdict} (h : l.checkInput index outputs o = .ok v) {reason : FailureReason}
    (hv : v.failure = some reason) : l.Fails index outputs o reason := by
  rcases passes_or_fails (exists_simulate_of_checkInput h) with hpasses | ⟨reason', hfails⟩
  · obtain rfl := Except.ok.inj (h.symm.trans (checkInput_of_passes hpasses))
    cases hv
  · obtain rfl := Except.ok.inj (h.symm.trans (checkInput_of_fails hbits hfails))
    obtain rfl := Option.some.inj hv
    exact hfails

end Inputs

/-! ## The input combinations of a gate -/

section Gate

variable {l : Layout ℝ} {tables : List TruthTable} {o : GateOptions ℝ}

namespace Layout

/-- Input combination `i` of a gate passes. -/
def PassesInput (l : Layout ℝ) (tables : List TruthTable) (o : GateOptions ℝ) (i : ℕ) : Prop :=
  ((InputTerminals.ofLayout l o.window).layoutFor i).Passes i
    ((l.pairs (some .output) o.window).zip tables) o

/-- Input combination `i` of a gate fails for a reason. -/
def FailsInput (l : Layout ℝ) (tables : List TruthTable) (o : GateOptions ℝ) (i : ℕ)
    (reason : FailureReason) : Prop :=
  ((InputTerminals.ofLayout l o.window).layoutFor i).Fails i
    ((l.pairs (some .output) o.window).zip tables) o reason

/-- The simulation of input combination `i`, if it is run, returns a result. -/
def SimulatesInput (l : Layout ℝ) (o : GateOptions ℝ) (i : ℕ) : Prop :=
  ¬ ((InputTerminals.ofLayout l o.window).layoutFor i).CanBePositive o.parameters →
    ∃ r, ((InputTerminals.ofLayout l o.window).layoutFor i).simulate o.engine o.parameters = .ok r

end Layout

/-- A table has a value for each input combination. -/
theorem isSome_bit? {t : TruthTable} {i : ℕ} (hi : i < 2 ^ t.vars) : (t.bit? i).isSome = true := by
  have hlength : i < t.bits.length := t.length_bits ▸ hi
  rw [TruthTable.bit?, List.getElem?_eq_getElem hlength]
  rfl

/-- If tables have an input for each input pair, each output has a bit for each combination. -/
theorem isSome_bit?_of_mem_outputs {k i : ℕ} (hvars : ∀ t ∈ tables, t.vars = k) (hi : i < 2 ^ k)
    {pairs : List Pair} : ∀ e ∈ pairs.zip tables, (e.2.bit? i).isSome = true := by
  intro e he
  refine isSome_bit? ?_
  rw [hvars e.2 (List.of_mem_zip he).2]
  exact hi

/-- An input combination that a verdict reports as passing passes. -/
theorem passesInput_of_assess {a : Assessment} (h : l.assess tables o = .ok a) {i : ℕ}
    (hi : i < 2 ^ (l.pairs (some .input) o.window).length) (hpasses : a.Passes i) :
    l.PassesInput tables o i := by
  obtain ⟨-, -, -, hvars⟩ := accepted_of_assess h
  obtain ⟨v, hv, hnone⟩ := exists_check_of_assess h hi hpasses
  exact passes_of_checkInput (isSome_bit?_of_mem_outputs hvars hi) hv hnone

end Gate

/-! ## A gate at a low potential -/

/-- Where all potentials from outside are below the upper transition level, some cell can be
positive under every input combination. -/
theorem canBePositive_layoutFor {l : Layout ℝ} {w : PairWindow ℝ} {p : Parameters ℝ}
    (hp : p.check = .ok ()) (houtputs : l.pairs (some .output) w ≠ [])
    (h : ∀ s, l.defectPotential s + l.localPotential s + l.globalPotential ≤ p.muPlus)
    (index : ℕ) : ((InputTerminals.ofLayout l w).layoutFor index).CanBePositive p := by
  have hempty := isEmpty_layoutFor houtputs index
  obtain ⟨cells, hcells⟩ := exists_setPairs_eq index (l.pairs (some .input) w) l
  have hlayout : (InputTerminals.ofLayout l w).layoutFor index = { l with cells } := hcells
  rw [hlayout] at hempty ⊢
  set l' : Layout ℝ := { l with cells } with hl'
  have hpos : 0 < l'.size := size_pos hempty
  refine ⟨⟨0, hpos⟩, isPopulationStable_positive_iff.2 ?_⟩
  have hexternal : (Environment.ofLayout l' p).external.get ⟨0, hpos⟩ ≤ p.muPlus := by
    rw [Environment.external_ofLayout]
    exact h _
  have hlowest := Environment.lowestPotential_le_external
    (Environment.ofLayout_between_nonneg l' hp) ⟨0, hpos⟩
  have htol := stabilityTolerance_pos
  rw [Environment.potential_replicate_negative]
  linarith

end DanglingBonds
