/-
# What a gate check decides

The verdict on a gate is that of the least input combination that does not pass: the one reason for
which it fails, after as many simulations as it takes to find out.

* `exists_first_failure` : the least input combination that does not pass.
* `assess_verdict` : the verdict on a gate.
-/
import Mathlib
import DanglingBonds.Proofs.HeldCells

namespace DanglingBonds

section Gate

variable {l : Layout ℝ} {tables : List TruthTable} {o : GateOptions ℝ}

/-- Of the input combinations that do not pass there is a least, and one reason for which it
fails. -/
theorem exists_first_failure {k : ℕ} (hvars : ∀ t ∈ tables, t.vars = k)
    (hsimulates : ∀ i < 2 ^ k, (∀ j < i, l.PassesInput tables o j) → l.SimulatesInput o i)
    (h : ¬ ∀ i < 2 ^ k, l.PassesInput tables o i) :
    ∃ m reason, m < 2 ^ k ∧ ¬ l.PassesInput tables o m ∧ (∀ i < m, l.PassesInput tables o i) ∧
      ∀ reason', l.FailsInput tables o m reason' ↔ reason' = reason := by
  classical
  have hexists : ∃ m, m < 2 ^ k ∧ ¬ l.PassesInput tables o m := by
    push Not at h
    exact h
  obtain ⟨hlt, hnot⟩ := Nat.find_spec hexists
  have hbefore : ∀ i < Nat.find hexists, l.PassesInput tables o i := by
    intro i hi
    by_contra hi'
    exact Nat.find_min hexists hi ⟨hi.trans hlt, hi'⟩
  obtain ⟨reason, hreason⟩ := (passes_or_fails (hsimulates _ hlt hbefore)).resolve_left hnot
  refine ⟨_, reason, hlt, hnot, hbefore, fun reason' => ⟨fun h' => ?_, ?_⟩⟩
  · exact reason_unique (isSome_bit?_of_mem_outputs hvars hlt) hreason h'
  · rintro rfl
    exact hreason

/-- **The verdict on a gate.** Let the parameters be accepted, one truth table be given for each
output pair with an input for each of the `k` input pairs, and no simulation that is run be refused.
Then the gate works, after `2 ^ k` simulations, exactly if all `2 ^ k` input combinations pass.
Otherwise the verdict names the least that does not pass and the one reason for which it fails; the
combinations before it have been simulated, and it has been too unless the reason is that some cell
can be positive. -/
theorem assess_verdict {k : ℕ} (hp : o.parameters.check = .ok ())
    (hinputs : (l.pairs (some .input) o.window).length = k)
    (hcount : tables.length = (l.pairs (some .output) o.window).length)
    (houtputs : l.pairs (some .output) o.window ≠ []) (hvars : ∀ t ∈ tables, t.vars = k)
    (hsimulates : ∀ i < 2 ^ k, (∀ j < i, l.PassesInput tables o j) → l.SimulatesInput o i) :
    ∃ a, l.assess tables o = .ok a ∧
      (a.status = .operational ∧ a.failure = none ∧ a.simulations = 2 ^ k ↔
        ∀ i < 2 ^ k, l.PassesInput tables o i) ∧
      ((¬ ∀ i < 2 ^ k, l.PassesInput tables o i) →
        ∃ m reason, m < 2 ^ k ∧ ¬ l.PassesInput tables o m ∧
          (∀ i < m, l.PassesInput tables o i) ∧
          (∀ reason', l.FailsInput tables o m reason' ↔ reason' = reason) ∧
          a.status = .nonOperational ∧ a.failure = some (m, reason) ∧
          a.simulations = if reason = .positiveCharges then m else m + 1) := by
  subst hinputs
  set k := (l.pairs (some .input) o.window).length
  have harity : (checkArity tables k (l.pairs (some .output) o.window).length :
      Except (AnalysisError ℝ) Unit) = .ok () :=
    checkArity_eq_ok_iff.2 ⟨hcount, List.length_eq_zero_iff.not.2 houtputs, hvars⟩
  rw [assess_eq_checkInputsFrom hp harity]
  have hpass : ∀ i, l.PassesInput tables o i → l.checkCombination tables o i = .ok ⟨true, none⟩ :=
    fun i hi => checkInput_of_passes hi
  by_cases hall : ∀ i < 2 ^ k, l.PassesInput tables o i
  · refine ⟨_, checkInputsFrom_of_passes fun i hi => hpass i (hall i hi), ?_,
      fun hnot => absurd hall hnot⟩
    exact iff_of_true ⟨rfl, rfl, rfl⟩ hall
  · obtain ⟨m, reason, hlt, hnot, hbefore, hreason⟩ := exists_first_failure hvars hsimulates hall
    have hcheck : l.checkCombination tables o m
        = .ok ⟨decide (reason ≠ .positiveCharges), some reason⟩ :=
      checkInput_of_fails (isSome_bit?_of_mem_outputs hvars hlt) ((hreason reason).2 rfl)
    refine ⟨_, checkInputsFrom_of_fails hlt (fun i hi => hpass i (hbefore i hi)) hcheck, ?_,
      fun _ => ⟨m, reason, hlt, hnot, hbefore, hreason, rfl, rfl, ?_⟩⟩
    · refine iff_of_false ?_ hall
      rintro ⟨-, hnone, -⟩
      cases hnone
    · by_cases hpositive : reason = .positiveCharges
      · rw [if_pos hpositive, if_neg (by simp [hpositive])]
      · rw [if_neg hpositive, if_pos (decide_eq_true hpositive)]

end Gate

/-- The output of the held wire stays zero, so for a table with a zero and a one the first input
combination passes and the second fails, after a simulation of either. -/
theorem assess_verdict_heldWire :
    let tables : List TruthTable := [⟨1, [false, true], rfl⟩]
    weakGate.parameters.check = .ok () ∧
      (heldWire.pairs (some .input) weakGate.window).length = 1 ∧
      tables.length = (heldWire.pairs (some .output) weakGate.window).length ∧
      (∀ i, heldWire.SimulatesInput weakGate i) ∧
      ∃ a, heldWire.assess tables weakGate = .ok a ∧ a.status = .nonOperational ∧
        a.failure = some (1, .wrongOutput 0) ∧ a.simulations = 2 := by
  intro tables
  obtain ⟨hinput, houtput⟩ := pairs_heldWire
  have hinputs : (heldWire.pairs (some .input) weakGate.window).length = 1 := by
    rw [hinput]
    rfl
  have hcount : tables.length = (heldWire.pairs (some .output) weakGate.window).length := by
    rw [houtput]
    rfl
  have hne : heldWire.pairs (some .output) weakGate.window ≠ [] := by
    rw [houtput]
    exact List.cons_ne_nil _ _
  have hsimulates : ∀ i, heldWire.SimulatesInput weakGate i := fun i _ =>
    exists_simulate_eq_ok check_weakGate (checkDefects_setPairs i _ heldWire) _
  have hpasses : heldWire.PassesInput tables weakGate 0 := passesInput_heldWire rfl
  have hfails : heldWire.FailsInput tables weakGate 1 (.wrongOutput 0) := failsInput_heldWire rfl
  have hvars : ∀ t ∈ tables, t.vars = 1 := by simp [tables]
  have hnot : ¬ heldWire.PassesInput tables weakGate 1 :=
    not_passes_of_fails (isSome_bit?_of_mem_outputs hvars (by decide)) hfails
  obtain ⟨a, ha, -, hfailure⟩ :=
    assess_verdict check_weakGate hinputs hcount hne hvars fun i _ _ => hsimulates i
  obtain ⟨m, reason, hlt, hnot', hbefore, hreason, hstatus, hfail, hsimulations⟩ :=
    hfailure fun hall => hnot (hall 1 (by decide))
  -- the first input combination passes, so the one that fails is the second
  obtain rfl : m = 1 := by
    have hzero : m ≠ 0 := fun hzero => hnot' (hzero ▸ hpasses)
    omega
  obtain rfl : FailureReason.wrongOutput 0 = reason := (hreason _).1 hfails
  exact ⟨check_weakGate, hinputs, hcount, hsimulates, a, ha, hstatus, hfail, hsimulations⟩

end DanglingBonds
