/-
# The verdict on a gate in either base

A gate check looks for cells that can be positive before it simulates an input combination. So base
3 is of no use to it: where there is such a cell nothing is simulated, and everywhere else both
engines find in base 3 what they find in base 2.

* `enumerateAll_rebase` : the exhaustive enumeration without positive charges.
* `failure?_rebase` : what a simulation says about the outputs.
* `assess_rebase` : the verdict is the same in both bases.
-/
import Mathlib
import DanglingBonds.Proofs.AssignmentOrder
import DanglingBonds.Proofs.BaseChoice
import DanglingBonds.Proofs.Existence
import DanglingBonds.Proofs.InputChecks

namespace DanglingBonds

variable {n : ℕ}

/-! ## The same distributions -/

/-- What is recorded from tested assignments does not depend on the base. -/
theorem recorded_rebase (s : Surface ℝ n) (base : ℕ) (tested : List (Vector Charge n)) :
    recorded (s.rebase base) tested = (recorded s tested).map (·.rebase base) := by
  rw [recorded, recorded, List.map_map]
  rfl

section Simulations

variable {l : Layout ℝ} {p : Parameters ℝ}

/-- Without positive charges the exhaustive enumeration in base 3 finds what it finds in base 2. -/
theorem enumerateAll_rebase (hp : ({ p with base := 2 } : Parameters ℝ).check = .ok ())
    (hl : l.checkDefects = .ok ()) (hcells : l.isEmpty = false)
    (hadmits : l.admitsPositive p = false) (hfits : 3 ^ l.size ≤ 2 ^ 64) :
    ∃ r r', l.enumerateAll { p with base := 2 } = .ok r ∧
      l.enumerateAll { p with base := 3 } = .ok r' ∧
      r'.distributions = r.distributions.map (·.rebase 3) := by
  have hfits' : 2 ^ l.size ≤ 2 ^ 64 := (Nat.pow_le_pow_left (by decide) _).trans hfits
  refine ⟨_, _, enumerateAll_eq_ok hp hl hcells hfits',
    enumerateAll_eq_ok (check_rebase hp (.inr rfl)) hl hcells hfits, ?_⟩
  set s := Surface.ofLayout l { p with base := 2 } with hs
  -- no valid assignment of base 3 has a positive cell, for none can be positive
  have hneutral : ∀ q : Vector Charge l.size, (s.withCharges q).isValid = true →
      ∀ i, (q.get i).InBase 2 := by
    intro q hq i
    have hstable := Surface.isValid_withCharges_iff.1 hq
    have hne := Environment.ne_positive_of_canBePositive_eq_false
      (Environment.ofLayout_between_nonneg l hp) (admitsPositive_eq_false_iff.1 hadmits i)
      (hstable.population i)
    exact Charge.inBase_two_iff.2 hne
  show recorded (s.rebase 3) _ = (recorded s _).map (·.rebase 3)
  rw [← recorded_rebase, recorded, recorded]
  exact congrArg (List.map _) (Environment.filter_exhaustiveTests_three hneutral)

/-- Without positive charges either engine finds in base 3 what it finds in base 2. -/
theorem simulate_rebase (hp : ({ p with base := 2 } : Parameters ℝ).check = .ok ())
    (hl : l.checkDefects = .ok ()) (hcells : l.isEmpty = false)
    (hadmits : l.admitsPositive p = false) (hfits : 3 ^ l.size ≤ 2 ^ 64) (e : Engine) :
    ∃ r r', l.simulate e { p with base := 2 } = .ok r ∧
      l.simulate e { p with base := 3 } = .ok r' ∧
      r'.distributions = r.distributions.map (·.rebase 3) := by
  cases e with
  | exhaustive => exact enumerateAll_rebase hp hl hcells hadmits hfits
  | quickExact =>
    obtain ⟨r, r', hr, hr', -, hmap⟩ := exists_enumeratePruned_rebase hp hl hcells .off rfl
      (.inr ⟨rfl, fun i _ => admitsPositive_eq_false_iff.1 hadmits i⟩)
    exact ⟨r, r', hr, hr', hmap⟩

end Simulations

/-! ## The same verdict -/

/-- The outputs are judged alike in either base. -/
theorem failure?_rebase {r r' : Simulation ℝ n} {base : ℕ}
    (h : r'.distributions = r.distributions.map (·.rebase base)) (index : ℕ)
    (outputs : List (Pair × TruthTable)) :
    r'.failure? index outputs = r.failure? index outputs := by
  rw [Simulation.failure?, Simulation.failure?, Simulation.groundState?_of_map h fun _ => rfl,
    Simulation.spectrum_of_map h fun _ => rfl]
  cases r.groundState? with
  | none => rfl
  | some s => rfl

/-- Gate options with another base. -/
def GateOptions.rebase (o : GateOptions ℝ) (base : ℕ) : GateOptions ℝ :=
  { o with parameters := { o.parameters with base } }

section Gate

variable {l : Layout ℝ} {o : GateOptions ℝ}

/-- An input combination is judged alike in base 2 and in base 3. -/
theorem checkInput_rebase (hp : (o.rebase 2).parameters.check = .ok ())
    (hcells : l.isEmpty = false) (hfits : 3 ^ l.size ≤ 2 ^ 64) (index : ℕ)
    (outputs : List (Pair × TruthTable)) :
    l.checkInput index outputs (o.rebase 2) = l.checkInput index outputs (o.rebase 3) := by
  have hp' : (o.rebase 3).parameters.check = .ok () := check_rebase hp (.inr rfl)
  have hprescan : ∀ base, l.admitsPositive (o.rebase base).parameters
      = l.admitsPositive o.parameters := fun _ => rfl
  rw [Layout.checkInput, Layout.checkInput, hprescan, hprescan]
  cases hadmits : l.admitsPositive o.parameters with
  | true => rfl
  | false =>
    rw [if_neg Bool.false_ne_true, if_neg Bool.false_ne_true]
    cases hl : l.checkDefects with
    | error cause =>
      rw [simulate_of_checkDefects_eq_error hp hl, simulate_of_checkDefects_eq_error hp' hl]
    | ok u =>
      obtain ⟨r, r', hr, hr', hmap⟩ := simulate_rebase hp hl hcells hadmits hfits o.engine
      have hr₂ : l.simulate (o.rebase 2).engine (o.rebase 2).parameters = .ok r := hr
      have hr₃ : l.simulate (o.rebase 3).engine (o.rebase 3).parameters = .ok r' := hr'
      rw [hr₂, hr₃, Except.map, Except.map, failure?_rebase hmap]

/-- Base 2 is accepted if base 3 is, and otherwise the same is wrong with both. -/
theorem check_rebase_two (p : Parameters ℝ) :
    ({ p with base := 2 } : Parameters ℝ).check = ({ p with base := 3 } : Parameters ℝ).check := rfl

end Gate

/-- **The verdict does not depend on the base.** For up to 40 cells, a gate check returns the same
verdict or the same error in base 2 and in base 3, whatever the truth tables and options are. -/
theorem assess_rebase (l : Layout ℝ) (tables : List TruthTable) (o : GateOptions ℝ)
    (hsize : l.size ≤ 40) : l.assess tables (o.rebase 2) = l.assess tables (o.rebase 3) := by
  have hcheck : (o.rebase 2).parameters.check = (o.rebase 3).parameters.check :=
    check_rebase_two o.parameters
  rw [assess_eq_bind, assess_eq_bind, ← hcheck]
  refine bind_congr_of_ok fun _ hp => bind_congr_of_ok fun _ harity => ?_
  rw [mapError_eq_ok_iff] at hp
  refine checkInputsFrom_congr fun i _ _ => ?_
  refine checkInput_rebase hp (isEmpty_layoutFor (ne_nil_of_checkArity harity) i) ?_ _ _
  have hle : ((InputTerminals.ofLayout l o.window).layoutFor i).size ≤ 40 :=
    (size_setPairs_le i _ l).trans hsize
  exact (Nat.pow_le_pow_right (by decide) hle).trans (by norm_num)

/-- The wire gets one verdict in both bases. -/
theorem assess_rebase_shortWire :
    shortWire.size ≤ 40 ∧
      ∃ a, shortWire.assess [⟨1, [false, true], rfl⟩] (twoStateGate.rebase 2) = .ok a ∧
        shortWire.assess [⟨1, [false, true], rfl⟩] (twoStateGate.rebase 3) = .ok a := by
  have hsize : shortWire.size ≤ 40 := by
    show 4 ≤ 40
    decide
  obtain ⟨a, ha⟩ := exists_assess (o := twoStateGate) (check_default (.inl rfl)) rfl
    (checkArity_shortWire (t := ⟨1, [false, true], rfl⟩) rfl) fun i _ => fitsIndices_shortWire i
  have ha₂ : shortWire.assess [⟨1, [false, true], rfl⟩] (twoStateGate.rebase 2) = .ok a := ha
  exact ⟨hsize, a, ha₂, (assess_rebase shortWire _ twoStateGate hsize) ▸ ha₂⟩

end DanglingBonds
