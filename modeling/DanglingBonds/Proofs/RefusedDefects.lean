/-
# Defects that are refused

A gate check leaves it to its simulations to check the defects of the layout. If the first input
combination is not simulated, because some cell can be positive, it ends there with a verdict, and a
defect that a simulation would have refused is not reported.

* `assess_of_checkDefects_eq_error` : a refused defect is reported if a simulation is run.
* `assess_of_admitsPositive` : without a simulation there is a verdict.
* `assess_of_refused_defect` : when a gate check reports a refused defect.
-/
import Mathlib
import DanglingBonds.Domain.Exploration
import DanglingBonds.Proofs.InputVerdicts

namespace DanglingBonds

variable {α : Type} [Scalar α]

/-! ## Gate checks -/

section Gate

variable {l : Layout α} {tables : List TruthTable} {o : GateOptions α}
  (hp : o.parameters.check = .ok ())
  (harity : (checkArity tables (l.pairs (some .input) o.window).length
    (l.pairs (some .output) o.window).length : Except (AnalysisError α) Unit) = .ok ())

include hp harity

/-- If some cell can be positive under the first input combination, the check ends there. -/
theorem assess_of_admitsPositive
    (h : ((InputTerminals.ofLayout l o.window).layoutFor 0).admitsPositive o.parameters = true) :
    l.assess tables o = .ok ⟨some (0, .positiveCharges), 0⟩ := by
  have hcheck : l.checkCombination tables o 0 = .ok ⟨false, some .positiveCharges⟩ := by
    rw [Layout.checkCombination, Layout.checkInput, if_pos h]
  rw [assess_eq_checkInputsFrom hp harity]
  exact checkInputsFrom_of_fails (Nat.two_pow_pos _) (fun i hi => absurd hi i.not_lt_zero) hcheck

/-- If none can, the simulation of the first input combination reports a refused defect. -/
theorem assess_of_checkDefects_eq_error {cause : ParameterError α}
    (hl : l.checkDefects = .error cause)
    (h : ((InputTerminals.ofLayout l o.window).layoutFor 0).admitsPositive o.parameters = false) :
    l.assess tables o = .error (.parameters cause) := by
  have hsimulate := simulate_of_checkDefects_eq_error hp
    ((checkDefects_setPairs 0 (l.pairs (some .input) o.window) l).trans hl) o.engine
  have hcheck : l.checkCombination tables o 0 = .error (.parameters cause) := by
    rw [Layout.checkCombination, Layout.checkInput, h, if_neg Bool.false_ne_true]
    exact congrArg (Except.map _) hsimulate
  rw [assess_eq_checkInputsFrom hp harity]
  exact checkInputsFrom_of_error (Nat.two_pow_pos _) (fun i hi => absurd hi i.not_lt_zero) hcheck

end Gate

/-! ## Explorations -/

/-- An error of the oracle ends an exploration, which keeps what it has learnt. -/
theorem evaluate_eq_error_iff {ε : Type} {oracle : Oracle ε} {p : GridIndex}
    {survey survey' : Exploration} {e : ε} :
    (Explore.evaluate oracle p).run survey = .error e survey'
      ↔ oracle p = .error e ∧ survey' = survey := by
  rw [Explore.evaluate]
  cases oracle p with
  | error e' =>
    constructor
    · intro h
      cases h
      exact ⟨rfl, rfl⟩
    · rintro ⟨h, rfl⟩
      cases h
      rfl
  | ok a =>
    constructor
    · intro h
      cases h
    · rintro ⟨h, -⟩
      cases h

/-! ## The main result -/

/-- The error of the first defect of a layout that is refused. -/
def Layout.IsFirstRefusal (l : Layout α) (cause : ParameterError α) : Prop :=
  ∃ before d after, l.defects.values = before ++ d :: after ∧
    (∀ d' ∈ before, d'.check = .ok ()) ∧ d.check = .error cause

/-- **Refused defects.** Let the parameters be accepted, one truth table be given for each output
pair with an input for each input pair, and some defect be refused. Then a gate check, and with it
the evaluation of a grid point by an exploration, reports the first defect that is refused exactly
if no cell can be positive under the first input combination. Otherwise the verdict is that some
cell can be. This holds in rounded arithmetic as well. -/
theorem assess_of_refused_defect {l : Layout α} {tables : List TruthTable} {o : GateOptions α}
    (hp : o.parameters.check = .ok ())
    (hcount : tables.length = (l.pairs (some .output) o.window).length)
    (houtputs : l.pairs (some .output) o.window ≠ [])
    (hvars : ∀ t ∈ tables, t.vars = (l.pairs (some .input) o.window).length)
    (hrefused : ∃ d ∈ l.defects.values, d.check ≠ .ok ()) :
    let first := (InputTerminals.ofLayout l o.window).layoutFor 0
    ∃ cause, l.IsFirstRefusal cause ∧
      (l.assess tables o = .error (.parameters cause)
        ↔ first.admitsPositive o.parameters = false) ∧
      (first.admitsPositive o.parameters = true →
        l.assess tables o = .ok ⟨some (0, .positiveCharges), 0⟩) ∧
      ∀ (domain : DomainOptions α) (p : GridIndex) (survey : Exploration), domain.gateAt p = o →
        ((Explore.evaluate (fun p => l.assess tables (domain.gateAt p)) p).run survey
            = .error (.parameters cause) survey
          ↔ first.admitsPositive o.parameters = false) := by
  intro first
  have harity : (checkArity tables (l.pairs (some .input) o.window).length
      (l.pairs (some .output) o.window).length : Except (AnalysisError α) Unit) = .ok () :=
    checkArity_eq_ok_iff.2 ⟨hcount, List.length_eq_zero_iff.not.2 houtputs, hvars⟩
  obtain ⟨before, d, after, cause, hvalues, hbefore, hcause, hl⟩ := exists_first_error hrefused
  have hverdict : first.admitsPositive o.parameters = true →
      l.assess tables o = .ok ⟨some (0, .positiveCharges), 0⟩ := assess_of_admitsPositive hp harity
  have hreported : l.assess tables o = .error (.parameters cause)
      ↔ first.admitsPositive o.parameters = false := by
    refine ⟨fun h => Bool.eq_false_of_not_eq_true fun hpositive => ?_,
      assess_of_checkDefects_eq_error hp harity hl⟩
    rw [hverdict hpositive] at h
    cases h
  refine ⟨cause, ⟨before, d, after, hvalues, hbefore, hcause⟩, hreported, hverdict, ?_⟩
  rintro domain p survey rfl
  rw [evaluate_eq_error_iff, ← hreported]
  exact and_iff_left rfl

/-! ## An output pair beside a defect -/

/-- Two output cells on one row. -/
def outputPairCells : List (Site × Role) :=
  [(⟨6, 0, 0⟩, .output), (⟨8, 0, 0⟩, .output)]

theorem outputPairCells_ascending : Ascending outputPairCells := by
  unfold Ascending
  decide

/-- The two cells at an applied potential, and beside them a defect with a negative screening
length. -/
noncomputable def outputPairBesideDefect (potential charge : ℝ) : Layout ℝ :=
  { Layout.empty .si100 with
    cells := ⟨outputPairCells, outputPairCells_ascending⟩
    defects := ⟨[(⟨10, 0, 0⟩, ⟨charge, 5.6, -5⟩)], List.pairwise_singleton _ _⟩
    globalPotential := potential }

section OutputPair

variable {potential charge : ℝ}

theorem pairs_outputPairBesideDefect :
    (outputPairBesideDefect potential charge).pairs (some .output) default
      = [Pair.ofCells ℝ .si100 ⟨6, 0, 0⟩ ⟨8, 0, 0⟩] := by
  have hdistance : (Lattice.si100.distance ⟨6, 0, 0⟩ ⟨8, 0, 0⟩ : ℝ) = 0.768 :=
    distance_two_columns 6
  refine pairs_eq_singleton rfl ?_ ?_
  · show (0.75 : ℝ) ≤ Lattice.si100.distance ⟨6, 0, 0⟩ ⟨8, 0, 0⟩
    rw [hdistance]
    norm_num
  · show (Lattice.si100.distance ⟨6, 0, 0⟩ ⟨8, 0, 0⟩ : ℝ) ≤ 1.5
    rw [hdistance]
    norm_num

/-- The pair is a gate without inputs. -/
theorem outputPairBesideDefect_terminals (potential charge : ℝ) :
    ([⟨0, [true], rfl⟩] : List TruthTable).length
        = ((outputPairBesideDefect potential charge).pairs (some .output) default).length ∧
      (outputPairBesideDefect potential charge).pairs (some .output) default ≠ [] ∧
      (outputPairBesideDefect potential charge).pairs (some .input) default = [] := by
  rw [pairs_outputPairBesideDefect]
  exact ⟨rfl, List.cons_ne_nil _ _, rfl⟩

/-- Its defect is refused. -/
theorem check_defect_outputPairBesideDefect :
    ∃ d ∈ (outputPairBesideDefect potential charge).defects.values, d.check ≠ .ok () := by
  refine ⟨⟨charge, 5.6, -5⟩, List.mem_singleton_self _, fun h => ?_⟩
  have hlambda : (0 : ℝ) < -5 := (checkScreening_eq_ok_iff.1 h).2
  norm_num at hlambda

/-- The defect acts on a site with the sign of its charge. -/
theorem exists_defectPotential_eq (potential charge : ℝ) (s : Site) :
    ∃ v, 0 ≤ v ∧ (outputPairBesideDefect potential charge).defectPotential s = charge * v :=
  ⟨_, screenedPotential_nonneg (by norm_num : (0 : ℝ) < 5.6)
    (Lattice.si100.distance s ⟨10, 0, 0⟩) (-5), zero_add _⟩

theorem between_outputPairBesideDefect_le
    (i j : Fin (outputPairBesideDefect potential charge).size) :
    (Environment.ofLayout (outputPairBesideDefect potential charge)
      twoStateGate.parameters).between i j ≤ 0.36 := by
  rw [Environment.between_ofLayout]
  split
  · norm_num
  · rename_i hij
    have hdistance : (Lattice.si100.distance
        ((Environment.ofLayout (outputPairBesideDefect potential charge)
          twoStateGate.parameters).sites.get i)
        ((Environment.ofLayout (outputPairBesideDefect potential charge)
          twoStateGate.parameters).sites.get j) : ℝ) = 0.768 := by
      -- there are two cells, so the two sites are those of the pair, in either order
      change Fin 2 at i j
      fin_cases i
      · fin_cases j
        · exact absurd rfl hij
        · exact distance_two_columns 6
      · fin_cases j
        · exact (Lattice.distance_comm _ _ _).trans (distance_two_columns 6)
        · exact absurd rfl hij
    exact (congrArg (screenedPotential · 5.6 5.0) hdistance).le.trans
      screenedPotential_two_columns_le

/-- Beside a defect that is not negative, without an applied potential, no cell can be positive. -/
theorem admitsPositive_outputPairBesideDefect (hcharge : 0 ≤ charge) :
    (outputPairBesideDefect 0 charge).admitsPositive twoStateGate.parameters = false := by
  refine admitsPositive_eq_false_iff.2 fun i => Environment.canBePositive_eq_false_iff.2 ?_
  set env := Environment.ofLayout (outputPairBesideDefect 0 charge) twoStateGate.parameters
    with henv
  have hsum : ∑ j, env.between i j ≤ 2 * 0.36 := by
    have hle := Finset.sum_le_card_nsmul Finset.univ (env.between i) 0.36
      fun j _ => between_outputPairBesideDefect_le i j
    rwa [Finset.card_univ, Fintype.card_fin, nsmul_eq_mul] at hle
  have hexternal : 0 ≤ env.external.get i := by
    obtain ⟨v, hv, heq⟩ := exists_defectPotential_eq 0 charge (env.sites.get i)
    have happlied : env.external.get i = charge * v + 0 + 0 := by
      rw [henv, Environment.external_ofLayout, heq]
      rfl
    rw [happlied, add_zero, add_zero]
    exact mul_nonneg hcharge hv
  rw [Environment.lowestPotential_eq_sum]
  show -(env.external.get i - ∑ j, env.between i j) + (-0.32 - 0.59) ≤ -(1e-6 : ℝ)
  linarith

end OutputPair

/-- Beside a positive defect the refused screening length is reported. -/
theorem assess_of_refused_defect_outputPair :
    let l := outputPairBesideDefect 0 1
    twoStateGate.parameters.check = .ok () ∧
      (l.pairs (some .output) twoStateGate.window).length = 1 ∧
      l.pairs (some .input) twoStateGate.window = [] ∧
      (∃ d ∈ l.defects.values, d.check ≠ .ok ()) ∧
      ∃ cause, l.IsFirstRefusal cause ∧
        l.assess [⟨0, [true], rfl⟩] twoStateGate = .error (.parameters cause) := by
  intro l
  have hp : twoStateGate.parameters.check = .ok () := check_default (.inl rfl)
  obtain ⟨hcount, houtputs, hinputs⟩ := outputPairBesideDefect_terminals 0 1
  have hvars : ∀ t ∈ ([⟨0, [true], rfl⟩] : List TruthTable),
      t.vars = (l.pairs (some .input) twoStateGate.window).length := by
    intro t ht
    rw [List.mem_singleton.1 ht]
    rfl
  obtain ⟨cause, hcause, hreported, -⟩ := assess_of_refused_defect (l := l) hp hcount houtputs hvars
    check_defect_outputPairBesideDefect
  exact ⟨hp, hcount.symm, hinputs, check_defect_outputPairBesideDefect, cause, hcause,
    hreported.2 (admitsPositive_outputPairBesideDefect zero_le_one)⟩

/-- At an applied potential far below both transition levels, the same fault of a negative defect is
not reported: the gate gets a verdict. -/
theorem refused_defect_unreported_outputPair :
    let l := outputPairBesideDefect (-2) (-1)
    twoStateGate.parameters.check = .ok () ∧
      (l.pairs (some .output) twoStateGate.window).length = 1 ∧
      l.pairs (some .input) twoStateGate.window = [] ∧
      (∃ d ∈ l.defects.values, d.check ≠ .ok ()) ∧
      l.assess [⟨0, [true], rfl⟩] twoStateGate = .ok ⟨some (0, .positiveCharges), 0⟩ := by
  intro l
  have hp : twoStateGate.parameters.check = .ok () := check_default (.inl rfl)
  obtain ⟨hcount, houtputs, hinputs⟩ := outputPairBesideDefect_terminals (-2) (-1)
  have harity : (checkArity [⟨0, [true], rfl⟩]
      (l.pairs (some .input) twoStateGate.window).length
      (l.pairs (some .output) twoStateGate.window).length
        : Except (AnalysisError ℝ) Unit) = .ok () := by
    refine checkArity_eq_ok_iff.2 ⟨hcount, List.length_eq_zero_iff.not.2 houtputs, fun t ht => ?_⟩
    rw [List.mem_singleton.1 ht]
    rfl
  have hlow : ∀ s, l.defectPotential s + l.localPotential s + l.globalPotential
      ≤ twoStateGate.parameters.muPlus := by
    intro s
    obtain ⟨v, hv, heq⟩ := exists_defectPotential_eq (-2) (-1) s
    rw [heq]
    show (-1 : ℝ) * v + 0 + -2 ≤ -0.32 - 0.59
    linarith
  have hpositive := canBePositive_layoutFor (w := twoStateGate.window) hp houtputs hlow 0
  exact ⟨hp, hcount.symm, hinputs, check_defect_outputPairBesideDefect,
    assess_of_admitsPositive hp harity (admitsPositive_eq_true_iff.2 hpositive)⟩

end DanglingBonds
