/-
# A valid assignment always exists

Both enumerations of a layout with cells find a valid assignment, unless base 2 forbids positive
charges that could occur. A gate check looks for positive charges first, so it never fails for want
of a valid assignment.

* `exists_distribution_simulate` : either engine finds one.
* `exists_assess` : a gate check with accepted inputs reaches a verdict.
* `assess_failure_ne` : the verdict is not that there is none.
-/
import Mathlib
import DanglingBonds.Proofs.EnergyLevels
import DanglingBonds.Proofs.Exactness
import DanglingBonds.Proofs.GrandPotential
import DanglingBonds.Proofs.InputChecks
import DanglingBonds.Proofs.InputLayouts

namespace DanglingBonds

/-! ## The enumerations -/

section Enumerations

variable {l : Layout ℝ} {p : Parameters ℝ}

/-- A simulation with a charge assignment has a distribution. -/
theorem distributions_ne_nil_of_mem_charges {n : ℕ} {r : Simulation ℝ n} {q : Vector Charge n}
    (h : q ∈ r.charges) : r.distributions ≠ [] := by
  obtain ⟨s, hs, -⟩ := List.mem_map.1 h
  exact List.ne_nil_of_mem hs

/-- The exhaustive enumeration finds a valid assignment. -/
theorem exists_distribution_enumerateAll (hp : p.check = .ok ()) (hl : l.checkDefects = .ok ())
    (hcells : l.isEmpty = false) (hadmits : p.base = 3 ∨ l.admitsPositive p = false)
    (hfits : p.base ^ l.size ≤ 2 ^ 64) :
    ∃ r, l.enumerateAll p = .ok r ∧
      ∃ q ∈ r.charges, ((Surface.ofLayout l p).withCharges q).isValid = true := by
  obtain ⟨q, hin, hstable, -⟩ := Environment.exists_isStable_settled
    (Environment.ofLayout_isReciprocal l p) (Environment.ofLayout_between_nonneg l hp)
    (Parameters.check_eq_ok_iff.1 hp).1 (hadmits.imp_right admitsPositive_eq_false_iff.1)
  obtain ⟨r, hr, -, hmem⟩ := exists_enumerateAll hp hl hcells hfits
  exact ⟨r, hr, q, (hmem q).2 ⟨hin, hstable⟩, Surface.isValid_withCharges_iff.2 hstable⟩

/-- The pruned enumeration finds a valid assignment. -/
theorem exists_distribution_enumeratePruned (hp : p.check = .ok ()) (hl : l.checkDefects = .ok ())
    (hcells : l.isEmpty = false) (detection : BaseDetection) {base : ℕ}
    (hbase : base = enumerationBase detection p
      ((Environment.ofLayout l p).freeCells.any (Environment.ofLayout l p).canBePositive))
    (hadmits : base = 3 ∨ l.admitsPositive p = false)
    (hfits : (Environment.ofLayout l p).IndicesFit base) :
    ∃ r, l.enumeratePruned p detection = .ok r ∧
      ∃ q ∈ r.charges, ((Surface.ofLayout l p).withCharges q).isValid = true := by
  obtain ⟨q, hin, hstable, hsettled⟩ := Environment.exists_isStable_settled
    (Environment.ofLayout_isReciprocal l p) (Environment.ofLayout_between_nonneg l hp)
    (hbase ▸ enumerationBase_eq_two_or_three hp detection _)
    (hadmits.imp_right admitsPositive_eq_false_iff.1)
  obtain ⟨r, hr, -, hmem, -⟩ := exists_enumeratePruned hp hl hcells detection hbase hfits
  exact ⟨r, hr, q, (hmem q).2 ⟨hin, hstable, hsettled⟩, Surface.isValid_withCharges_iff.2 hstable⟩

/-- The base that the pruned enumeration chooses itself admits every charge that can occur. -/
theorem enumerationBase_on_admits :
    enumerationBase .on p
        ((Environment.ofLayout l p).freeCells.any (Environment.ofLayout l p).canBePositive) = 3
      ∨ l.admitsPositive p = false := by
  set env := Environment.ofLayout l p with henv
  cases hany : env.freeCells.any env.canBePositive with
  | true => exact .inl rfl
  | false =>
    -- no free cell can be positive, and a fixed cell cannot either
    refine .inr (admitsPositive_eq_false_iff.2 fun i => ?_)
    cases hi : env.mustBeNegative i with
    | true => exact Environment.canBePositive_eq_false_of_mustBeNegative hi
    | false =>
      have hnone := List.any_eq_false.1 hany i (Environment.mem_freeCells_iff.2 hi)
      exact Bool.not_eq_true _ ▸ hnone

end Enumerations

/-! ## The gate check -/

/-- The numbers that an engine counts with fit in 64 bits. -/
def Layout.FitsIndices (l : Layout ℝ) (p : Parameters ℝ) : Engine → Prop
  | .exhaustive => p.base ^ l.size ≤ 2 ^ 64
  | .quickExact => (Environment.ofLayout l p).IndicesFit p.base

section Gate

variable {l : Layout ℝ} {p : Parameters ℝ} {o : GateOptions ℝ}

/-- Few cells fit. -/
theorem fitsIndices_of_pow_le (hp : p.check = .ok ()) (h : p.base ^ l.size ≤ 2 ^ 64) (e : Engine) :
    l.FitsIndices p e := by
  cases e with
  | exhaustive => exact h
  | quickExact => exact Environment.indicesFit_of_pow_le (Parameters.check_eq_ok_iff.1 hp).1 h

/-- Either engine finds a valid assignment. -/
theorem exists_distribution_simulate (hp : p.check = .ok ()) (hl : l.checkDefects = .ok ())
    (hcells : l.isEmpty = false) (hadmits : p.base = 3 ∨ l.admitsPositive p = false) {e : Engine}
    (hfits : l.FitsIndices p e) : ∃ r, l.simulate e p = .ok r ∧ r.distributions ≠ [] := by
  cases e with
  | exhaustive =>
    obtain ⟨r, hr, q, hq, -⟩ := exists_distribution_enumerateAll hp hl hcells hadmits hfits
    exact ⟨r, hr, distributions_ne_nil_of_mem_charges hq⟩
  | quickExact =>
    obtain ⟨r, hr, q, hq, -⟩ :=
      exists_distribution_enumeratePruned hp hl hcells .off rfl hadmits hfits
    exact ⟨r, hr, distributions_ne_nil_of_mem_charges hq⟩

/-- A bad output is not a missing assignment. -/
theorem firstBadOutput_ne_noValidDistribution (charge : Site → Option Charge) (index output : ℕ)
    (outputs : List (Pair × TruthTable)) :
    firstBadOutput charge index output outputs ≠ some .noValidDistribution := by
  intro h
  induction outputs generalizing output with
  | nil => cases h
  | cons e rest ih =>
    rw [firstBadOutput] at h
    split at h
    · cases h
    · split at h
      · cases h
      · exact ih (output + 1) h

/-- A simulation with distributions does not fail for want of one. -/
theorem failure?_ne_noValidDistribution {n : ℕ} {r : Simulation ℝ n} (hr : r.distributions ≠ [])
    (index : ℕ) (outputs : List (Pair × TruthTable)) :
    r.failure? index outputs ≠ some .noValidDistribution := by
  obtain ⟨s, hs, -⟩ := Simulation.exists_groundState?_eq_some hr
  rw [Simulation.failure?, hs]
  intro h
  dsimp only at h
  split at h
  · cases h
  · exact firstBadOutput_ne_noValidDistribution _ _ _ _ h

/-- The check of one input combination does not report that there is no valid assignment. -/
theorem checkInput_failure_ne (hcells : l.isEmpty = false)
    (hfits : l.FitsIndices o.parameters o.engine) {index : ℕ}
    {outputs : List (Pair × TruthTable)} {v : InputVerdict}
    (h : l.checkInput index outputs o = .ok v) : v.failure ≠ some .noValidDistribution := by
  rw [Layout.checkInput] at h
  split at h
  · cases h
    intro hpositive
    cases hpositive
  · rename_i hpositive
    obtain ⟨r, hr, rfl⟩ := map_eq_ok_iff.1 h
    obtain ⟨hp, hl⟩ := accepted_of_simulate_eq_ok hr
    obtain ⟨r', hr', hne⟩ := exists_distribution_simulate hp hl hcells
      (.inr (Bool.eq_false_of_not_eq_true hpositive)) hfits
    -- the simulation that was run is the one with distributions
    rw [hr] at hr'
    cases hr'
    exact failure?_ne_noValidDistribution hne index outputs

/-- A gate has an output. -/
theorem ne_nil_of_checkArity {tables : List TruthTable} {inputs : ℕ} {outputs : List Pair}
    (h : (checkArity tables inputs outputs.length : Except (AnalysisError ℝ) Unit) = .ok ()) :
    outputs ≠ [] := by
  intro hnil
  rw [hnil, checkArity, if_pos (.inr rfl)] at h
  cases h

/-- No gate check reports that there is no valid assignment. -/
theorem assess_failure_ne {tables : List TruthTable} {a : Assessment}
    (hfits : ∀ i < (InputTerminals.ofLayout l o.window).combinations,
      ((InputTerminals.ofLayout l o.window).layoutFor i).FitsIndices o.parameters o.engine)
    (h : l.assess tables o = .ok a) (i : ℕ) : a.failure ≠ some (i, .noValidDistribution) := by
  intro hfail
  obtain ⟨_, -, h⟩ := bind_eq_ok_iff.1 h
  obtain ⟨_, harity, h⟩ := bind_eq_ok_iff.1 h
  obtain ⟨hlt, v, hv, hreason⟩ := (exists_check_of_checkInputsFrom h).2 i _ hfail
  rw [Nat.zero_add] at hlt
  exact checkInput_failure_ne (isEmpty_layoutFor (ne_nil_of_checkArity harity) i) (hfits i hlt) hv
    hreason

/-- If every input combination gets a verdict, so does the gate. -/
theorem exists_checkInputsFrom (check : ℕ → Except (AnalysisError ℝ) InputVerdict)
    (index simulations count : ℕ) (h : ∀ i < index + count, ∃ v, check i = .ok v) :
    ∃ a, checkInputsFrom check index simulations count = .ok a := by
  induction count generalizing index simulations with
  | zero => exact ⟨_, rfl⟩
  | succ count ih =>
    obtain ⟨v, hv⟩ := h index (by omega)
    rw [checkInputsFrom, hv]
    dsimp only
    cases v.failure with
    | some reason => exact ⟨_, rfl⟩
    | none => exact ih _ _ fun i hi => h i (by omega)

/-- A gate check with accepted inputs reaches a verdict. -/
theorem exists_assess {tables : List TruthTable} (hp : o.parameters.check = .ok ())
    (hl : l.checkDefects = .ok ())
    (harity : (checkArity tables (l.pairs (some .input) o.window).length
      (l.pairs (some .output) o.window).length : Except (AnalysisError ℝ) Unit) = .ok ())
    (hfits : ∀ i < (InputTerminals.ofLayout l o.window).combinations,
      ((InputTerminals.ofLayout l o.window).layoutFor i).FitsIndices o.parameters o.engine) :
    ∃ a, l.assess tables o = .ok a := by
  have hinputs : ∀ i < 0 + (InputTerminals.ofLayout l o.window).combinations,
      ∃ v, ((InputTerminals.ofLayout l o.window).layoutFor i).checkInput i
        ((l.pairs (some .output) o.window).zip tables) o = .ok v := by
    intro i hi
    rw [Layout.checkInput]
    split
    · exact ⟨_, rfl⟩
    · rename_i hpositive
      obtain ⟨r, hr, -⟩ := exists_distribution_simulate hp
        ((checkDefects_setPairs i _ l).trans hl) (isEmpty_layoutFor (ne_nil_of_checkArity harity) i)
        (.inr (Bool.eq_false_of_not_eq_true hpositive)) (hfits i (by omega))
      exact ⟨_, map_eq_ok_iff.2 ⟨r, hr, rfl⟩⟩
  obtain ⟨a, ha⟩ := exists_checkInputsFrom _ 0 0 _ hinputs
  exact ⟨a, bind_eq_ok_iff.2 ⟨(), mapError_eq_ok_iff.2 hp, bind_eq_ok_iff.2 ⟨(), harity, ha⟩⟩⟩

end Gate

/-! ## The main result -/

/-- **A valid assignment always exists.** For a layout with cells and accepted inputs whose indices
fit, both enumerations in base 3, the pruned one in the base it chooses, and both in base 2 when no
positive charge can occur, return at least one distribution, and one that is valid; and no gate
check fails for want of one. -/
theorem exists_valid_distribution :
    (∀ (l : Layout ℝ) (p : Parameters ℝ), l.isEmpty = false → p.check = .ok () →
      l.checkDefects = .ok () →
        (p.base = 3 ∨ p.base = 2 ∧ l.admitsPositive p = false →
          (p.base ^ l.size ≤ 2 ^ 64 →
            ∃ r, l.enumerateAll p = .ok r ∧
              ∃ q ∈ r.charges, ((Surface.ofLayout l p).withCharges q).isValid = true) ∧
          ((Environment.ofLayout l p).IndicesFit p.base →
            ∃ r, l.enumeratePruned p .off = .ok r ∧
              ∃ q ∈ r.charges, ((Surface.ofLayout l p).withCharges q).isValid = true)) ∧
        ((Environment.ofLayout l p).IndicesFit (enumerationBase .on p
            ((Environment.ofLayout l p).freeCells.any (Environment.ofLayout l p).canBePositive)) →
          ∃ r, l.enumeratePruned p .on = .ok r ∧
            ∃ q ∈ r.charges, ((Surface.ofLayout l p).withCharges q).isValid = true)) ∧
    ∀ (l : Layout ℝ) (tables : List TruthTable) (o : GateOptions ℝ),
      (∀ i < (InputTerminals.ofLayout l o.window).combinations,
        ((InputTerminals.ofLayout l o.window).layoutFor i).FitsIndices o.parameters o.engine) →
      ∀ a, l.assess tables o = .ok a → ∀ i, a.failure ≠ some (i, .noValidDistribution) := by
  refine ⟨fun l p hcells hp hl => ⟨fun hbase => ⟨fun hfits => ?_, fun hfits => ?_⟩,
    fun hfits => ?_⟩, fun l tables o hfits a h i => assess_failure_ne hfits h i⟩
  · exact exists_distribution_enumerateAll hp hl hcells (hbase.imp_right And.right) hfits
  · exact exists_distribution_enumeratePruned hp hl hcells .off rfl (hbase.imp_right And.right)
      hfits
  · exact exists_distribution_enumeratePruned hp hl hcells .on rfl enumerationBase_on_admits hfits

/-- An input pair and an output pair on one row. -/
def shortWireCells : List (Site × Role) :=
  [(⟨0, 0, 0⟩, .input), (⟨2, 0, 0⟩, .input), (⟨6, 0, 0⟩, .output), (⟨8, 0, 0⟩, .output)]

theorem shortWireCells_ascending : Ascending shortWireCells := by
  unfold Ascending
  decide

/-- The layout of these cells. -/
noncomputable def shortWire : Layout ℝ :=
  { Layout.empty .si100 with cells := ⟨shortWireCells, shortWireCells_ascending⟩ }

theorem pairs_shortWire (r : Role) {a b : Site} (x : ℤ) (ha : a = ⟨x, 0, 0⟩)
    (hb : b = ⟨x + 2, 0, 0⟩) (hsites : shortWire.sitesWithRole (some r) = [a, b]) :
    shortWire.pairs (some r) default = [Pair.ofCells ℝ .si100 a b] := by
  have hdistance : (shortWire.lattice.distance a b : ℝ) = 0.768 := by
    rw [ha, hb]
    exact distance_two_columns x
  refine pairs_eq_singleton hsites ?_ ?_
  · rw [hdistance]
    show (0.75 : ℝ) ≤ 0.768
    norm_num
  · rw [hdistance]
    show (0.768 : ℝ) ≤ 1.5
    norm_num

/-- The preset options of a gate check in base 2. -/
noncomputable def twoStateGate : GateOptions ℝ where
  parameters := { (default : Parameters ℝ) with base := 2 }
  engine := .quickExact
  window := default

/-- Every input combination of the wire has few cells. -/
theorem two_pow_size_shortWire_le (i : ℕ) :
    2 ^ ((InputTerminals.ofLayout shortWire twoStateGate.window).layoutFor i).size ≤ 2 ^ 64 := by
  have hsize : ((InputTerminals.ofLayout shortWire twoStateGate.window).layoutFor i).size ≤ 4 :=
    size_setPairs_le i _ shortWire
  exact (Nat.pow_le_pow_right Nat.two_pos hsize).trans (by norm_num)

theorem fitsIndices_shortWire (i : ℕ) :
    ((InputTerminals.ofLayout shortWire twoStateGate.window).layoutFor i).FitsIndices
      twoStateGate.parameters twoStateGate.engine :=
  fitsIndices_of_pow_le (check_default (.inl rfl)) (two_pow_size_shortWire_le i) _

/-- The wire has one input pair and one output pair. -/
theorem checkArity_shortWire {t : TruthTable} (ht : t.vars = 1) :
    (checkArity [t] (shortWire.pairs (some .input) default).length
      (shortWire.pairs (some .output) default).length : Except (AnalysisError ℝ) Unit)
        = .ok () := by
  have hinput : shortWire.pairs (some .input) default
      = [Pair.ofCells ℝ .si100 ⟨0, 0, 0⟩ ⟨2, 0, 0⟩] := pairs_shortWire .input 0 rfl rfl rfl
  have houtput : shortWire.pairs (some .output) default
      = [Pair.ofCells ℝ .si100 ⟨6, 0, 0⟩ ⟨8, 0, 0⟩] := pairs_shortWire .output 6 rfl rfl rfl
  rw [hinput, houtput, checkArity, if_neg (by simp), List.find?_singleton, if_neg (by simp [ht])]

/-- The check of the wire as a gate reaches a verdict, and not for want of a valid assignment. -/
theorem assess_shortWire :
    twoStateGate.parameters.check = .ok () ∧ shortWire.checkDefects = .ok () ∧
      shortWire.isEmpty = false ∧
      (∃ r, shortWire.enumeratePruned twoStateGate.parameters .on = .ok r ∧ ∃ q ∈ r.charges,
        ((Surface.ofLayout shortWire twoStateGate.parameters).withCharges q).isValid = true) ∧
      ∃ a, shortWire.assess [⟨1, [false, true], rfl⟩] twoStateGate = .ok a ∧
        ∀ i, a.failure ≠ some (i, .noValidDistribution) := by
  have hp : twoStateGate.parameters.check = .ok () := check_default (.inl rfl)
  have hinput : shortWire.pairs (some .input) twoStateGate.window
      = [Pair.ofCells ℝ .si100 ⟨0, 0, 0⟩ ⟨2, 0, 0⟩] := pairs_shortWire .input 0 rfl rfl rfl
  have houtput : shortWire.pairs (some .output) twoStateGate.window
      = [Pair.ofCells ℝ .si100 ⟨6, 0, 0⟩ ⟨8, 0, 0⟩] := pairs_shortWire .output 6 rfl rfl rfl
  have harity : (checkArity [⟨1, [false, true], rfl⟩]
      (shortWire.pairs (some .input) twoStateGate.window).length
      (shortWire.pairs (some .output) twoStateGate.window).length
        : Except (AnalysisError ℝ) Unit) = .ok () := by
    rw [hinput, houtput]
    rfl
  have hfits : ∀ i < (InputTerminals.ofLayout shortWire twoStateGate.window).combinations, _ :=
    fun i _ => fitsIndices_shortWire i
  obtain ⟨a, ha⟩ := exists_assess hp rfl harity hfits
  refine ⟨hp, rfl, rfl, ?_, a, ha, exists_valid_distribution.2 _ _ _ hfits a ha⟩
  refine (exists_valid_distribution.1 _ _ rfl hp rfl).2 ?_
  have hpow : ∀ b, b = 2 ∨ b = 3 → b ^ shortWire.size ≤ 2 ^ 64 := by
    have hsize : shortWire.size = 4 := rfl
    intro b hb
    rw [hsize]
    rcases hb with rfl | rfl
    · norm_num
    · norm_num
  have hbase := enumerationBase_eq_two_or_three hp .on
    ((Environment.ofLayout shortWire twoStateGate.parameters).freeCells.any
      (Environment.ofLayout shortWire twoStateGate.parameters).canBePositive)
  exact Environment.indicesFit_of_pow_le hbase (hpow _ hbase)

end DanglingBonds
