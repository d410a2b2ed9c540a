/-
# Checking input combinations one after the other

A gate check goes through the input combinations until one fails. Inputs that pass are counted and
left behind, so the verdict depends on the first input that does not pass alone.

* `checkArity_eq_ok_iff` : the truth tables that fit a gate.
* `assess_eq_bind`, `assess_eq_checkInputsFrom` : a gate check with accepted parameters and tables.
* `checkInputsFrom_add` : inputs that pass are left behind.
* `checkInputsFrom_of_passes`, `checkInputsFrom_of_fails`, `checkInputsFrom_of_error` : the outcome
  of a whole run.
* `checkInputsFrom_congr` : the verdict is that of the checks.
* `exists_check_of_checkInputsFrom` : what a run has seen.
* `exists_check_of_assess` : an input that a verdict reports as passing has passed its check.
-/
import Mathlib
import DanglingBonds.Gate
import DanglingBonds.Proofs.AcceptedInputs

namespace DanglingBonds

variable {α : Type}

/-! ## Accepted gates -/

/-- Truth tables fit when there is one for each output pair, at least one, and each has an input for
every input pair. -/
theorem checkArity_eq_ok_iff {tables : List TruthTable} {inputs outputs : ℕ} :
    (checkArity tables inputs outputs : Except (AnalysisError α) Unit) = .ok () ↔
      tables.length = outputs ∧ outputs ≠ 0 ∧ ∀ t ∈ tables, t.vars = inputs := by
  rw [checkArity]
  split
  · rename_i h
    refine iff_of_false (by simp) ?_
    rintro ⟨hcount, hne, -⟩
    exact h.elim (fun h => h hcount) hne
  · rename_i h
    push Not at h
    split
    · rename_i t ht
      have hvars := List.find?_some ht
      refine iff_of_false (by simp) ?_
      rintro ⟨-, -, hall⟩
      exact (of_decide_eq_true hvars) (hall t (List.mem_of_find?_eq_some ht))
    · rename_i hnone
      refine iff_of_true rfl ⟨h.1, h.2, fun t ht => ?_⟩
      have hvars := List.find?_eq_none.1 hnone t ht
      rwa [decide_eq_true_iff, not_not] at hvars

section Gate

variable [Scalar α] {l : Layout α} {tables : List TruthTable} {o : GateOptions α}

/-- The check of input combination `i` in a gate check. -/
def Layout.checkCombination (l : Layout α) (tables : List TruthTable)
    (o : GateOptions α) (i : ℕ) : Except (AnalysisError α) InputVerdict :=
  ((InputTerminals.ofLayout l o.window).layoutFor i).checkInput i
    ((l.pairs (some .output) o.window).zip tables) o

/-- A gate check looks at the parameters, then at the tables, then at the input combinations. -/
theorem assess_eq_bind (l : Layout α) (tables : List TruthTable) (o : GateOptions α) :
    l.assess tables o = o.parameters.check.mapError .parameters >>= fun _ =>
      checkArity tables (l.pairs (some .input) o.window).length
        (l.pairs (some .output) o.window).length >>= fun _ =>
      checkInputsFrom (l.checkCombination tables o) 0 0
        (2 ^ (l.pairs (some .input) o.window).length) := rfl

/-- With accepted parameters and tables that fit, a gate check goes through all input
combinations. -/
theorem assess_eq_checkInputsFrom (hp : o.parameters.check = .ok ())
    (harity : (checkArity tables (l.pairs (some .input) o.window).length
      (l.pairs (some .output) o.window).length : Except (AnalysisError α) Unit) = .ok ()) :
    l.assess tables o = checkInputsFrom (l.checkCombination tables o) 0 0
      (2 ^ (l.pairs (some .input) o.window).length) := by
  rw [assess_eq_bind, hp, harity]
  rfl

end Gate

/-! ## Runs over input combinations -/

section Runs

variable {check check' : ℕ → Except (AnalysisError α) InputVerdict}
  {index simulations count : ℕ}

/-- Inputs that pass are counted and left behind. -/
theorem checkInputsFrom_add {m : ℕ}
    (h : ∀ i, index ≤ i → i < index + m → check i = .ok ⟨true, none⟩) :
    checkInputsFrom check index simulations (m + count)
      = checkInputsFrom check (index + m) (simulations + m) count := by
  induction m generalizing index simulations with
  | zero => rw [Nat.zero_add, Nat.add_zero, Nat.add_zero]
  | succ m ih =>
    have hfirst := h index le_rfl (by omega)
    have hrest : ∀ i, index + 1 ≤ i → i < index + 1 + m → check i = .ok ⟨true, none⟩ :=
      fun i hi hi' => h i (by omega) (by omega)
    rw [Nat.add_right_comm, checkInputsFrom, hfirst]
    dsimp only
    rw [if_pos rfl, ih hrest, Nat.add_assoc, Nat.add_assoc, Nat.add_comm 1 m]

/-- The verdict depends on the checks of the inputs alone. -/
theorem checkInputsFrom_congr (h : ∀ i, index ≤ i → i < index + count → check i = check' i) :
    checkInputsFrom check index simulations count
      = checkInputsFrom check' index simulations count := by
  induction count generalizing index simulations with
  | zero => rfl
  | succ count ih =>
    have hrest : ∀ i, index + 1 ≤ i → i < index + 1 + count → check i = check' i :=
      fun i hi hi' => h i (by omega) (by omega)
    rw [checkInputsFrom, checkInputsFrom, h index le_rfl (by omega)]
    cases check' index with
    | error e => rfl
    | ok v =>
      dsimp only
      cases v.failure with
      | some reason => rfl
      | none => exact ih hrest

/-- If every input passes, all are counted. -/
theorem checkInputsFrom_of_passes (h : ∀ i < count, check i = .ok ⟨true, none⟩) :
    checkInputsFrom check 0 0 count = .ok ⟨none, count⟩ := by
  have hrun : checkInputsFrom check 0 0 (count + 0)
      = checkInputsFrom check (0 + count) (0 + count) 0 :=
    checkInputsFrom_add fun i _ hi => h i (by omega)
  rw [Nat.add_zero, Nat.zero_add] at hrun
  exact hrun

/-- **The first input that fails** decides: those before it are counted, and it is too if it was
simulated. -/
theorem checkInputsFrom_of_fails {m : ℕ} {simulated : Bool} {reason : FailureReason}
    (hm : m < count) (hbefore : ∀ i < m, check i = .ok ⟨true, none⟩)
    (hfails : check m = .ok ⟨simulated, some reason⟩) :
    checkInputsFrom check 0 0 count
      = .ok ⟨some (m, reason), if simulated then m + 1 else m⟩ := by
  obtain ⟨rest, rfl⟩ := Nat.exists_eq_add_of_lt hm
  rw [Nat.add_assoc, checkInputsFrom_add fun i _ hi => hbefore i (by omega), Nat.zero_add,
    checkInputsFrom, hfails]

/-- A check that is refused ends the run. -/
theorem checkInputsFrom_of_error {m : ℕ} {e : AnalysisError α} (hm : m < count)
    (hbefore : ∀ i < m, check i = .ok ⟨true, none⟩) (herror : check m = .error e) :
    checkInputsFrom check 0 0 count = .error e := by
  obtain ⟨rest, rfl⟩ := Nat.exists_eq_add_of_lt hm
  rw [Nat.add_assoc, checkInputsFrom_add fun i _ hi => hbefore i (by omega), Nat.zero_add,
    checkInputsFrom, herror]

/-- The verdict reports input combination `i` as passing: the first that fails comes later, or none
does. -/
def Assessment.Passes (a : Assessment) (i : ℕ) : Prop :=
  ∀ m reason, a.failure = some (m, reason) → i < m

/-- A gate that works passes every input combination. -/
theorem Assessment.passes_of_operational {a : Assessment} (h : a.status = .operational) (i : ℕ) :
    a.Passes i := by
  intro m reason hfail
  rw [status, hfail] at h
  cases h

/-- **What a run has seen.** The checks of the inputs that are reported as passing have found
nothing, and the failure is what the check of its input has found. -/
theorem exists_check_of_checkInputsFrom {a : Assessment}
    (h : checkInputsFrom check index simulations count = .ok a) :
    (∀ i, index ≤ i → i < index + count → a.Passes i →
      ∃ v, check i = .ok v ∧ v.failure = none) ∧
    ∀ i reason, a.failure = some (i, reason) →
      i < index + count ∧ ∃ v, check i = .ok v ∧ v.failure = some reason := by
  induction count generalizing index simulations with
  | zero =>
    cases h
    exact ⟨fun i hfrom hi => absurd hi (not_lt.2 hfrom), fun i reason hfail => by cases hfail⟩
  | succ count ih =>
    rw [checkInputsFrom] at h
    cases hv : check index with
    | error e =>
      rw [hv] at h
      cases h
    | ok v =>
      rw [hv] at h
      dsimp only at h
      cases hreason : v.failure with
      | some reason =>
        -- the run has stopped here
        rw [hreason] at h
        cases h
        refine ⟨fun i hfrom _ hpasses => ?_, fun i reason' hfail => ?_⟩
        · exact absurd (hpasses index reason rfl) (not_lt.2 hfrom)
        · cases hfail
          exact ⟨by omega, v, hv, hreason⟩
      | none =>
        rw [hreason] at h
        obtain ⟨hpass, hfails⟩ := ih h
        refine ⟨fun i hfrom hi hpasses => ?_, fun i reason hfail => ?_⟩
        · rcases Nat.eq_or_lt_of_le hfrom with rfl | hlt
          · exact ⟨v, hv, hreason⟩
          · exact hpass i hlt (by omega) hpasses
        · obtain ⟨hlt, hcheck⟩ := hfails i reason hfail
          exact ⟨by omega, hcheck⟩

end Runs

/-! ## Verdicts on a gate -/

section Verdicts

variable [Scalar α] {l : Layout α} {tables : List TruthTable} {o : GateOptions α} {a : Assessment}

/-- A gate check that reaches a verdict has accepted its parameters and its tables. -/
theorem accepted_of_assess (h : l.assess tables o = .ok a) :
    o.parameters.check = .ok () ∧
      tables.length = (l.pairs (some .output) o.window).length ∧
      l.pairs (some .output) o.window ≠ [] ∧
      ∀ t ∈ tables, t.vars = (l.pairs (some .input) o.window).length := by
  rw [assess_eq_bind] at h
  obtain ⟨_, hp, h⟩ := bind_eq_ok_iff.1 h
  obtain ⟨_, harity, -⟩ := bind_eq_ok_iff.1 h
  obtain ⟨hcount, hne, hvars⟩ := checkArity_eq_ok_iff.1 harity
  exact ⟨mapError_eq_ok_iff.1 hp, hcount, List.length_eq_zero_iff.not.1 hne, hvars⟩

/-- **Every input combination is visited**: one that a verdict reports as passing has passed its
check. -/
theorem exists_check_of_assess (h : l.assess tables o = .ok a) {i : ℕ}
    (hi : i < 2 ^ (l.pairs (some .input) o.window).length) (hpasses : a.Passes i) :
    ∃ v, l.checkCombination tables o i = .ok v ∧ v.failure = none := by
  rw [assess_eq_bind] at h
  obtain ⟨_, -, h⟩ := bind_eq_ok_iff.1 h
  obtain ⟨_, -, h⟩ := bind_eq_ok_iff.1 h
  exact (exists_check_of_checkInputsFrom h).1 i i.zero_le (by rwa [Nat.zero_add]) hpasses

end Verdicts

end DanglingBonds
