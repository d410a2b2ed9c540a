/-
# Enumerations in lockstep

Two surfaces that judge every assignment alike go through an enumeration in lockstep: from the same
charges each loop leads both to the same charges, and what is found on the way corresponds.

* `Lockstep` : two surfaces that settle alike and find the same assignments valid.
* `RunsAlong` : a part of an enumeration that keeps two surfaces together.
* `Lockstep.walkAll_eq_map` : whole walks.
* `Lockstep.testIndices_eq_map` : whole runs over charge indices.
-/
import Mathlib
import DanglingBonds.Proofs.Engines

namespace DanglingBonds

variable {n : ℕ}

/-- Two surfaces that settle the dependent cell alike and find the same assignments valid. What is
found from the first corresponds by `carry` to what is found from the second. -/
structure Lockstep (s s' : Surface ℝ n) (carry : Surface ℝ n → Surface ℝ n) : Prop where
  isReciprocal : s.env.IsReciprocal
  isReciprocal' : s'.env.IsReciprocal
  settle_eq : ∀ q, s'.env.settle s'.base s'.dependent q = s.env.settle s.base s.dependent q
  isValid_eq : ∀ q, (s'.withCharges q).isValid = (s.withCharges q).isValid
  carry_withCharges : ∀ q, carry (s.withCharges q) = s'.withCharges q

/-- From the same charges, a part of an enumeration leads both surfaces to the same charges, and
what it finds corresponds. -/
def RunsAlong (s s' : Surface ℝ n) (carry : Surface ℝ n → Surface ℝ n)
    (visit : Surface ℝ n → List (Surface ℝ n) → Surface ℝ n × List (Surface ℝ n)) : Prop :=
  ∀ (q : Vector Charge n) (found : List (Surface ℝ n)),
    ∃ (q' : Vector Charge n) (found' : List (Surface ℝ n)),
      visit (s.withCharges q) found = (s.withCharges q', found') ∧
      visit (s'.withCharges q) (found.map carry) = (s'.withCharges q', found'.map carry)

namespace Lockstep

variable {s s' : Surface ℝ n} {carry : Surface ℝ n → Surface ℝ n} (h : Lockstep s s' carry)

include h

/-! ## One assignment -/

/-- Of both surfaces the same assignments are recorded. -/
theorem record_eq_map (q : Vector Charge n) (found : List (Surface ℝ n)) :
    record (found.map carry) (s'.withCharges q)
      = (record found (s.withCharges q)).map carry := by
  rw [record, record, h.isValid_eq]
  split
  · rw [List.map_cons, Surface.refreshEnergy_withCharges, Surface.refreshEnergy_withCharges,
      h.carry_withCharges]
  · rfl

/-- Testing an assignment. -/
theorem settleAndRecord_runsAlong : RunsAlong s s' carry settleAndRecord := by
  intro q found
  set q' := s.env.settle s.base s.dependent q with hq'
  refine ⟨q', record found (s.withCharges q'), ?_, ?_⟩
  · rw [settleAndRecord, Surface.settleDependent_withCharges h.isReciprocal]
  · rw [settleAndRecord, Surface.settleDependent_withCharges h.isReciprocal',
      h.settle_eq, ← hq', h.record_eq_map]

/-! ## Counting -/

/-- Counting through cells. -/
theorem countThrough_runsAlong (cells : List (Fin n)) (index count : ℕ) :
    RunsAlong s s' carry fun s found => countThrough cells s found index count := by
  induction count generalizing index with
  | zero => exact fun q found => ⟨q, found, rfl, rfl⟩
  | succ count ih =>
    intro q found
    obtain ⟨q₁, found₁, htest, htest'⟩ :=
      h.settleAndRecord_runsAlong (setDigits 3 cells index q) found
    obtain ⟨q₂, found₂, hrest, hrest'⟩ := ih (index + 1) q₁ found₁
    refine ⟨q₂, found₂, ?_, ?_⟩
    · dsimp only
      rw [countThrough, Surface.assignDigits_withCharges h.isReciprocal, htest]
      exact hrest
    · dsimp only
      rw [countThrough, Surface.assignDigits_withCharges h.isReciprocal', htest']
      exact hrest'

/-- Testing charge indices one after the other, if both surfaces count in the same base over the
same cells. -/
theorem testIndices_eq_map (hbase : s'.base = s.base) (hcells : s'.independent = s.independent)
    (q : Vector Charge n) (found : List (Surface ℝ n)) (index count : ℕ) :
    testIndices (s'.withCharges q) (found.map carry) index count
      = (testIndices (s.withCharges q) found index count).map carry := by
  induction count generalizing q found index with
  | zero => rfl
  | succ count ih =>
    rw [testIndices, testIndices,
      Surface.assignIndex_withCharges h.isReciprocal,
      Surface.assignIndex_withCharges h.isReciprocal', h.settle_eq, hbase, hcells, h.record_eq_map]
    exact ih _ _ _

/-! ## Walking -/

section Walk

variable {visit : Surface ℝ n → List (Surface ℝ n) → Surface ℝ n × List (Surface ℝ n)}
  (hvisit : RunsAlong s s' carry visit)

include hvisit

/-- The rest of a walk. -/
theorem walk_eq_map (cells : Array (Fin n)) (g : GrayCode) (q : Vector Charge n)
    (found : List (Surface ℝ n)) :
    walk visit cells g (s'.withCharges q) (found.map carry)
      = (walk visit cells g (s.withCharges q) found).map carry := by
  induction g using GrayCode.step_induction generalizing q found with
  | ended g hstep => rw [walk_of_none hstep, walk_of_none hstep]
  | step g bit g' hstep ih =>
    obtain ⟨q', found', hrun, hrun'⟩ := hvisit (Surface.flipCharges cells bit q) found
    rw [walk_of_some hstep, walk_of_some hstep, Surface.flip_eq_withCharges h.isReciprocal,
      Surface.flip_eq_withCharges h.isReciprocal', hrun, hrun']
    exact ih q' found'

/-- **A whole walk** finds what corresponds. -/
theorem walkAll_eq_map (cells : List (Fin n)) (q : Vector Charge n) :
    walkAll visit cells (s'.withCharges q)
      = (walkAll visit cells (s.withCharges q)).map carry := by
  obtain ⟨q₁, found₁, hrun, hrun'⟩ := hvisit q []
  rw [List.map_nil] at hrun'
  rw [walkAll, walkAll, hrun, hrun']
  exact h.walk_eq_map hvisit cells.toArray (.start cells.length) q₁ found₁

end Walk

/-- The walk over two states, if both surfaces walk over the same cells. -/
theorem walkTwoStates_eq_map (hcells : s'.independent = s.independent) (q : Vector Charge n) :
    walkTwoStates (s'.withCharges q)
      = (walkTwoStates (s.withCharges q)).map carry := by
  rw [walkTwoStates, walkTwoStates, Surface.withCharges_independent,
    Surface.withCharges_independent, hcells, Surface.clear_withCharges h.isReciprocal,
    Surface.clear_withCharges h.isReciprocal', h.walkAll_eq_map h.settleAndRecord_runsAlong]

/-- The walk over three states, if in addition the same cells can be positive. -/
theorem walkThreeStates_eq_map (hcells : s'.independent = s.independent)
    (hpositive : s'.env.canBePositive = s.env.canBePositive) (q : Vector Charge n) :
    walkThreeStates (s'.withCharges q)
      = (walkThreeStates (s.withCharges q)).map carry := by
  simp only [walkThreeStates, Surface.withCharges_independent, Surface.withCharges_env, hcells,
    hpositive, Surface.clear_withCharges h.isReciprocal, Surface.clear_withCharges h.isReciprocal']
  exact h.walkAll_eq_map (h.countThrough_runsAlong _ 0 _) _ _

end Lockstep

end DanglingBonds
