/-
# The invariant of surfaces

Whatever is done to the surface of a layout, its potentials and its energy are the closed forms of
its charges, and its cells fall into fixed cells, at most one dependent cell that is not fixed, and
the list of all others.

* `Surface.Operation` : the operations on a surface of `n` cells.
* `perform_isWellFormed` : one operation keeps the invariant.
* `run_isWellFormed` : every history of operations keeps it.
-/
import Mathlib
import DanglingBonds.Proofs.SurfaceCharges

namespace DanglingBonds

variable {n : ℕ}

namespace Surface

/-! ## Operations -/

/-- An operation on a surface of `n` cells. -/
inductive Operation (n : ℕ) where
  | assign (i : Fin n) (c : Charge)
  | assignAll (c : Charge)
  | setBase (base : ℕ) (h : base = 2 ∨ base = 3)
  | setDependent (i : Option (Fin n))
  | settleDependent
  | assignIndex (index : ℕ)
  | fixCells
  | refreshPotentials
  | refreshEnergy

/-- Carries out one operation. -/
def perform {α : Type} [Scalar α] (s : Surface α n) : Operation n → Surface α n
  | .assign i c => s.assign i c
  | .assignAll c => s.assignAll c
  | .setBase base _ => s.setBase base
  | .setDependent i => s.setDependent i
  | .settleDependent => s.settleDependent
  | .assignIndex index => s.assignIndex index
  | .fixCells => s.fixCells
  | .refreshPotentials => s.refreshPotentials
  | .refreshEnergy => s.refreshEnergy

/-- Carries out operations in order. -/
def run {α : Type} [Scalar α] (s : Surface α n) (ops : List (Operation n)) : Surface α n :=
  ops.foldl perform s

/-! ## The invariant -/

/-- The dependent cell is not fixed, and the independent cells are all others that are not fixed,
in order. -/
structure IsGrouped {α : Type} (s : Surface α n) : Prop where
  dependent_free : ∀ d, s.dependent = some d → s.fixed.get d = false
  independent_eq : s.independent
    = (List.finRange n).filter fun i => !s.fixed.get i && some i != s.dependent

/-- The cells that are neither fixed nor dependent are independent. -/
theorem IsGrouped.mem_independent_iff {α : Type} {s : Surface α n} (h : s.IsGrouped) {i : Fin n} :
    i ∈ s.independent ↔ s.fixed.get i = false ∧ s.dependent ≠ some i := by
  rw [h.independent_eq, List.mem_filter, Bool.and_eq_true, Bool.not_eq_true', bne_iff_ne, ne_comm]
  exact and_iff_right (List.mem_finRange i)

/-- They are listed in order. -/
theorem IsGrouped.pairwise_independent {α : Type} {s : Surface α n} (h : s.IsGrouped) :
    s.independent.Pairwise (· < ·) := by
  rw [h.independent_eq]
  exact (List.pairwise_lt_finRange _).filter _

/-- The invariant of the surfaces of an environment. -/
structure IsWellFormed (env : Environment ℝ n) (s : Surface ℝ n) : Prop where
  env_eq : s.env = env
  consistent : s.IsConsistent
  grouped : s.IsGrouped

/-- Listing the independent cells anew restores the groups, once fixed cells are not dependent. -/
theorem refreshIndependent_isGrouped {α : Type} {s : Surface α n} {d? : Option (Fin n)} :
    ({ s with dependent := d?.filter fun d => !s.fixed.get d } :
      Surface α n).refreshIndependent.IsGrouped where
  dependent_free := by
    intro d hd
    obtain ⟨-, hfree⟩ := Option.filter_eq_some_iff.1 hd
    exact Bool.not_eq_true' _ ▸ hfree
  independent_eq := rfl

/-- The groups depend on the fixed and the dependent cells alone. -/
theorem withCharges_isGrouped {s : Surface ℝ n} (h : s.IsGrouped) (q : Vector Charge n) :
    (s.withCharges q).IsGrouped :=
  ⟨h.dependent_free, h.independent_eq⟩

/-- A surface that only changed its charges keeps the invariant. -/
theorem withCharges_isWellFormed {env : Environment ℝ n} {s : Surface ℝ n}
    (h : s.IsWellFormed env) (q : Vector Charge n) : (s.withCharges q).IsWellFormed env :=
  ⟨h.env_eq, withCharges_isConsistent s q, withCharges_isGrouped h.grouped q⟩

/-- The surface of an environment starts with all cells independent. -/
theorem ofEnvironment_isGrouped {α : Type} [Scalar α] (env : Environment α n) :
    (ofEnvironment env).IsGrouped where
  dependent_free := by
    intro d hd
    cases hd
  independent_eq := by
    show List.finRange n = _
    rw [eq_comm, List.filter_eq_self]
    intro i _
    have hfixed : (ofEnvironment env).fixed.get i = false := get_replicate i false
    rw [hfixed]
    rfl

/-- The surface of an environment starts with the invariant. -/
theorem ofEnvironment_isWellFormed (env : Environment ℝ n) :
    (ofEnvironment env).IsWellFormed env :=
  ⟨rfl, ofEnvironment_isConsistent env, ofEnvironment_isGrouped env⟩

/-! ## Fixing cells -/

/-- Fixing one cell keeps potentials and energy those of the charges. -/
theorem fixNegative_isConsistent {s : Surface ℝ n} (h : s.env.IsReciprocal)
    (hs : s.IsConsistent) (i : Fin n) : (s.fixNegative i).IsConsistent := by
  set s' : Surface ℝ n := { s with fixed := s.fixed.set i true } with hs'
  have hrec : s'.env.IsReciprocal := h
  have hcons : s'.IsConsistent := ⟨hs.potentials_eq, hs.energy_eq⟩
  show (s'.assign i .negative).IsConsistent
  rw [← hcons.withCharges_eq, assign_withCharges hrec]
  exact withCharges_isConsistent _ _

/-- Fixing one cell leaves the environment as it is. -/
theorem fixNegative_env {α : Type} [Scalar α] (s : Surface α n) (i : Fin n) :
    (s.fixNegative i).env = s.env := by
  rw [fixNegative, assign]
  dsimp only
  split <;> rfl

/-- Fixing the cells of a list keeps the environment, and potentials and energy those of the
charges. -/
theorem foldl_fixNegative_isConsistent {env : Environment ℝ n} (h : env.IsReciprocal)
    (cells : List (Fin n)) {s : Surface ℝ n} (henv : s.env = env) (hs : s.IsConsistent) :
    let s' := cells.foldl (fun s i => if s.env.mustBeNegative i then s.fixNegative i else s) s
    s'.env = env ∧ s'.IsConsistent := by
  -- the independent cells are listed anew only after the last cell, so they are left out here
  induction cells generalizing s with
  | nil => exact ⟨henv, hs⟩
  | cons i is ih =>
    rw [List.foldl_cons]
    split
    · apply ih
      · rw [fixNegative_env, henv]
      · exact fixNegative_isConsistent (henv ▸ h) hs i
    · exact ih henv hs

/-! ## Runs -/

/-- One operation keeps the invariant. -/
theorem perform_isWellFormed {env : Environment ℝ n} (h : env.IsReciprocal) {s : Surface ℝ n}
    (hs : s.IsWellFormed env) (op : Operation n) : (s.perform op).IsWellFormed env := by
  have hrec : s.env.IsReciprocal := hs.env_eq ▸ h
  have hself := hs.consistent.withCharges_eq
  -- an operation either changes charges, on a surface given by its charges, or changes none
  cases op with
  | assign i c =>
    show (s.assign i c).IsWellFormed env
    rw [← hself, assign_withCharges hrec]
    exact withCharges_isWellFormed hs _
  | assignAll c => exact withCharges_isWellFormed hs _
  | setBase base hbase =>
    exact ⟨hs.env_eq, ⟨hs.consistent.potentials_eq, hs.consistent.energy_eq⟩,
      ⟨hs.grouped.dependent_free, hs.grouped.independent_eq⟩⟩
  | setDependent i =>
    exact ⟨hs.env_eq, ⟨hs.consistent.potentials_eq, hs.consistent.energy_eq⟩,
      refreshIndependent_isGrouped⟩
  | settleDependent =>
    show s.settleDependent.IsWellFormed env
    rw [← hself, settleDependent_withCharges hrec]
    exact withCharges_isWellFormed hs _
  | assignIndex index =>
    show (s.assignIndex index).IsWellFormed env
    rw [← hself, assignIndex_withCharges hrec]
    exact withCharges_isWellFormed hs _
  | fixCells =>
    obtain ⟨henv, hcons⟩ :=
      foldl_fixNegative_isConsistent h (List.finRange n) hs.env_eq hs.consistent
    exact ⟨henv, ⟨hcons.potentials_eq, hcons.energy_eq⟩, refreshIndependent_isGrouped⟩
  | refreshPotentials =>
    show s.refreshPotentials.IsWellFormed env
    rw [← hself, refreshPotentials_withCharges]
    exact withCharges_isWellFormed hs _
  | refreshEnergy =>
    show s.refreshEnergy.IsWellFormed env
    rw [← hself, refreshEnergy_withCharges]
    exact withCharges_isWellFormed hs _

/-- Every history of operations keeps the invariant. -/
theorem run_isWellFormed {env : Environment ℝ n} (h : env.IsReciprocal) (ops : List (Operation n))
    {s : Surface ℝ n} (hs : s.IsWellFormed env) : (s.run ops).IsWellFormed env := by
  induction ops generalizing s with
  | nil => exact hs
  | cons op ops ih => exact ih (perform_isWellFormed h hs op)

/-- **The invariant of surfaces.** After every history of operations on the surface of a layout the
potentials and the energy are the closed forms of the charges, the dependent cell is not fixed, and
the independent cells are, in order, all cells that are neither fixed nor dependent. -/
theorem run_closedForm (l : Layout ℝ) (p : Parameters ℝ) (ops : List (Operation l.size)) :
    let env := Environment.ofLayout l p
    let s := (Surface.ofLayout l p).run ops
    (∀ i, s.potentials.get i
        = env.external.get i + ∑ j, env.between i j * (s.charges.get j).value) ∧
      s.energy = ∑ i, (s.charges.get i).value * (s.potentials.get i + env.external.get i) / 2 ∧
      (∀ d, s.dependent = some d → s.fixed.get d = false) ∧
      s.independent.Pairwise (· < ·) ∧
      ∀ i, i ∈ s.independent ↔ s.fixed.get i = false ∧ s.dependent ≠ some i := by
  intro env s
  have hs : s.IsWellFormed env :=
    run_isWellFormed (Environment.ofLayout_isReciprocal l p) ops (ofEnvironment_isWellFormed env)
  have hpot : ∀ i, s.potentials.get i = env.potential s.charges i := by
    intro i
    rw [← hs.env_eq, ← get_potentials_withCharges, hs.consistent.withCharges_eq]
  refine ⟨hpot, ?_, hs.grouped.dependent_free, ?_, ?_⟩
  · have henergy : s.energy = env.electrostaticEnergy s.charges := by
      rw [← hs.env_eq, ← energy_withCharges, hs.consistent.withCharges_eq]
    rw [henergy, Environment.electrostaticEnergy]
    simp only [hpot]
  · rw [hs.grouped.independent_eq]
    exact (List.pairwise_lt_finRange _).filter _
  · intro i
    rw [hs.grouped.independent_eq, List.mem_filter, Bool.and_eq_true, Bool.not_eq_true', bne_iff_ne]
    exact ⟨fun hi => ⟨hi.2.1, hi.2.2.symm⟩, fun hi => ⟨List.mem_finRange i, hi.1, hi.2.symm⟩⟩

end Surface

end DanglingBonds
