/-
# Surfaces as functions of their charges

In exact arithmetic the potentials and the energy of a surface are those of its charges, so an
operation on a surface is an operation on its charges.

* `Surface.withCharges` : a surface with given charges and what belongs to them.
* `assign_withCharges` : carrying one change to potentials and energy is computing them anew.
* `settleDependent_withCharges`, `assignDigits_withCharges`, `flip_eq_withCharges`,
  `clear_withCharges` : what the other operations do to charges.
-/
import Mathlib
import DanglingBonds.Proofs.ChargeDigits

namespace DanglingBonds

variable {n : ℕ}

namespace Surface

/-- The surface `s` with the charges `q`, its potentials and its energy computed anew. -/
noncomputable def withCharges (s : Surface ℝ n) (q : Vector Charge n) : Surface ℝ n :=
  ({ s with charges := q } : Surface ℝ n).refreshPotentials.refreshEnergy

section Fields

variable (s : Surface ℝ n) (q : Vector Charge n)

@[simp] theorem withCharges_env : (s.withCharges q).env = s.env := rfl

@[simp] theorem withCharges_charges : (s.withCharges q).charges = q := rfl

@[simp] theorem withCharges_base : (s.withCharges q).base = s.base := rfl

@[simp] theorem withCharges_dependent : (s.withCharges q).dependent = s.dependent := rfl

@[simp] theorem withCharges_fixed : (s.withCharges q).fixed = s.fixed := rfl

@[simp] theorem withCharges_independent : (s.withCharges q).independent = s.independent := rfl

/-- The potentials of given charges are the closed form. -/
theorem get_potentials_withCharges (i : Fin n) :
    (s.withCharges q).potentials.get i = s.env.potential q i :=
  s.env.get_potentialsOf q i

/-- The energy of given charges is the closed form. -/
theorem energy_withCharges : (s.withCharges q).energy = s.env.electrostaticEnergy q :=
  s.env.energyOf_potentialsOf q

end Fields

/-! ## Computing anew changes nothing -/

/-- Potentials and energy are those of the charges. -/
structure IsConsistent (s : Surface ℝ n) : Prop where
  potentials_eq : s.potentials = s.env.potentialsOf s.charges
  energy_eq : s.energy = s.env.energyOf s.charges s.potentials

theorem withCharges_isConsistent (s : Surface ℝ n) (q : Vector Charge n) :
    (s.withCharges q).IsConsistent := ⟨rfl, rfl⟩

theorem ofEnvironment_isConsistent (env : Environment ℝ n) :
    (ofEnvironment env).IsConsistent := ⟨rfl, rfl⟩

/-- A consistent surface is determined by its charges. -/
theorem IsConsistent.withCharges_eq {s : Surface ℝ n} (h : s.IsConsistent) :
    s.withCharges s.charges = s := by
  show { s with
    charges := s.charges
    potentials := s.env.potentialsOf s.charges
    energy := s.env.energyOf s.charges (s.env.potentialsOf s.charges) } = s
  rw [← h.potentials_eq, ← h.energy_eq]

theorem refreshPotentials_withCharges (s : Surface ℝ n) (q : Vector Charge n) :
    (s.withCharges q).refreshPotentials = s.withCharges q := rfl

theorem refreshEnergy_withCharges (s : Surface ℝ n) (q : Vector Charge n) :
    (s.withCharges q).refreshEnergy = s.withCharges q := rfl

/-! ## Assigning one charge -/

/-- **Carrying a change is computing anew.** The new potentials and the new energy are those of the
new charges. -/
theorem assign_withCharges {s : Surface ℝ n} (h : s.env.IsReciprocal) (q : Vector Charge n)
    (i : Fin n) (c : Charge) : (s.withCharges q).assign i c = s.withCharges (setCell q i c) := by
  by_cases hc : q.get i = c
  · subst hc
    rw [setCell_get_self]
    exact if_pos rfl
  · have hpot : (s.env.potentialsOf q).zipWith
          (fun v p => v + p * (c.value - (q.get i).value)) (s.env.pair.get i)
        = s.env.potentialsOf (setCell q i c) := by
      apply ext_get
      intro j
      rw [get_zipWith, Environment.get_potentialsOf, Environment.get_potentialsOf,
        Environment.potential_set, h.between_comm j i]
      rfl
    have henergy : s.env.energyOf q (s.env.potentialsOf q)
          + (c.value - (q.get i).value) * (s.env.potentialsOf q).get i
        = s.env.energyOf (setCell q i c) (s.env.potentialsOf (setCell q i c)) := by
      rw [Environment.energyOf_potentialsOf, Environment.energyOf_potentialsOf,
        Environment.electrostaticEnergy_set h, Environment.get_potentialsOf]
    show (if q.get i = c then _ else _) = _
    rw [if_neg hc]
    simp only [withCharges, refreshPotentials, refreshEnergy]
    rw [← henergy, ← hpot]
    rfl

/-- Toggling a cell toggles its charge. -/
theorem toggle_withCharges {s : Surface ℝ n} (h : s.env.IsReciprocal) (q : Vector Charge n)
    (i : Fin n) :
    (s.withCharges q).toggle i
      = s.withCharges (setCell q i (if q.get i = .negative then .neutral else .negative)) := by
  rw [toggle, assign_withCharges h]
  rfl

end Surface

/-! ## Settling the dependent cell -/

namespace Environment

/-- The charges `q` with the dependent cell, if there is one, at the charge its potential settles
on. -/
noncomputable def settle (env : Environment ℝ n) (base : ℕ) (dependent : Option (Fin n))
    (q : Vector Charge n) : Vector Charge n :=
  match dependent with
  | none => q
  | some d => setCell q d (settledCharge (env.potential q d) env.parameters base)

@[simp] theorem settle_none (env : Environment ℝ n) (base : ℕ) (q : Vector Charge n) :
    env.settle base none q = q := rfl

theorem settle_some (env : Environment ℝ n) (base : ℕ) (d : Fin n) (q : Vector Charge n) :
    env.settle base (some d) q
      = setCell q d (settledCharge (env.potential q d) env.parameters base) := rfl

/-- Settling leaves all cells but the dependent one as they are. -/
theorem get_settle_of_ne {env : Environment ℝ n} {dependent : Option (Fin n)} {i : Fin n}
    (h : dependent ≠ some i) (base : ℕ) (q : Vector Charge n) :
    (env.settle base dependent q).get i = q.get i := by
  cases dependent with
  | none => rfl
  | some d =>
    have hne : i ≠ d := fun hid => h (congrArg some hid.symm)
    rw [settle_some, get_setCell_of_ne q hne]

/-- Settling changes nothing when the dependent cell is settled. -/
theorem settle_some_eq_self_iff {env : Environment ℝ n} (h : env.IsReciprocal) {base : ℕ}
    {d : Fin n} {q : Vector Charge n} :
    env.settle base (some d) q = q
      ↔ q.get d = settledCharge (env.potential q d) env.parameters base := by
  rw [settle_some]
  constructor
  · intro heq
    rw [← heq, get_setCell_self, potential_set_self h]
  · intro heq
    rw [← heq, setCell_get_self]

/-- The charge of the dependent cell before does not matter for what it settles on. -/
theorem settle_congr {env : Environment ℝ n} (h : env.IsReciprocal)
    {dependent : Option (Fin n)} {q q' : Vector Charge n}
    (hq : ∀ i, dependent ≠ some i → q.get i = q'.get i) (base : ℕ) :
    env.settle base dependent q = env.settle base dependent q' := by
  cases dependent with
  | none => exact ext_get fun i => hq i (by simp)
  | some d =>
    have hset : ∀ c, setCell q d c = setCell q' d c := by
      intro c
      apply ext_get
      intro i
      simp only [get_setCell]
      split
      · rfl
      · rename_i hid
        exact hq i fun hd => hid (Option.some.inj hd).symm
    have hpot : env.potential q d = env.potential q' d := by
      rw [← potential_set_self h q d .negative, hset, potential_set_self h]
    rw [settle_some, settle_some, hpot, hset]

end Environment

namespace Surface

/-- Settling the dependent cell of a surface settles it in the charges. -/
theorem settleDependent_withCharges {s : Surface ℝ n} (h : s.env.IsReciprocal)
    (q : Vector Charge n) :
    (s.withCharges q).settleDependent = s.withCharges (s.env.settle s.base s.dependent q) := by
  unfold settleDependent
  rw [withCharges_dependent]
  cases s.dependent with
  | none => rfl
  | some d =>
    show (s.withCharges q).assign d (settledCharge ((s.withCharges q).potentials.get d) _ _) = _
    rw [assign_withCharges h, get_potentials_withCharges]
    rfl

end Surface

/-! ## Assigning digits -/

namespace Surface

/-- Assigning digits to the cells of a surface sets them in the charges. -/
theorem assignDigits_withCharges {s : Surface ℝ n} (h : s.env.IsReciprocal) (base : ℕ)
    (cells : List (Fin n)) (index : ℕ) (q : Vector Charge n) :
    assignDigits base cells index (s.withCharges q)
      = s.withCharges (setDigits base cells index q) := by
  induction cells generalizing index q with
  | nil => rfl
  | cons i is ih =>
    rw [assignDigits, setDigits]
    cases Charge.ofDigit? (index % base) with
    | none => exact ih (index / base) q
    | some c =>
      rw [← ih (index / base) (setCell q i c), ← assign_withCharges h]

/-- Assigning a charge index sets its digits and settles the dependent cell. -/
theorem assignIndex_withCharges {s : Surface ℝ n} (h : s.env.IsReciprocal) (index : ℕ)
    (q : Vector Charge n) :
    (s.withCharges q).assignIndex index
      = s.withCharges (s.env.settle s.base s.dependent
          (setDigits s.base s.independent.reverse index q)) := by
  rw [assignIndex, withCharges_base, withCharges_independent, assignDigits_withCharges h,
    settleDependent_withCharges h]

/-! ## Flipping and clearing -/

/-- The charges after a flipped bit: the cell for it, if there is one, is toggled. -/
def flipCharges (cells : Array (Fin n)) (bit : ℕ) (q : Vector Charge n) : Vector Charge n :=
  cells[cells.size - 1 - bit]?.elim q fun i =>
    setCell q i (if q.get i = .negative then .neutral else .negative)

/-- Flipping a bit of a surface flips it in the charges. -/
theorem flip_eq_withCharges {s : Surface ℝ n} (h : s.env.IsReciprocal) (cells : Array (Fin n))
    (bit : ℕ) (q : Vector Charge n) :
    (s.withCharges q).flip cells bit = s.withCharges (flipCharges cells bit q) := by
  unfold flip flipCharges
  cases cells[cells.size - 1 - bit]? with
  | none => rfl
  | some i => exact toggle_withCharges h q i

/-- Making cells of a surface negative makes their charges negative. -/
theorem clear_withCharges {s : Surface ℝ n} (h : s.env.IsReciprocal) (cells : List (Fin n))
    (q : Vector Charge n) :
    (s.withCharges q).clear cells
      = s.withCharges (cells.foldl (fun q i => setCell q i .negative) q) := by
  unfold clear
  induction cells generalizing q with
  | nil => rfl
  | cons i is ih => rw [List.foldl_cons, List.foldl_cons, assign_withCharges h, ih]

end Surface

end DanglingBonds
