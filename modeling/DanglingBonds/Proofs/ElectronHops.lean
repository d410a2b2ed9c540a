/-
# Electron hops

An electron that moves from one cell to another raises the charge of the first by one and lowers
that of the second by one. A surface tests such a hop on three stored numbers. What it computes from
them is the difference between the energies of two assignments, so configuration stability is a
statement about energies.

* `IsHop` : one electron moves from a cell to another.
* `exists_isHop` : an electron can move from a cell to one with a higher charge.
* `electrostaticEnergy_of_isHop` : the energy after a hop.
* `Surface.isConfigurationStable_run_iff` : no hop lowers the energy.
-/
import Mathlib
import DanglingBonds.Proofs.Stability
import DanglingBonds.Proofs.SurfaceInvariant

namespace DanglingBonds

variable {n : ℕ} {q q' : Vector Charge n} {i j : Fin n}

/-! ## Hops -/

/-- `q'` is what becomes of `q` when one electron moves from cell `i` to cell `j`. -/
structure IsHop (q : Vector Charge n) (i j : Fin n) (q' : Vector Charge n) : Prop where
  source : (q'.get i).sign = (q.get i).sign + 1
  target : (q'.get j).sign = (q.get j).sign - 1
  others : ∀ k, k ≠ i → k ≠ j → q'.get k = q.get k

/-- Some charge is one above a charge that is below another. -/
theorem Charge.exists_sign_add_one {c d : Charge} (h : c.sign < d.sign) :
    ∃ c' : Charge, c'.sign = c.sign + 1 := by
  cases c with
  | negative => exact ⟨.neutral, rfl⟩
  | neutral => exact ⟨.positive, rfl⟩
  | positive => cases d <;> simp [Charge.sign] at h

/-- Some charge is one below a charge that is above another. -/
theorem Charge.exists_sign_sub_one {c d : Charge} (h : c.sign < d.sign) :
    ∃ d' : Charge, d'.sign = d.sign - 1 := by
  cases d with
  | negative => cases c <;> simp [Charge.sign] at h
  | neutral => exact ⟨.negative, rfl⟩
  | positive => exact ⟨.neutral, rfl⟩

/-- The value of a charge is its sign. -/
theorem Charge.value_eq_sign (c : Charge) : (c.value : ℝ) = c.sign := by
  cases c <;> simp [Charge.sign]

/-- An electron can move from a cell to another one with a higher charge. -/
theorem exists_isHop (h : (q.get i).sign < (q.get j).sign) : ∃ q', IsHop q i j q' := by
  have hij : i ≠ j := by
    rintro rfl
    exact lt_irrefl _ h
  obtain ⟨c, hc⟩ := Charge.exists_sign_add_one h
  obtain ⟨d, hd⟩ := Charge.exists_sign_sub_one h
  refine ⟨setCell (setCell q i c) j d, ?_, ?_, fun k hki hkj => ?_⟩
  · rw [get_setCell_of_ne _ hij, get_setCell_self, hc]
  · rw [get_setCell_self, hd]
  · rw [get_setCell_of_ne _ hkj, get_setCell_of_ne _ hki]

/-- No electron can move from a cell to itself. -/
theorem IsHop.ne (h : IsHop q i j q') : i ≠ j := by
  rintro rfl
  have hsource := h.source
  have htarget := h.target
  omega

/-- A hop changes two charges. -/
theorem IsHop.eq_setCell (h : IsHop q i j q') :
    q' = setCell (setCell q i (q'.get i)) j (q'.get j) := by
  apply ext_get
  intro k
  by_cases hkj : k = j
  · rw [hkj, get_setCell_self]
  · rw [get_setCell_of_ne _ hkj]
    by_cases hki : k = i
    · rw [hki, get_setCell_self]
    · rw [get_setCell_of_ne _ hki, h.others k hki hkj]

/-! ## The energy after a hop -/

/-- **The energy after a hop.** The electron leaves the potential of one cell for that of the other,
less what it put there itself. -/
theorem Environment.electrostaticEnergy_of_isHop {env : Environment ℝ n} (h : env.IsReciprocal)
    (hhop : IsHop q i j q') :
    env.electrostaticEnergy q'
      = env.electrostaticEnergy q + (env.potential q i - env.potential q j - env.between i j) := by
  have hsource : ((q'.get i).value : ℝ) - (q.get i).value = 1 := by
    rw [Charge.value_eq_sign, Charge.value_eq_sign, hhop.source]
    push_cast
    ring
  have htarget : ((q'.get j).value : ℝ) - (q.get j).value = -1 := by
    rw [Charge.value_eq_sign, Charge.value_eq_sign, hhop.target]
    push_cast
    ring
  -- one cell after the other: the second sees the potential that the first has changed
  have hfirst := electrostaticEnergy_set h q i (q'.get i)
  have hsecond := electrostaticEnergy_set h (setCell q i (q'.get i)) j (q'.get j)
  rw [← hhop.eq_setCell, hfirst, get_setCell_of_ne q hhop.ne.symm, potential_set, hsource, htarget,
    h.between_comm j i] at hsecond
  linarith

/-! ## Configuration stability -/

namespace Surface

/-- A surface whose potentials and energy are those of its charges is stable if no hop lowers the
energy by more than the tolerance. -/
theorem IsConsistent.isConfigurationStable_iff_energy {s : Surface ℝ n} (hs : s.IsConsistent)
    (h : s.env.IsReciprocal) :
    s.isConfigurationStable = true ↔ ∀ i j, (s.charges.get i).sign < (s.charges.get j).sign →
      ∃ q', IsHop s.charges i j q' ∧ s.energy - stabilityTolerance ≤ (s.withCharges q').energy := by
  have hpotential : ∀ i, s.potentials.get i = s.env.potential s.charges i := by
    intro i
    rw [← get_potentials_withCharges, hs.withCharges_eq]
  have henergy : s.energy = s.env.electrostaticEnergy s.charges := by
    rw [← energy_withCharges, hs.withCharges_eq]
  rw [isConfigurationStable_iff]
  refine forall_congr' fun i => forall_congr' fun j => forall_congr' fun hij => ?_
  rw [hpotential, hpotential, henergy]
  constructor
  · intro hle
    obtain ⟨q', hq'⟩ := exists_isHop hij
    refine ⟨q', hq', ?_⟩
    rw [energy_withCharges, Environment.electrostaticEnergy_of_isHop h hq']
    linarith
  · rintro ⟨q', hq', hle⟩
    rw [energy_withCharges, Environment.electrostaticEnergy_of_isHop h hq'] at hle
    linarith

/-- **Hop stability speaks about energy.** After every history of operations on the surface of a
layout, potentials are current; and the surface is configuration stable exactly if, for any two
cells of which the first has the lower charge, moving one electron from the first to the second
leads to an assignment whose energy, computed anew, is at least the present energy less the
tolerance. -/
theorem isConfigurationStable_run_iff (l : Layout ℝ) (p : Parameters ℝ)
    (ops : List (Operation l.size)) :
    let s := (Surface.ofLayout l p).run ops
    s.refreshPotentials = s ∧
      (s.isConfigurationStable = true ↔
        ∀ i j, (s.charges.get i).sign < (s.charges.get j).sign →
          ∃ q', IsHop s.charges i j q' ∧
            s.energy - stabilityTolerance ≤
              ({ s with charges := q' } : Surface ℝ l.size).refreshPotentials.refreshEnergy.energy)
      := by
  intro s
  have hrecip := Environment.ofLayout_isReciprocal l p
  have hs : s.IsWellFormed (Environment.ofLayout l p) :=
    run_isWellFormed hrecip ops (ofEnvironment_isWellFormed _)
  refine ⟨?_, hs.consistent.isConfigurationStable_iff_energy (hs.env_eq ▸ hrecip)⟩
  rw [← hs.consistent.withCharges_eq, refreshPotentials_withCharges]

end Surface

end DanglingBonds
