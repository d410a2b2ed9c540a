/-
# Pruning is sound

Two tests look at one assignment only, the one in which every cell is negative. They bound all
others, because cells repel each other: no assignment brings a potential below the one it has there.
A cell that must be negative is so wherever its charge is stable, and the cells that can be positive
are exactly those with a stable positive charge in some assignment.

* `Environment.canBePositive_iff_exists` : the cells that can be positive, exactly.
* `ne_positive_of_mem_distributions` : without such cells no distribution has a positive cell.
* `Layout.pruning_sound` : the tests, the distributions, and every surface of a layout.
-/
import Mathlib
import DanglingBonds.Proofs.StableDistributions
import DanglingBonds.Proofs.SurfaceInvariant

namespace DanglingBonds

variable {n : ℕ}

/-! ## All other cells negative -/

namespace Environment

variable {env : Environment ℝ n}

/-- **The cells that can be positive** are those whose positive charge is stable in some
assignment. -/
theorem canBePositive_iff_exists (h : env.IsReciprocal) (hpair : ∀ i j, 0 ≤ env.between i j)
    {i : Fin n} :
    env.canBePositive i = true ↔ ∃ q : Vector Charge n, q.get i = .positive ∧
      isPopulationStable (q.get i) (env.potential q i) env.parameters = true := by
  constructor
  · intro hpositive
    set q := setCell (Vector.replicate n Charge.negative) i Charge.positive with hq
    have hcharge : q.get i = .positive := get_setCell_self _ i _
    -- the positive cell does not move its own potential, so that stays at its lowest
    have hlowest : env.potential q i = env.lowestPotential i := by
      rw [hq, potential_set_self h, potential_replicate_negative]
    refine ⟨q, hcharge, ?_⟩
    rw [hcharge, hlowest, isPopulationStable_positive_iff]
    exact decide_eq_true_iff.1 hpositive
  · rintro ⟨q, hq, hstable⟩
    by_contra hnot
    exact ne_positive_of_canBePositive_eq_false hpair (Bool.eq_false_of_not_eq_true hnot) hstable hq

end Environment

/-! ## Distributions -/

section Distributions

variable {l : Layout ℝ} {p : Parameters ℝ}

/-- Where no cell can be positive, no stable surface has a positive cell. -/
theorem Environment.IsStableSurface.ne_positive {s : Surface ℝ l.size}
    (hs : (Environment.ofLayout l p).IsStableSurface s) (hp : p.check = .ok ())
    (hadmits : l.admitsPositive p = false) (i : Fin l.size) : s.charges.get i ≠ .positive :=
  ne_positive_of_canBePositive_eq_false (ofLayout_between_nonneg l hp)
    (admitsPositive_eq_false_iff.1 hadmits i) (hs.stable.population i)

/-- **No positive cells.** Where no cell can be positive, no distribution has a positive cell,
whichever engine finds it and whether or not that engine chooses its base itself. -/
theorem ne_positive_of_mem_distributions (hp : p.check = .ok ())
    (hadmits : l.admitsPositive p = false) :
    (∀ e r, l.simulate e p = .ok r → ∀ s ∈ r.distributions, ∀ i, s.charges.get i ≠ .positive) ∧
      ∀ d r, l.enumeratePruned p d = .ok r →
        ∀ s ∈ r.distributions, ∀ i, s.charges.get i ≠ .positive := by
  constructor
  · intro e r hr s hs
    exact (isStableSurface_of_mem_distributions hr hs).ne_positive hp hadmits
  · intro d r hr s hs
    exact (isStableSurface_of_mem_enumeratePruned hr hs).2.ne_positive hp hadmits

end Distributions

/-! ## The tests of a layout -/

/-- **Pruning is sound.** Under accepted parameters a cell that must be negative is negative in
every assignment in which its charge is stable, and a cell can be positive exactly if it is so in
some assignment in which its charge is stable. If no cell can be, no distribution of any engine has
a positive cell. After every history of operations on the surface of the layout both tests give the
same answers as before, and they hold of the charges and the potentials that the surface then has.
-/
theorem Layout.pruning_sound (l : Layout ℝ) {p : Parameters ℝ} (hp : p.check = .ok ()) :
    let env := Environment.ofLayout l p
    (∀ i, env.mustBeNegative i = true → ∀ q : Vector Charge l.size,
      isPopulationStable (q.get i) (env.potential q i) p = true → q.get i = .negative) ∧
    (∀ i, env.canBePositive i = true ↔ ∃ q : Vector Charge l.size,
      q.get i = .positive ∧ isPopulationStable (q.get i) (env.potential q i) p = true) ∧
    (l.admitsPositive p = false →
      (∀ e r, l.simulate e p = .ok r → ∀ s ∈ r.distributions, ∀ i, s.charges.get i ≠ .positive) ∧
      ∀ d r, l.enumeratePruned p d = .ok r →
        ∀ s ∈ r.distributions, ∀ i, s.charges.get i ≠ .positive) ∧
    ∀ ops : List (Surface.Operation l.size),
      let s := (Surface.ofLayout l p).run ops
      ∀ i, s.env.mustBeNegative i = env.mustBeNegative i ∧
        s.env.canBePositive i = env.canBePositive i ∧
        (isPopulationStable (s.charges.get i) (s.potentials.get i) p = true →
          (s.env.mustBeNegative i = true → s.charges.get i = .negative) ∧
          (s.env.canBePositive i = false → s.charges.get i ≠ .positive)) := by
  intro env
  have hrecip : env.IsReciprocal := Environment.ofLayout_isReciprocal l p
  have hpair : ∀ i j, 0 ≤ env.between i j := Environment.ofLayout_between_nonneg l hp
  refine ⟨fun i hi q hq => Environment.eq_negative_of_mustBeNegative hpair hi hq,
    fun i => Environment.canBePositive_iff_exists hrecip hpair,
    ne_positive_of_mem_distributions hp, fun ops => ?_⟩
  intro s i
  have hs : s.IsWellFormed env :=
    Surface.run_isWellFormed hrecip ops (Surface.ofEnvironment_isWellFormed env)
  have hpotential : s.potentials.get i = env.potential s.charges i := by
    rw [← hs.env_eq, ← Surface.get_potentials_withCharges, hs.consistent.withCharges_eq]
  rw [hs.env_eq, hpotential]
  refine ⟨rfl, rfl, fun hstable => ⟨fun hi => ?_, fun hi => ?_⟩⟩
  · exact Environment.eq_negative_of_mustBeNegative hpair hi hstable
  · exact Environment.ne_positive_of_canBePositive_eq_false hpair hi hstable

/-- Two cells that share one electron cannot be positive, so no distribution has a positive cell; at
a deeper transition level both must be negative, and no other charge of theirs is stable. -/
theorem Layout.pruning_sound_twinCells :
    let p := twinParameters 3
    let deep : Parameters ℝ := { p with muMinus := -0.5 }
    p.check = .ok () ∧ deep.check = .ok () ∧
      (∀ i, (Environment.ofLayout twinCells deep).mustBeNegative i = true) ∧
      (∀ (q : Vector Charge twinCells.size) i,
        isPopulationStable (q.get i) ((Environment.ofLayout twinCells deep).potential q i) deep
          = true → q.get i = .negative) ∧
      twinCells.admitsPositive p = false ∧
      ∃ r, twinCells.enumeratePruned p .off = .ok r ∧
        r.charges.Perm ((List.finRange twinCells.size).map electronOn) ∧
        ∀ s ∈ r.distributions, ∀ i, s.charges.get i ≠ .positive := by
  intro p deep
  have hp : p.check = .ok () := check_twinParameters (.inr rfl)
  have hshares := twinCells_sharesElectron 3
  have hdeep : deep.check = .ok () :=
    Parameters.check_eq_ok_iff.2 (Parameters.check_eq_ok_iff.1 hp)
  have hnegative : ∀ i, (Environment.ofLayout twinCells deep).mustBeNegative i = true := by
    intro i
    have hlow := le_lowestPotential_twinCells (p := deep) rfl rfl i
    rw [Environment.mustBeNegative_iff]
    show -_ + (-0.5 : ℝ) < -1e-6
    linarith
  obtain ⟨hmust, -⟩ := Layout.pruning_sound twinCells hdeep
  obtain ⟨-, -, hfound, -⟩ := Layout.pruning_sound twinCells hp
  have hadmits : twinCells.admitsPositive p = false :=
    admitsPositive_eq_false_iff.2 hshares.canBePositive_eq_false
  obtain ⟨r, hr, hcharges⟩ := exists_enumeratePruned_twinCells (.inr rfl) .off
  exact ⟨hp, hdeep, hnegative, fun q i hq => hmust i (hnegative i) q hq, hadmits, r, hr, hcharges,
    (hfound hadmits).2 .off r hr⟩

end DanglingBonds
