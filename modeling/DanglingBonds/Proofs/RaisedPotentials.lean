/-
# Raised potentials

A potential applied to all cells and the transition levels have no zero of their own: charges depend
on the difference alone. Raising both by the same amount leaves every decision of an enumeration as
it is; potentials rise with it, and the energy by what it does to the total charge.

* `Environment.IsRaised` : two environments that differ by such a raise.
* `Environment.IsRaised.potential_eq`, `electrostaticEnergy_eq` : potentials and energy.
* `Environment.IsRaised.prunedRun_eq_map`, `exhaustiveRun_eq_map` : what the enumerations find.
* `enumerations_raise` : a raised global potential is a lowered transition level.
-/
import Mathlib
import DanglingBonds.Proofs.BaseChoice

namespace DanglingBonds

variable {n : ℕ}

/-- The sum of all charges, in units of the elementary charge. -/
noncomputable def totalCharge (q : Vector Charge n) : ℝ :=
  ∑ i, (q.get i).value

/-- A surface with another environment and everything else as it was. -/
def Surface.withEnvironment (env' : Environment ℝ n) (s : Surface ℝ n) : Surface ℝ n :=
  { s with env := env' }

/-- The same charges in an environment whose potentials are higher by `g`. -/
noncomputable def Surface.raise (env' : Environment ℝ n) (g : ℝ) (s : Surface ℝ n) : Surface ℝ n :=
  { s with
    env := env'
    potentials := s.potentials.map (· + g)
    energy := s.energy + g * totalCharge s.charges }

/-! ## One cell -/

section Cell

variable {p p' : Parameters ℝ} {g : ℝ} (h : p'.muMinus = p.muMinus + g)

include h

theorem muPlus_raise : p'.muPlus = p.muPlus + g := by
  rw [Parameters.muPlus_eq, Parameters.muPlus_eq, h]
  ring

/-- The distance of a potential from both transition levels. -/
theorem sub_muMinus_raise (v : ℝ) :
    -(v + g) + p'.muMinus = -v + p.muMinus ∧ -(v + g) + p'.muPlus = -v + p.muPlus := by
  rw [muPlus_raise h, h]
  constructor <;> ring

/-- A raised potential settles on the same charge. -/
theorem settledCharge_raise (v : ℝ) (base : ℕ) :
    settledCharge (v + g) p' base = settledCharge v p base := by
  obtain ⟨hminus, hplus⟩ := sub_muMinus_raise h v
  rw [settledCharge, settledCharge, hminus, hplus]

/-- A charge agrees with a raised potential as before. -/
theorem isPopulationStable_raise (c : Charge) (v : ℝ) :
    isPopulationStable c (v + g) p' = isPopulationStable c v p := by
  obtain ⟨hminus, hplus⟩ := sub_muMinus_raise h v
  unfold isPopulationStable
  rw [hminus, hplus]

end Cell

/-! ## All cells -/

namespace Environment

/-- Between `env` and `env'` the potential applied to every cell and the transition levels rise by
`g`. -/
structure IsRaised (env env' : Environment ℝ n) (g : ℝ) : Prop where
  between_eq : ∀ i j, env'.between i j = env.between i j
  external_eq : ∀ i, env'.external.get i = env.external.get i + g
  base_eq : env'.parameters.base = env.parameters.base
  muMinus_eq : env'.parameters.muMinus = env.parameters.muMinus + g

namespace IsRaised

variable {env env' : Environment ℝ n} {g : ℝ} (h : env.IsRaised env' g)

include h

theorem isReciprocal (hrecip : env.IsReciprocal) : env'.IsReciprocal where
  between_comm i j := by
    rw [h.between_eq, h.between_eq, hrecip.between_comm]
  between_self i := by
    rw [h.between_eq, hrecip.between_self]

/-- Every potential rises. -/
theorem potential_eq (q : Vector Charge n) (i : Fin n) :
    env'.potential q i = env.potential q i + g := by
  rw [potential, potential, h.external_eq]
  simp only [h.between_eq]
  ring

theorem lowestPotential_eq (i : Fin n) :
    env'.lowestPotential i = env.lowestPotential i + g := by
  rw [← potential_replicate_negative, ← potential_replicate_negative, h.potential_eq]

/-- The energy rises with the total charge. -/
theorem electrostaticEnergy_eq (q : Vector Charge n) :
    env'.electrostaticEnergy q = env.electrostaticEnergy q + g * totalCharge q := by
  have hterm : ∀ i, (q.get i).value * (env'.potential q i + env'.external.get i) / 2
      = (q.get i).value * (env.potential q i + env.external.get i) / 2
        + g * (q.get i).value := by
    intro i
    rw [h.potential_eq, h.external_eq]
    ring
  rw [electrostaticEnergy, electrostaticEnergy, totalCharge, Finset.mul_sum,
    ← Finset.sum_add_distrib]
  exact Finset.sum_congr rfl fun i _ => hterm i

/-! ### The cells of an enumeration -/

/-- The same cells must be negative. -/
theorem mustBeNegative_eq (i : Fin n) : env'.mustBeNegative i = env.mustBeNegative i := by
  rw [mustBeNegative, mustBeNegative, h.lowestPotential_eq, (sub_muMinus_raise h.muMinus_eq _).1]

/-- The same cells can be positive. -/
theorem canBePositive_eq : env'.canBePositive = env.canBePositive := by
  funext i
  rw [canBePositive, canBePositive, h.lowestPotential_eq, (sub_muMinus_raise h.muMinus_eq _).2]

theorem freeCells_eq : env'.freeCells = env.freeCells := by
  simp only [freeCells, h.mustBeNegative_eq]

/-- Whether a free cell can be positive, which is what decides on a base. -/
theorem any_canBePositive_eq :
    env'.freeCells.any env'.canBePositive = env.freeCells.any env.canBePositive := by
  rw [h.freeCells_eq, h.canBePositive_eq]

/-! ### Assignments -/

/-- The dependent cell settles on the same charge. -/
theorem settle_eq (base : ℕ) (dependent : Option (Fin n)) (q : Vector Charge n) :
    env'.settle base dependent q = env.settle base dependent q := by
  cases dependent with
  | none => rfl
  | some d => rw [settle_some, settle_some, h.potential_eq, settledCharge_raise h.muMinus_eq]

/-- The same assignments are stable: an electron that moves gains what it gained before. -/
theorem isStable_iff (q : Vector Charge n) : env'.IsStable q ↔ env.IsStable q := by
  have hpopulation : ∀ i, isPopulationStable (q.get i) (env'.potential q i) env'.parameters
      = isPopulationStable (q.get i) (env.potential q i) env.parameters := fun i => by
    rw [h.potential_eq, isPopulationStable_raise h.muMinus_eq]
  have hhop : ∀ i j, env'.potential q i - env'.potential q j - env'.between i j
      = env.potential q i - env.potential q j - env.between i j := fun i j => by
    rw [h.potential_eq, h.potential_eq, h.between_eq]
    ring
  constructor
  · intro hq
    exact ⟨fun i => hpopulation i ▸ hq.population i,
      fun i j hij => hhop i j ▸ hq.configuration i j hij⟩
  · intro hq
    exact ⟨fun i => (hpopulation i).symm ▸ hq.population i,
      fun i j hij => (hhop i j).symm ▸ hq.configuration i j hij⟩

/-- Raising a surface is computing its potentials and energy anew. -/
theorem raise_withCharges {s : Surface ℝ n} (hs : s.env = env) (q : Vector Charge n) :
    (s.withCharges q).raise env' g = (s.withEnvironment env').withCharges q := by
  have hpotentials : (s.withCharges q).potentials.map (· + g) = env'.potentialsOf q := by
    apply ext_get
    intro i
    rw [get_potentialsOf, h.potential_eq, ← hs, ← Surface.get_potentials_withCharges,
      Vector.get_eq_getElem, Vector.getElem_map, Vector.get_eq_getElem]
  have henergy : (s.withCharges q).energy + g * totalCharge q
      = env'.energyOf q (env'.potentialsOf q) := by
    rw [energyOf_potentialsOf, h.electrostaticEnergy_eq, Surface.energy_withCharges, hs]
  rw [Surface.raise]
  simp only [hpotentials, Surface.withCharges_charges, henergy]
  rfl

/-- A surface and its copy in the raised environment go through an enumeration in lockstep. -/
theorem lockstep (hrecip : env.IsReciprocal) {s : Surface ℝ n} (hs : s.env = env) :
    Lockstep s (s.withEnvironment env') (·.raise env' g) where
  isReciprocal := hs ▸ hrecip
  isReciprocal' := h.isReciprocal hrecip
  settle_eq q := by
    subst hs
    exact h.settle_eq s.base s.dependent q
  isValid_eq q := by
    rw [Bool.eq_iff_iff, Surface.isValid_withCharges_iff, Surface.isValid_withCharges_iff, hs]
    exact h.isStable_iff q
  carry_withCharges q := h.raise_withCharges hs q

/-! ### The enumerations -/

/-- The surface that either enumeration starts with. -/
theorem ofEnvironment_eq :
    Surface.ofEnvironment env'
      = ((Surface.ofEnvironment env).withEnvironment env').withCharges
          (Vector.replicate n .negative) := by
  rw [Surface.ofEnvironment, h.base_eq]
  rfl

/-- **The exhaustive enumeration** finds the same charges. -/
theorem exhaustiveRun_eq_map (hrecip : env.IsReciprocal) :
    env'.exhaustiveRun = env.exhaustiveRun.map (·.raise env' g) := by
  have hcount : (Surface.ofEnvironment env').lastIndex = (Surface.ofEnvironment env).lastIndex := by
    rw [h.ofEnvironment_eq]
    rfl
  have hrun := (h.lockstep hrecip (s := Surface.ofEnvironment env) rfl).testIndices_eq_map rfl rfl
    (Vector.replicate n .negative) [] 0 ((Surface.ofEnvironment env).lastIndex + 1)
  rw [exhaustiveRun, exhaustiveRun, List.map_reverse, hcount, h.ofEnvironment_eq]
  exact congrArg List.reverse hrun

theorem pruned_eq (base : ℕ) :
    Surface.pruned env' base
      = ((Surface.pruned env base).withEnvironment env').withCharges
          (Vector.replicate n .negative) := by
  have hfixed : env'.mustBeNegative = env.mustBeNegative := funext h.mustBeNegative_eq
  rw [Surface.pruned, Surface.pruned, Surface.fixCells_ofEnvironment,
    Surface.fixCells_ofEnvironment, h.ofEnvironment_eq, h.freeCells_eq, hfixed]
  rfl

/-- **The pruned enumeration** finds the same charges. -/
theorem prunedRun_eq_map (hrecip : env.IsReciprocal) (base : ℕ) :
    env'.prunedRun base = (env.prunedRun base).map (·.raise env' g) := by
  rw [prunedRun, prunedRun, h.freeCells_eq, h.pruned_eq]
  cases hcase : env.freeCells with
  | nil =>
    have hrecord := (h.lockstep hrecip (Surface.env_pruned env base)).record_eq_map
      (Vector.replicate n .negative) []
    rwa [← Surface.pruned_eq_withCharges] at hrecord
  | cons d rest =>
    have hd := (isDependent_of_freeCells_eq hcase).free
    set s := (Surface.pruned env base).setDependent (some d) with hs
    have henv : s.env = env := Surface.env_pruned env base
    have hnegative : s = s.withCharges (Vector.replicate n .negative) := by
      rw [hs, Surface.setDependent_pruned hd, Surface.pruned_eq_withCharges]
      rfl
    have hstart : (((Surface.pruned env base).withEnvironment env').withCharges
          (Vector.replicate n .negative)).setDependent (some d)
        = (s.withEnvironment env').withCharges (Vector.replicate n .negative) := rfl
    have hpositive : env'.canBePositive = s.env.canBePositive := by
      rw [henv, h.canBePositive_eq]
    have hstep := h.lockstep hrecip henv
    dsimp only
    rw [hstart, List.map_reverse]
    congr 1
    split
    · have hwalk := hstep.walkTwoStates_eq_map rfl (Vector.replicate n .negative)
      rwa [← hnegative] at hwalk
    · have hwalk := hstep.walkThreeStates_eq_map rfl hpositive (Vector.replicate n .negative)
      rwa [← hnegative] at hwalk

/-- Either engine finds the same charges. -/
theorem distributions_simulation (hrecip : env.IsReciprocal) (e : Engine) :
    (env'.simulation e).distributions
      = (env.simulation e).distributions.map (·.raise env' g) := by
  cases e with
  | quickExact =>
    show env'.prunedRun env'.parameters.base = _
    rw [h.base_eq]
    exact h.prunedRun_eq_map hrecip env.parameters.base
  | exhaustive => exact h.exhaustiveRun_eq_map hrecip

end IsRaised

end Environment

/-! ## The enumerations of a layout -/

/-- Charges, potentials and energy in potentials higher by `g`. -/
noncomputable def raiseSnapshot (g : ℝ) :
    Vector Charge n × Vector ℝ n × ℝ → Vector Charge n × Vector ℝ n × ℝ
  | (charges, potentials, energy) =>
    (charges, potentials.map (· + g), energy + g * totalCharge charges)

/-- Raising every distribution raises the snapshots. -/
theorem snapshots_of_map_raise {r r' : Simulation ℝ n} {env' : Environment ℝ n} {g : ℝ}
    (h : r'.distributions = r.distributions.map (·.raise env' g)) :
    r'.snapshots = r.snapshots.map (raiseSnapshot g) := by
  rw [Simulation.snapshots, Simulation.snapshots, h, List.map_map, List.map_map]
  rfl

section Layouts

variable (l : Layout ℝ) (p : Parameters ℝ) (g : ℝ)

/-- A layout in a raised global potential, and in its own under a lowered transition level. -/
theorem isRaised_setGlobalPotential :
    (Environment.ofLayout l { p with muMinus := p.muMinus - g }).IsRaised
      (Environment.ofLayout (l.setGlobalPotential (l.globalPotential + g)) p) g where
  between_eq i j := by
    rw [Environment.between_ofLayout]
    exact Environment.between_ofLayout (l.setGlobalPotential (l.globalPotential + g)) p i j
  external_eq i := by
    have hraised := Environment.external_ofLayout (l.setGlobalPotential (l.globalPotential + g)) p i
    rw [Environment.external_ofLayout, add_assoc _ _ g]
    exact hraised
  base_eq := rfl
  muMinus_eq := (sub_add_cancel p.muMinus g).symm

/-- Inputs are checked alike. -/
theorem checkInputs_raise :
    checkInputs (l.setGlobalPotential (l.globalPotential + g)) p
      = checkInputs l { p with muMinus := p.muMinus - g } := rfl

/-- The pruned enumeration in a raised global potential. -/
theorem enumeratePruned_raise (detection : BaseDetection) :
    ((l.setGlobalPotential (l.globalPotential + g)).enumeratePruned p detection).map
        (fun r => (r.base, r.snapshots))
      = (l.enumeratePruned { p with muMinus := p.muMinus - g } detection).map
        fun r => (r.base, r.snapshots.map (raiseSnapshot g)) := by
  set raised := l.setGlobalPotential (l.globalPotential + g) with hraised
  set lowered : Parameters ℝ := { p with muMinus := p.muMinus - g } with hlowered
  have hinputs : checkInputs raised p = checkInputs l lowered := checkInputs_raise l p g
  cases haccepted : checkInputs l lowered with
  | error e =>
    rw [Layout.enumeratePruned, Layout.enumeratePruned, hinputs, haccepted]
    rfl
  | ok u =>
    obtain ⟨hp', hl'⟩ := checkInputs_eq_ok_iff.1 (hinputs.trans haccepted)
    obtain ⟨hp, hl⟩ := checkInputs_eq_ok_iff.1 haccepted
    cases hcells : l.isEmpty with
    | true =>
      rw [(enumerate_of_isEmpty hp hl hcells detection).2,
        (enumerate_of_isEmpty hp' hl' hcells detection).2]
      rfl
    | false =>
      have hstep : (Environment.ofLayout l lowered).IsRaised (Environment.ofLayout raised p) g :=
        isRaised_setGlobalPotential l p g
      have hbase : enumerationBase detection lowered
            ((Environment.ofLayout l lowered).freeCells.any
              (Environment.ofLayout l lowered).canBePositive)
          = enumerationBase detection p
            ((Environment.ofLayout raised p).freeCells.any
              (Environment.ofLayout raised p).canBePositive) :=
        congrArg (enumerationBase detection p) hstep.any_canBePositive_eq.symm
      rw [enumeratePruned_eq_prunedRun hp hl hcells detection rfl,
        enumeratePruned_eq_prunedRun hp' hl' hcells detection hbase]
      have hrun := hstep.prunedRun_eq_map (Environment.ofLayout_isReciprocal l lowered)
        (enumerationBase detection lowered ((Environment.ofLayout l lowered).freeCells.any
          (Environment.ofLayout l lowered).canBePositive))
      exact congrArg Except.ok (Prod.ext rfl (snapshots_of_map_raise hrun))

/-- The exhaustive enumeration in a raised global potential. -/
theorem enumerateAll_raise :
    ((l.setGlobalPotential (l.globalPotential + g)).enumerateAll p).map
        (fun r => (r.base, r.snapshots))
      = (l.enumerateAll { p with muMinus := p.muMinus - g }).map
        fun r => (r.base, r.snapshots.map (raiseSnapshot g)) := by
  set raised := l.setGlobalPotential (l.globalPotential + g) with hraised
  set lowered : Parameters ℝ := { p with muMinus := p.muMinus - g } with hlowered
  have hinputs : checkInputs raised p = checkInputs l lowered := checkInputs_raise l p g
  cases haccepted : checkInputs l lowered with
  | error e =>
    rw [Layout.enumerateAll, Layout.enumerateAll, hinputs, haccepted]
    rfl
  | ok u =>
    obtain ⟨hp', hl'⟩ := checkInputs_eq_ok_iff.1 (hinputs.trans haccepted)
    obtain ⟨hp, hl⟩ := checkInputs_eq_ok_iff.1 haccepted
    cases hcells : l.isEmpty with
    | true =>
      rw [(enumerate_of_isEmpty hp hl hcells .off).1, (enumerate_of_isEmpty hp' hl' hcells .off).1]
      rfl
    | false =>
      have hrun := (isRaised_setGlobalPotential l p g).exhaustiveRun_eq_map
        (Environment.ofLayout_isReciprocal l lowered)
      rw [enumerateAll_eq_exhaustiveRun hp hl hcells, enumerateAll_eq_exhaustiveRun hp' hl' hcells]
      exact congrArg Except.ok (Prod.ext rfl (snapshots_of_map_raise hrun))

/-- **A raised global potential is a lowered transition level.** With the potential applied to all
cells raised by `g` each enumeration runs in the same base and finds the same charges in the same
order as with the lower transition level lowered by `g`, or reports the same error; every potential
is higher by `g` and every energy by `g` times the total charge. Accepted inputs have results. -/
theorem enumerations_raise :
    (∀ detection,
      ((l.setGlobalPotential (l.globalPotential + g)).enumeratePruned p detection).map
          (fun r => (r.base, r.snapshots))
        = (l.enumeratePruned { p with muMinus := p.muMinus - g } detection).map
          fun r => (r.base, r.snapshots.map (raiseSnapshot g))) ∧
    ((l.setGlobalPotential (l.globalPotential + g)).enumerateAll p).map
        (fun r => (r.base, r.snapshots))
      = (l.enumerateAll { p with muMinus := p.muMinus - g }).map
        (fun r => (r.base, r.snapshots.map (raiseSnapshot g))) ∧
    (p.check = .ok () → l.checkDefects = .ok () →
      (∀ detection, ∃ r,
        (l.setGlobalPotential (l.globalPotential + g)).enumeratePruned p detection = .ok r) ∧
      ∃ r, (l.setGlobalPotential (l.globalPotential + g)).enumerateAll p = .ok r) := by
  refine ⟨enumeratePruned_raise l p g, enumerateAll_raise l p g, fun hp hl => ?_⟩
  have hraised : (l.setGlobalPotential (l.globalPotential + g)).checkDefects = .ok () := hl
  exact ⟨exists_enumeratePruned_eq_ok hp hraised, exists_simulate_eq_ok hp hraised .exhaustive⟩

end Layouts

/-- Two cells that share one electron still do when their potential and the transition level are
raised, and every distribution costs one electron volt less. -/
theorem enumerations_raise_twinCells :
    let p : Parameters ℝ := { twinParameters 2 with muMinus := -0.2 + 1 }
    let lowered : Parameters ℝ := { p with muMinus := p.muMinus - 1 }
    let raised := twinCells.setGlobalPotential (twinCells.globalPotential + 1)
    p.check = .ok () ∧ twinCells.checkDefects = .ok () ∧
      ∃ r r', twinCells.enumeratePruned lowered .off = .ok r ∧
        raised.enumeratePruned p .off = .ok r' ∧ r'.base = r.base ∧
        r.charges.Perm ((List.finRange twinCells.size).map electronOn) ∧
        r'.snapshots = r.snapshots.map (raiseSnapshot 1) := by
  intro p lowered raised
  have hp : p.check = .ok () :=
    Parameters.check_eq_ok_iff.2 (Parameters.check_eq_ok_iff.1 (check_twinParameters (.inl rfl)))
  have hlowered : lowered = twinParameters 2 := by
    show (⟨2, 5.6, 5.0, -0.2 + 1 - 1⟩ : Parameters ℝ) = ⟨2, 5.6, 5.0, -0.2⟩
    rw [add_sub_cancel_right]
  obtain ⟨hpruned, -, haccepted⟩ := enumerations_raise twinCells p 1
  obtain ⟨r', hr'⟩ := (haccepted hp rfl).1 .off
  obtain ⟨r, hr, hsame⟩ :=
    map_eq_ok_iff.1 ((hpruned .off).symm.trans (congrArg (Except.map _) hr'))
  obtain ⟨hbase, hsnapshots⟩ := Prod.ext_iff.1 hsame
  obtain ⟨r₁, hr₁, hcharges⟩ := exists_enumeratePruned_twinCells (.inl rfl) .off
  have hr₂ : twinCells.enumeratePruned lowered .off = .ok r₁ := hlowered ▸ hr₁
  obtain rfl := Except.ok.inj (hr.symm.trans hr₂)
  exact ⟨hp, rfl, r, r', hr, hr', hbase.symm, hcharges, hsnapshots.symm⟩

end DanglingBonds
