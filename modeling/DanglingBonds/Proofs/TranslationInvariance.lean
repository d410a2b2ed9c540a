/-
# The verdict on a translated gate

Moving a gate with everything around it by whole columns and dimer rows changes no verdict. The
environment of the translated layout has the same potentials, so an engine finds the same charges,
and the outputs are read at sites that have moved along.

* `Environment.IsTranslate` : two environments that differ by a translation of their sites.
* `IsTranslate.failure?_eq` : what a simulation says about the outputs.
* `checkInput_translate` : one input combination.
* `assess_translate` : the verdict.
-/
import Mathlib
import DanglingBonds.Proofs.RaisedPotentials
import DanglingBonds.Proofs.StableDistributions
import DanglingBonds.Proofs.Translation

namespace DanglingBonds

variable {m n : ℕ}

/-! ## Environments -/

namespace Environment

/-- The sites of `env'` are those of `env` translated, in the same order; potentials and parameters
are the same. -/
structure IsTranslate (dx dy : ℤ) (env : Environment ℝ n) (env' : Environment ℝ m) : Prop where
  size_eq : m = n
  sites_eq : ∀ i, env'.sites.get i = (env.sites.get (i.cast size_eq)).translate dx dy
  between_eq : ∀ i j, env'.between i j = env.between (i.cast size_eq) (j.cast size_eq)
  external_eq : ∀ i, env'.external.get i = env.external.get (i.cast size_eq)
  parameters_eq : env'.parameters = env.parameters

/-- The environment of a translated layout. -/
theorem ofLayout_isTranslate (dx dy : ℤ) (l : Layout ℝ) (p : Parameters ℝ) :
    (ofLayout l p).IsTranslate dx dy (ofLayout (l.translate dx dy) p) := by
  have hsites : ∀ i, (ofLayout (l.translate dx dy) p).sites.get i
      = ((ofLayout l p).sites.get (i.cast (size_translate dx dy l))).translate dx dy := by
    intro i
    have hget := getElem?_sites (l.translate dx dy) p i
    have hget' := getElem?_sites l p (i.cast (size_translate dx dy l))
    rw [sites_translate, List.getElem?_map] at hget
    exact (Option.some.inj ((congrArg (Option.map _) hget').symm.trans hget)).symm
  refine ⟨size_translate dx dy l, hsites, fun i j => ?_, fun i => ?_, rfl⟩
  · rw [between_ofLayout, between_ofLayout, hsites, hsites, lattice_translate, distance_translate]
    simp only [Fin.cast_inj]
  · rw [external_ofLayout, external_ofLayout, hsites, defectPotential_translate,
      localPotential_translate]
    rfl

namespace IsTranslate

variable {dx dy : ℤ} {env : Environment ℝ n}

/-- Potentials are not raised. -/
theorem isRaised {env' : Environment ℝ n} (h : env.IsTranslate dx dy env') :
    env.IsRaised env' 0 where
  between_eq := h.between_eq
  external_eq i := by
    rw [add_zero]
    exact h.external_eq i
  base_eq := congrArg Parameters.base h.parameters_eq
  muMinus_eq := by
    rw [add_zero, h.parameters_eq]

/-- A translated site has the number it had. -/
theorem index?_eq {env' : Environment ℝ n} (h : env.IsTranslate dx dy env') (s : Site) :
    env'.index? (s.translate dx dy) = env.index? s := by
  have htest : ∀ i, (env'.sites.get i).sameRank (s.translate dx dy)
      = (env.sites.get i).sameRank s := fun i =>
    (congrArg (·.sameRank (s.translate dx dy)) (h.sites_eq i)).trans
      (sameRank_translate dx dy (env.sites.get i) s)
  rw [index?, index?]
  simp only [htest]

/-- Whether some cell can be positive. -/
theorem any_canBePositive_eq {env' : Environment ℝ m} (h : env.IsTranslate dx dy env') :
    (List.finRange m).any env'.canBePositive = (List.finRange n).any env.canBePositive := by
  obtain rfl := h.size_eq
  rw [h.isRaised.canBePositive_eq]

end IsTranslate

end Environment

/-! ## Outputs -/

/-- Outputs at translated sites are judged alike if the charges there are the same. -/
theorem firstBadOutput_translate {dx dy : ℤ} {charge charge' : Site → Option Charge}
    (h : ∀ s, charge' (s.translate dx dy) = charge s) (index output : ℕ)
    (outputs : List (Pair × TruthTable)) :
    firstBadOutput charge' index output
        (outputs.map fun e => (e.1.translate dx dy, e.2))
      = firstBadOutput charge index output outputs := by
  induction outputs generalizing output with
  | nil => rfl
  | cons e rest ih =>
    rw [List.map_cons, firstBadOutput, firstBadOutput, ih]
    simp only [Pair.translate, h]

/-- The outputs are judged alike on a simulation of the translated environment. -/
theorem Environment.IsTranslate.failure?_eq {dx dy : ℤ} {env : Environment ℝ n}
    {env' : Environment ℝ m} (h : env.IsTranslate dx dy env') (hrecip : env.IsReciprocal)
    (e : Engine) (index : ℕ) (outputs : List (Pair × TruthTable)) :
    (env'.simulation e).failure? index (outputs.map fun e => (e.1.translate dx dy, e.2))
      = (env.simulation e).failure? index outputs := by
  obtain rfl := h.size_eq
  have hmap := h.isRaised.distributions_simulation hrecip e
  have henergy : ∀ s : Surface ℝ m, (s.raise env' 0).energy = s.energy := fun s =>
    (congrArg (s.energy + ·) (zero_mul _)).trans (add_zero _)
  rw [Simulation.failure?, Simulation.failure?, Simulation.groundState?_of_map hmap henergy,
    Simulation.spectrum_of_map hmap henergy]
  cases hcase : (env.simulation e).groundState? with
  | none => rfl
  | some ground =>
    -- a ground state belongs to the environment, so its charges are looked up there
    have hmem := (Simulation.isLeast_of_groundState?_eq_some hcase).1
    have henv := (Environment.simulation_isStableSurface hrecip e ground hmem).env_eq
    have hcharge : ∀ s, (ground.raise env' 0).chargeAt? (s.translate dx dy)
        = ground.chargeAt? s := by
      intro s
      rw [Surface.chargeAt?, Surface.chargeAt?, henv]
      exact congrArg (Option.map _) (h.index?_eq s)
    rw [Option.map_some]
    dsimp only
    rw [firstBadOutput_translate hcharge]

/-! ## Gates -/

section Gate

variable (dx dy : ℤ)

/-- No cell of the translated layout can be positive unless one of the layout can. -/
theorem admitsPositive_translate (l : Layout ℝ) (p : Parameters ℝ) :
    (l.translate dx dy).admitsPositive p = l.admitsPositive p :=
  (Environment.ofLayout_isTranslate dx dy l p).any_canBePositive_eq

/-- An input combination of a layout with cells is judged alike. -/
theorem checkInput_translate {l : Layout ℝ} {o : GateOptions ℝ}
    (hp : o.parameters.check = .ok ()) (hcells : l.isEmpty = false) (index : ℕ)
    (outputs : List (Pair × TruthTable)) :
    (l.translate dx dy).checkInput index (outputs.map fun e => (e.1.translate dx dy, e.2)) o
      = l.checkInput index outputs o := by
  have hcells' : (l.translate dx dy).isEmpty = false :=
    (List.isEmpty_map : (l.cells.entries.map _).isEmpty = _).trans hcells
  have hdefects := checkDefects_translate dx dy l
  rw [Layout.checkInput, Layout.checkInput, admitsPositive_translate]
  split
  · rfl
  · cases hl : l.checkDefects with
    | error cause =>
      rw [simulate_of_checkDefects_eq_error hp hl,
        simulate_of_checkDefects_eq_error hp (hdefects.trans hl)]
      rfl
    | ok u =>
      rw [simulate_eq_simulation hp hl hcells,
        simulate_eq_simulation hp (hdefects.trans hl) hcells']
      exact congrArg (fun failure => Except.ok (InputVerdict.mk true failure))
        ((Environment.ofLayout_isTranslate dx dy l o.parameters).failure?_eq
          (Environment.ofLayout_isReciprocal l o.parameters) o.engine index outputs)

end Gate

/-- **The verdict does not depend on the place.** Translated by whole columns and dimer rows, with
its defects and local potentials, a gate gets the same verdict or the same error, whatever the truth
tables and options are. -/
theorem assess_translate (dx dy : ℤ) (l : Layout ℝ) (tables : List TruthTable) (o : GateOptions ℝ) :
    (l.translate dx dy).assess tables o = l.assess tables o := by
  have hpairs : ∀ r, (l.translate dx dy).pairs r o.window
      = (l.pairs r o.window).map (·.translate dx dy) :=
    fun r => pairs_translate dx dy l r o.window
  rw [assess_eq_bind, assess_eq_bind, hpairs, hpairs, List.length_map, List.length_map]
  refine bind_congr_of_ok fun _ hp => bind_congr_of_ok fun _ harity => ?_
  rw [mapError_eq_ok_iff] at hp
  refine checkInputsFrom_congr fun i _ _ => ?_
  rw [Layout.checkCombination, Layout.checkCombination, layoutFor_translate, hpairs,
    List.zip_map_left]
  exact checkInput_translate dx dy hp (isEmpty_layoutFor (ne_nil_of_checkArity harity) i) i _

end DanglingBonds
