/-
# Cells that are held from outside

What is applied from outside may be so strong that each cell has the same charge whatever the others
do. A layout all of whose cells are held has one stable assignment, and a gate made of it carries
the same bits for every truth table.

* `Environment.IsHeld` : a cell is held at a charge.
* `Environment.IsStable.eq_of_isHeld` : the one stable assignment of held cells.
* `Layout.hasGround_of_isHeld` : it is the ground state of either engine.
* `heldWire` : a wire whose output is held at zero.
-/
import Mathlib
import DanglingBonds.Proofs.InputVerdicts
import DanglingBonds.Proofs.StableDistributions

namespace DanglingBonds

/-! ## Held cells -/

namespace Environment

variable {n : ℕ} {env : Environment ℝ n} {pull : ℝ} {i : Fin n} {q : Vector Charge n}

/-- What is applied to cell `i` from outside holds it at a charge, as long as the other cells lower
its potential by no more than `pull`. -/
def IsHeld (env : Environment ℝ n) (pull : ℝ) (i : Fin n) : Charge → Prop
  | .negative => env.parameters.muMinus + pull + stabilityTolerance < env.external.get i
  | .neutral => env.parameters.muPlus + pull + stabilityTolerance ≤ env.external.get i ∧
      env.external.get i + stabilityTolerance ≤ env.parameters.muMinus
  | .positive => False

/-- A held cell cannot be positive. -/
theorem canBePositive_eq_false_of_isHeld (hpull : ∑ j, env.between i j ≤ pull) {c : Charge}
    (h : env.IsHeld pull i c) : env.canBePositive i = false := by
  have htol := stabilityTolerance_pos
  have hgap := two_mul_stabilityTolerance_lt_transitionGap
  have hplus := env.parameters.muPlus_eq
  rw [canBePositive_eq_false_iff, lowestPotential_eq_sum]
  cases c with
  | negative =>
    unfold IsHeld at h
    linarith
  | neutral =>
    obtain ⟨hlow, -⟩ := h
    linarith
  | positive => exact h.elim

/-- Cells that are not positive lower the potentials of the others, where cells repel each other. -/
theorem potential_le_external (hpair : ∀ i j, 0 ≤ env.between i j)
    (hq : ∀ j, q.get j ≠ .positive) (i : Fin n) : env.potential q i ≤ env.external.get i := by
  have hvalue : ∀ j, ((q.get j).value : ℝ) ≤ 0 := by
    intro j
    cases hj : q.get j with
    | negative =>
      rw [value_negative]
      norm_num
    | neutral => exact value_neutral.le
    | positive => exact absurd hj (hq j)
  have hsum : ∑ j, env.between i j * (q.get j).value ≤ 0 :=
    Finset.sum_nonpos fun j _ => mul_nonpos_of_nonneg_of_nonpos (hpair i j) (hvalue j)
  rw [potential]
  linarith

/-- **Held cells have one stable assignment.** -/
theorem IsStable.eq_of_isHeld {q' : Vector Charge n} (hq' : env.IsStable q')
    (hpair : ∀ i j, 0 ≤ env.between i j) (hpull : ∀ i, ∑ j, env.between i j ≤ pull)
    (hheld : ∀ i, env.IsHeld pull i (q.get i)) : q' = q := by
  have hnone : ∀ i, q'.get i ≠ .positive := fun i =>
    ne_positive_of_canBePositive_eq_false hpair
      (canBePositive_eq_false_of_isHeld (hpull i) (hheld i)) (hq'.population i)
  apply ext_get
  intro i
  have hi := hheld i
  cases hc : q.get i with
  | negative =>
    rw [hc] at hi
    unfold IsHeld at hi
    refine eq_negative_of_mustBeNegative hpair (mustBeNegative_iff.2 ?_) (hq'.population i)
    rw [lowestPotential_eq_sum]
    linarith [hpull i]
  | neutral =>
    rw [hc] at hi
    obtain ⟨-, hup⟩ := hi
    have hle := potential_le_external hpair hnone i
    cases hc' : q'.get i with
    | neutral => rfl
    | positive => exact absurd hc' (hnone i)
    | negative =>
      -- the potential is too low for an electron
      have hstable := hq'.population i
      rw [hc', isPopulationStable_negative_iff] at hstable
      linarith
  | positive =>
    rw [hc] at hi
    exact hi.elim

end Environment

/-! ## Layouts of held cells -/

namespace Layout

variable {l : Layout ℝ} {o : GateOptions ℝ} {pull : ℝ} {q : Vector Charge l.size}

/-- **The ground state of held cells.** Either engine finds one distribution of a layout all of
whose cells are held. -/
theorem hasGround_of_isHeld (hp : o.parameters.check = .ok ()) (hl : l.checkDefects = .ok ())
    (hcells : l.isEmpty = false) (hfits : l.FitsIndices o.parameters o.engine)
    (hpull : ∀ i, ∑ j, (Environment.ofLayout l o.parameters).between i j ≤ pull)
    (hheld : ∀ i, (Environment.ofLayout l o.parameters).IsHeld pull i (q.get i)) :
    ∃ s : Surface ℝ l.size, l.HasGround o s.chargeAt? ∧
      s.env = Environment.ofLayout l o.parameters ∧ s.charges = q := by
  have hpair := Environment.ofLayout_between_nonneg l hp
  have hadmits : l.admitsPositive o.parameters = false := admitsPositive_eq_false_iff.2 fun i =>
    Environment.canBePositive_eq_false_of_isHeld (hpull i) (hheld i)
  obtain ⟨r, hr, hnodup, -⟩ := exists_simulate_exact hp hl hcells hfits
  obtain ⟨r', hr', hne⟩ := exists_distribution_simulate hp hl hcells (.inr hadmits) hfits
  obtain rfl : r = r' := Except.ok.inj (hr.symm.trans hr')
  have hcharges : ∀ s ∈ r.distributions, s.charges = q := fun s hs =>
    (isStableSurface_of_mem_distributions hr hs).stable.eq_of_isHeld hpair hpull hheld
  -- all distributions have the same charges, and no two do
  obtain ⟨s, hs⟩ : ∃ s, r.distributions = [s] := by
    match hcase : r.distributions with
    | [] => exact absurd hcase hne
    | [s] => exact ⟨s, rfl⟩
    | s :: s' :: rest =>
      rw [Simulation.charges, hcase, List.map_cons, List.map_cons] at hnodup
      refine absurd ?_ (List.nodup_cons.1 hnodup).1
      rw [hcharges s (hcase ▸ List.mem_cons_self),
        hcharges s' (hcase ▸ List.mem_cons_of_mem _ List.mem_cons_self)]
      exact List.mem_cons_self
  have hmem : s ∈ r.distributions := hs ▸ List.mem_cons_self
  have hleast : r.IsLeast s := by
    refine ⟨hmem, fun s' hs' => ?_⟩
    rw [hs, List.mem_singleton] at hs'
    rw [hs']
  have htied : ¬ r.IsTied := by
    rintro ⟨a, b, hsub, -⟩
    rw [hs] at hsub
    exact absurd hsub.length_le (by simp)
  have hpositive : ¬ l.CanBePositive o.parameters := by
    rw [← admitsPositive_eq_true_iff, hadmits]
    exact Bool.false_ne_true
  exact ⟨s, ⟨r, s, ⟨hpositive, hr⟩, hleast, htied, rfl⟩,
    (isStableSurface_of_mem_distributions hr hmem).env_eq, hcharges s hmem⟩

end Layout

/-! ## Cells in a row -/

/-- Of two sites in a row the western one is the upper cell of their pair. -/
theorem ofCells_row {x x' : ℤ} (h : x ≤ x') :
    Pair.ofCells ℝ .si100 ⟨x, 0, 0⟩ ⟨x', 0, 0⟩ = ⟨⟨x, 0, 0⟩, ⟨x', 0, 0⟩⟩ := by
  have hle : (x : ℝ) * 0.384 + ((0 : ℤ) : ℝ) * 0 ≤ (x' : ℝ) * 0.384 + ((0 : ℤ) : ℝ) * 0 := by
    have hcast : (x : ℝ) ≤ x' := Int.cast_le.2 h
    linarith
  have hlevel : (Lattice.si100.position ⟨x, 0, 0⟩ : Position ℝ).y
      = (Lattice.si100.position ⟨x', 0, 0⟩ : Position ℝ).y := rfl
  rw [Pair.ofCells, if_neg hlevel.not_lt, if_neg hlevel.symm.not_lt]
  exact if_pos (decide_eq_true hle)

/-! ## A wire that is held at zero -/

/-- Potentials that hold all cells of the wire negative but the lower output cell, which they hold
neutral. -/
noncomputable def heldPotentials : List (Site × ℝ) :=
  [(⟨0, 0, 0⟩, 0.5), (⟨2, 0, 0⟩, 0.5), (⟨6, 0, 0⟩, 0.5), (⟨8, 0, 0⟩, -0.5)]

theorem heldPotentials_ascending : Ascending heldPotentials := by
  unfold Ascending
  decide

/-- The wire with these potentials. -/
noncomputable def heldWire : Layout ℝ :=
  { shortWire with localPotentials := ⟨heldPotentials, heldPotentials_ascending⟩ }

/-- The preset options of a gate check in base 2, at a permittivity at which cells hardly feel each
other. -/
noncomputable def weakGate : GateOptions ℝ where
  parameters := { (default : Parameters ℝ) with base := 2, epsilonR := 56 }
  engine := .quickExact
  window := default

/-- The charge at which the cell at a site is held. -/
def heldCharge (s : Site) : Charge :=
  if s.x = 8 then .neutral else .negative

theorem check_weakGate : weakGate.parameters.check = .ok () := by
  refine Parameters.check_eq_ok_iff.2 ⟨.inl rfl, ?_, ?_⟩
  · show (0 : ℝ) < 56
    norm_num
  · show (0 : ℝ) < 5.0
    norm_num

theorem mem_sites_heldWire {s : Site} (hs : s ∈ heldWire.sites) :
    s = ⟨0, 0, 0⟩ ∨ s = ⟨2, 0, 0⟩ ∨ s = ⟨6, 0, 0⟩ ∨ s = ⟨8, 0, 0⟩ := by
  have hs' : s ∈ ([⟨0, 0, 0⟩, ⟨2, 0, 0⟩, ⟨6, 0, 0⟩, ⟨8, 0, 0⟩] : List Site) := hs
  simpa only [List.mem_cons, List.not_mem_nil, or_false] using hs'

/-- All sites of the wire are in one row. -/
theorem eq_of_mem_sites_heldWire {s : Site} (hs : s ∈ heldWire.sites) : s = ⟨s.x, 0, 0⟩ := by
  rcases mem_sites_heldWire hs with rfl | rfl | rfl | rfl <;> rfl

/-- Two cells of the wire hardly feel each other. -/
theorem screenedPotential_heldWire_le {a b : Site} (ha : a ∈ heldWire.sites)
    (hb : b ∈ heldWire.sites) :
    screenedPotential (Lattice.si100.distance a b) (56 : ℝ) 5.0 ≤ 0.08 := by
  rw [eq_of_mem_sites_heldWire ha, eq_of_mem_sites_heldWire hb, distance_row]
  by_cases hx : b.x - a.x = 0
  · rw [hx, Int.cast_zero, abs_zero, zero_mul, screenedPotential, if_pos (by norm_num)]
    norm_num
  · have hone : (1 : ℝ) ≤ |((b.x - a.x : ℤ) : ℝ)| := by
      rw [← Int.cast_abs]
      exact_mod_cast Int.one_le_abs hx
    have hcolumn : (0.384 : ℝ) ≤ |((b.x - a.x : ℤ) : ℝ)| * 0.384 := by linarith
    refine screenedPotential_le (by norm_num) (by norm_num) (by norm_num) hcolumn ?_
    show (1.602e-19 : ℝ) ≤ 0.08 * (4 * 3 * 8.854e-12 * 56 * (0.384 * 1e-9))
    norm_num

section HeldWire

variable (index : ℕ)

/-- An input combination of the wire. -/
noncomputable def heldWireFor (index : ℕ) : Layout ℝ :=
  (InputTerminals.ofLayout heldWire weakGate.window).layoutFor index

/-- An input combination has cells of the wire, in the surroundings of the wire. -/
theorem heldWireFor_eq : (heldWireFor index).lattice = .si100 ∧
    (∀ s ∈ (heldWireFor index).sites, s ∈ heldWire.sites) ∧
    ∀ s, (heldWireFor index).defectPotential s + (heldWireFor index).localPotential s
      + (heldWireFor index).globalPotential = heldWire.localPotential s := by
  obtain ⟨cells, hcells⟩ :=
    exists_setPairs_eq index (heldWire.pairs (some .input) weakGate.window) heldWire
  have hlayout : heldWireFor index = { heldWire with cells } := hcells
  refine ⟨?_, fun s hs => ?_, fun s => ?_⟩
  · rw [hlayout]
    rfl
  · obtain ⟨e, he, rfl⟩ := List.mem_map.1 hs
    exact List.mem_map_of_mem (mem_entries_of_mem_setPairs he)
  · rw [hlayout]
    show (0 : ℝ) + heldWire.localPotential s + 0 = heldWire.localPotential s
    ring

theorem size_heldWireFor_le : (heldWireFor index).size ≤ 4 :=
  size_setPairs_le index _ heldWire

/-- The cells together lower the potential of a cell by a third of a volt at most. -/
theorem sum_between_heldWire_le (i : Fin (heldWireFor index).size) :
    ∑ j, (Environment.ofLayout (heldWireFor index) weakGate.parameters).between i j ≤ 0.32 := by
  obtain ⟨hlattice, hsites, -⟩ := heldWireFor_eq index
  have hbetween : ∀ j,
      (Environment.ofLayout (heldWireFor index) weakGate.parameters).between i j ≤ 0.08 := by
    intro j
    rw [Environment.between_ofLayout, hlattice]
    split
    · norm_num
    · exact screenedPotential_heldWire_le (hsites _ (Environment.get_sites_ofLayout_mem _ _ i))
        (hsites _ (Environment.get_sites_ofLayout_mem _ _ j))
  have hsum := Finset.sum_le_card_nsmul Finset.univ _ 0.08 fun j _ => hbetween j
  rw [Finset.card_univ, Fintype.card_fin, nsmul_eq_mul] at hsum
  have hsize : ((heldWireFor index).size : ℝ) ≤ 4 := by
    exact_mod_cast size_heldWireFor_le index
  linarith

/-- Every cell of the wire is held. -/
theorem isHeld_heldWire (i : Fin (heldWireFor index).size) :
    let env := Environment.ofLayout (heldWireFor index) weakGate.parameters
    env.IsHeld 0.32 i (heldCharge (env.sites.get i)) := by
  intro env
  obtain ⟨-, hsites, happlied⟩ := heldWireFor_eq index
  have hexternal : env.external.get i = heldWire.localPotential (env.sites.get i) := by
    rw [Environment.external_ofLayout]
    exact happlied _
  have hmem : env.sites.get i ∈ heldWire.sites :=
    hsites _ (Environment.get_sites_ofLayout_mem _ _ i)
  have hpotential : ∀ s ∈ heldWire.sites,
      heldCharge s = .negative ∧ heldWire.localPotential s = 0.5 ∨
        heldCharge s = .neutral ∧ heldWire.localPotential s = -0.5 := by
    intro s hs
    rcases mem_sites_heldWire hs with rfl | rfl | rfl | rfl
    · exact .inl ⟨rfl, rfl⟩
    · exact .inl ⟨rfl, rfl⟩
    · exact .inl ⟨rfl, rfl⟩
    · exact .inr ⟨rfl, rfl⟩
  rcases hpotential _ hmem with ⟨hcharge, hv⟩ | ⟨hcharge, hv⟩
  · rw [hcharge]
    show (-0.32 : ℝ) + 0.32 + 1e-6 < env.external.get i
    rw [hexternal, hv]
    norm_num
  · rw [hcharge]
    show (-0.32 - 0.59 : ℝ) + 0.32 + 1e-6 ≤ env.external.get i ∧
      env.external.get i + 1e-6 ≤ (-0.32 : ℝ)
    rw [hexternal, hv]
    norm_num

/-- The wire has one input pair and one output pair. -/
theorem pairs_heldWire :
    heldWire.pairs (some .input) weakGate.window = [⟨⟨0, 0, 0⟩, ⟨2, 0, 0⟩⟩] ∧
      heldWire.pairs (some .output) weakGate.window = [⟨⟨6, 0, 0⟩, ⟨8, 0, 0⟩⟩] := by
  constructor
  · rw [← ofCells_row (by decide : (0 : ℤ) ≤ 2)]
    exact pairs_shortWire .input 0 rfl rfl rfl
  · rw [← ofCells_row (by decide : (6 : ℤ) ≤ 8)]
    exact pairs_shortWire .output 6 rfl rfl rfl

/-- So there are two input combinations. -/
theorem combinations_heldWire :
    (InputTerminals.ofLayout heldWire weakGate.window).combinations = 2 := by
  show 2 ^ (heldWire.pairs (some .input) weakGate.window).length = 2
  rw [pairs_heldWire.1]
  rfl

/-- The output of the wire carries a zero under every input combination. -/
theorem hasGround_heldWire : ∃ charge, (heldWireFor index).HasGround weakGate charge ∧
    CarriesBit charge ⟨⟨6, 0, 0⟩, ⟨8, 0, 0⟩⟩ false := by
  have hempty : (heldWireFor index).isEmpty = false :=
    isEmpty_layoutFor (by rw [pairs_heldWire.2]; exact List.cons_ne_nil _ _) index
  have hfits : (heldWireFor index).FitsIndices weakGate.parameters weakGate.engine := by
    refine fitsIndices_of_pow_le check_weakGate ?_ _
    exact (Nat.pow_le_pow_right Nat.two_pos (size_heldWireFor_le index)).trans (by norm_num)
  have hheld := isHeld_heldWire index
  set env := Environment.ofLayout (heldWireFor index) weakGate.parameters with henv
  obtain ⟨s, hground, hs, hcharges⟩ := Layout.hasGround_of_isHeld
    (q := Vector.ofFn fun i => heldCharge (env.sites.get i)) check_weakGate
    (checkDefects_setPairs index _ heldWire) hempty hfits (sum_between_heldWire_le index)
    fun i => by
      rw [get_ofFn]
      exact hheld i
  have hmem := mem_sites_layoutFor (l := heldWire) (w := weakGate.window)
    (p := ⟨⟨6, 0, 0⟩, ⟨8, 0, 0⟩⟩) (by rw [pairs_heldWire.2]; exact List.mem_singleton_self _) index
  have hcharge : ∀ site ∈ (heldWireFor index).sites, s.chargeAt? site = some (heldCharge site) := by
    intro site hsite
    obtain ⟨i, hi, hget⟩ := Surface.exists_chargeAt?_eq_some hs hsite
    rw [hi, hcharges, get_ofFn, henv, hget]
  exact ⟨_, hground, hcharge _ hmem.1, hcharge _ hmem.2⟩

end HeldWire

/-- The check of an input combination of the wire passes for a table that has a zero there. -/
theorem passesInput_heldWire {t : TruthTable} {i : ℕ} (h : t.bit? i = some false) :
    heldWire.PassesInput [t] weakGate i := by
  obtain ⟨charge, hground, hcarries⟩ := hasGround_heldWire i
  refine ⟨charge, hground, fun e he => ?_⟩
  rw [pairs_heldWire.2, List.zip_cons_cons, List.zip_nil_right, List.mem_singleton] at he
  rw [he]
  exact ⟨false, h, hcarries⟩

/-- It fails for one that has a one there. -/
theorem failsInput_heldWire {t : TruthTable} {i : ℕ} (h : t.bit? i = some true) :
    heldWire.FailsInput [t] weakGate i (.wrongOutput 0) := by
  obtain ⟨charge, hground, hcarries⟩ := hasGround_heldWire i
  refine ⟨charge, (⟨⟨6, 0, 0⟩, ⟨8, 0, 0⟩⟩, t), hground, ⟨?_, ?_, fun j hj => ?_⟩,
    hcarries.upper_ne_lower⟩
  · rw [pairs_heldWire.2]
    rfl
  · rintro ⟨bit, hbit, hcarries'⟩
    rw [h, ← hcarries.eq hcarries'] at hbit
    cases hbit
  · exact absurd hj j.not_lt_zero

/-- The tables of the wire fit if they have one input. -/
theorem checkArity_heldWire {t : TruthTable} (ht : t.vars = 1) :
    (checkArity [t] (heldWire.pairs (some .input) weakGate.window).length
      (heldWire.pairs (some .output) weakGate.window).length
        : Except (AnalysisError ℝ) Unit) = .ok () :=
  checkArity_shortWire ht

/-- **The wire works** as a gate whose output is zero. -/
theorem assess_heldWire :
    heldWire.assess [⟨1, [false, false], rfl⟩] weakGate = .ok ⟨none, 2⟩ := by
  rw [assess_eq_checkInputsFrom check_weakGate (checkArity_heldWire rfl), pairs_heldWire.1]
  refine checkInputsFrom_of_passes fun i hi => checkInput_of_passes (passesInput_heldWire ?_)
  have hi' : i < 2 := hi
  interval_cases i <;> rfl

end DanglingBonds
