/-
# Stability margins are sharp

The margin of a charge assignment is the least distance of a cell's potential from a transition
level of its charge. Unless that is below the tolerance of the stability tests it is the radius of
stability: potentials may drift by less than the margin, each on its own, and no charge changes,
while the critical cell alone, a little beyond its level, does not keep its charge.

* `Transition.chargeChange`, `Transition.level` : what a transition changes, and at which level.
* `isPopulationStable_iff_forall` : a charge is stable if none of its transitions is overdue.
* `isPopulationStable_of_drift`, `isPopulationStable_beyond` : a cell within its margin, and beyond.
* `Surface.threshold_isNearest`, `Surface.exists_critical?` : what is reported of the cells.
* `stabilityMargins_sharp` : the margins of a layout.
-/
import Mathlib
import DanglingBonds.StabilityMargin
import DanglingBonds.Proofs.GroundStateQueries

namespace DanglingBonds

/-! ## Transitions -/

namespace Transition

/-- The charge before a transition. -/
def source : Transition → Charge
  | negativeToNeutral => .negative
  | neutralToNegative => .neutral
  | neutralToPositive => .neutral
  | positiveToNeutral => .positive

/-- The charge after a transition. -/
def target : Transition → Charge
  | negativeToNeutral => .neutral
  | neutralToNegative => .negative
  | neutralToPositive => .positive
  | positiveToNeutral => .neutral

/-- By how much a transition changes the charge: up or down by one. -/
noncomputable def chargeChange (t : Transition) : ℝ :=
  t.target.value - t.source.value

/-- The level at which a transition takes place. -/
noncomputable def level (t : Transition) (p : Parameters ℝ) : ℝ :=
  match t with
  | negativeToNeutral => p.muMinus
  | neutralToNegative => p.muMinus
  | neutralToPositive => p.muPlus
  | positiveToNeutral => p.muPlus

@[simp] theorem chargeChange_negativeToNeutral : negativeToNeutral.chargeChange = 1 := by
  simp [chargeChange, source, target]

@[simp] theorem chargeChange_neutralToNegative : neutralToNegative.chargeChange = -1 := by
  simp [chargeChange, source, target]

@[simp] theorem chargeChange_neutralToPositive : neutralToPositive.chargeChange = 1 := by
  simp [chargeChange, source, target]

@[simp] theorem chargeChange_positiveToNeutral : positiveToNeutral.chargeChange = -1 := by
  simp [chargeChange, source, target]

/-- A transition changes the charge by one. -/
theorem chargeChange_eq_or (t : Transition) : t.chargeChange = 1 ∨ t.chargeChange = -1 := by
  cases t <;> simp

/-- What holds of all transitions that start at a charge. -/
theorem forall_source_iff {P : Transition → Prop} {c : Charge} :
    (∀ t : Transition, t.source = c → P t) ↔ match c with
      | .negative => P .negativeToNeutral
      | .neutral => P .neutralToNegative ∧ P .neutralToPositive
      | .positive => P .positiveToNeutral := by
  constructor
  · intro h
    cases c with
    | negative => exact h _ rfl
    | neutral => exact ⟨h _ rfl, h _ rfl⟩
    | positive => exact h _ rfl
  · rintro h t rfl
    cases t with
    | negativeToNeutral => exact h
    | neutralToNegative => exact h.1
    | neutralToPositive => exact h.2
    | positiveToNeutral => exact h

end Transition

/-! ## One cell -/

section Cell

variable {c : Charge} {v δ margin : ℝ} {p : Parameters ℝ}

/-- **A charge is stable** if none of its transitions is overdue: one that raises the charge is so
when the potential is below its level by the tolerance, and one that lowers it when the potential is
above its level by the tolerance. -/
theorem isPopulationStable_iff_forall :
    isPopulationStable c v p = true ↔
      ∀ t : Transition, t.source = c → t.chargeChange * (-v + t.level p) < stabilityTolerance := by
  have hdown : ∀ x : ℝ, -1 * x < stabilityTolerance ↔ -stabilityTolerance < x := fun x => by
    rw [neg_one_mul, neg_lt]
  rw [Transition.forall_source_iff]
  cases c with
  | negative => simp [isPopulationStable_negative_iff, Transition.level]
  | neutral =>
    rw [isPopulationStable_neutral_iff, ← hdown]
    simp [Transition.level]
  | positive =>
    rw [isPopulationStable_positive_iff, ← hdown]
    simp [Transition.level]

/-- A transition that is not overdue, at a distance of at least the tolerance from its level, is
that far from being due. -/
theorem chargeChange_mul_eq {t : Transition}
    (h : t.chargeChange * (-v + t.level p) < stabilityTolerance)
    (hfar : stabilityTolerance ≤ |-v + t.level p|) :
    t.chargeChange * (-v + t.level p) = -|-v + t.level p| := by
  rcases t.chargeChange_eq_or with hup | hdown
  · rw [hup, one_mul] at h ⊢
    rcases abs_choice (-v + t.level p) with habs | habs
    · exact absurd h (not_lt.2 (habs ▸ hfar))
    · rw [habs, neg_neg]
  · rw [hdown, neg_one_mul] at h ⊢
    rcases abs_choice (-v + t.level p) with habs | habs
    · rw [habs]
    · exact absurd h (not_lt.2 (habs ▸ hfar))

/-- **Within the margin.** A stable charge stays stable when its potential drifts by less than its
distance from all levels, if that is at least the tolerance. -/
theorem isPopulationStable_of_drift (h : isPopulationStable c v p = true)
    (hmargin : stabilityTolerance ≤ margin)
    (hfar : ∀ t : Transition, t.source = c → margin ≤ |-v + t.level p|) (hδ : |δ| < margin) :
    isPopulationStable c (v + δ) p = true := by
  rw [isPopulationStable_iff_forall] at h ⊢
  intro t ht
  have hdue := chargeChange_mul_eq (h t ht) (hmargin.trans (hfar t ht))
  have hdrift : -(t.chargeChange * δ) ≤ |δ| := by
    rcases t.chargeChange_eq_or with hup | hdown
    · rw [hup, one_mul]
      exact neg_le_abs δ
    · rw [hdown, neg_one_mul, neg_neg]
      exact le_abs_self δ
  calc t.chargeChange * (-(v + δ) + t.level p)
      = t.chargeChange * (-v + t.level p) + -(t.chargeChange * δ) := by ring
    _ ≤ -margin + |δ| := add_le_add (hdue.trans_le (neg_le_neg (hfar t ht))) hdrift
    _ < stabilityTolerance := by linarith [stabilityTolerance_pos]

/-- **Beyond the margin.** A drift that passes the level of a transition by the tolerance, and more,
makes the transition overdue: down where it raises the charge, and up where it lowers it. -/
theorem isPopulationStable_beyond {t : Transition} (h : isPopulationStable t.source v p = true)
    (hfar : stabilityTolerance ≤ |-v + t.level p|) :
    isPopulationStable t.source
      (v - t.chargeChange * (|-v + t.level p| + 2 * stabilityTolerance)) p = false := by
  have hdue := chargeChange_mul_eq (isPopulationStable_iff_forall.1 h t rfl) hfar
  have hsquare : t.chargeChange * t.chargeChange = 1 := by
    rcases t.chargeChange_eq_or with hup | hdown
    · rw [hup, one_mul]
    · rw [hdown, neg_one_mul, neg_neg]
  rw [← Bool.not_eq_true, isPopulationStable_iff_forall]
  intro hstable
  have hlt := hstable t rfl
  have hbeyond : t.chargeChange
        * (-(v - t.chargeChange * (|-v + t.level p| + 2 * stabilityTolerance)) + t.level p)
      = 2 * stabilityTolerance := by
    calc _ = t.chargeChange * (-v + t.level p)
          + t.chargeChange * t.chargeChange * (|-v + t.level p| + 2 * stabilityTolerance) := by ring
      _ = 2 * stabilityTolerance := by rw [hdue, hsquare]; ring
  linarith [stabilityTolerance_pos]

end Cell

/-! ## What is reported of an assignment -/

variable {n : ℕ}

/-- A transition of a charge whose level is nearest to a potential. -/
structure Transition.IsNearest (t : Transition) (c : Charge) (v : ℝ) (p : Parameters ℝ) : Prop where
  source_eq : t.source = c
  le_abs : ∀ t' : Transition, t'.source = c → |-v + t.level p| ≤ |-v + t'.level p|

namespace Surface

variable {s : Surface ℝ n}

/-- A surface whose potentials have drifted. -/
def perturb (s : Surface ℝ n) (δ : Fin n → ℝ) : Surface ℝ n :=
  { s with potentials := Vector.ofFn fun i => s.potentials.get i + δ i }

theorem isPopulationStable_perturb_iff {δ : Fin n → ℝ} :
    (s.perturb δ).isPopulationStable = true ↔ ∀ i,
      DanglingBonds.isPopulationStable (s.charges.get i) (s.potentials.get i + δ i) s.env.parameters
        = true := by
  rw [isPopulationStable_iff]
  simp only [perturb, get_ofFn]

/-- **The threshold of a cell** is the nearest transition of its charge. -/
theorem threshold_isNearest (s : Surface ℝ n) (i : Fin n) :
    (s.threshold i).cell = i ∧
      (s.threshold i).transition.IsNearest (s.charges.get i) (s.potentials.get i)
        s.env.parameters ∧
      (s.threshold i).difference
        = |-s.potentials.get i + (s.threshold i).transition.level s.env.parameters| := by
  have hnearest : ∀ {t : Transition} {c : Charge}, t.source = c →
      (∀ t' : Transition, t'.source = c → |-s.potentials.get i + t.level s.env.parameters|
        ≤ |-s.potentials.get i + t'.level s.env.parameters|) →
      t.IsNearest c (s.potentials.get i) s.env.parameters := fun hsource hle => ⟨hsource, hle⟩
  rw [threshold]
  cases s.charges.get i with
  | negative =>
    exact ⟨rfl, hnearest rfl (Transition.forall_source_iff.2 le_rfl), rfl⟩
  | positive =>
    exact ⟨rfl, hnearest rfl (Transition.forall_source_iff.2 le_rfl), rfl⟩
  | neutral =>
    dsimp only
    split
    · rename_i hlt
      exact ⟨rfl, hnearest rfl (Transition.forall_source_iff.2 ⟨le_of_lt hlt, le_rfl⟩), rfl⟩
    · rename_i hle
      exact ⟨rfl, hnearest rfl (Transition.forall_source_iff.2 ⟨le_rfl, not_lt.1 hle⟩), rfl⟩

/-- **The critical cell** has the least threshold of all cells. -/
theorem exists_critical? (s : Surface ℝ n) (hn : n ≠ 0) :
    ∃ i, s.critical? = some (s.threshold i) ∧
      ∀ j, (s.threshold i).difference ≤ (s.threshold j).difference := by
  have hne : (List.finRange n).map s.threshold ≠ [] := by
    rw [ne_eq, List.map_eq_nil_iff, List.finRange_eq_nil_iff]
    exact hn
  obtain ⟨before, t, after, heq, hcritical, hbefore, hafter⟩ :=
    exists_firstMin (fun t : Threshold ℝ n => t.difference) (fun a b => decide_eq_true_iff) hne
  have hmem : t ∈ (List.finRange n).map s.threshold :=
    heq ▸ List.mem_append_right _ List.mem_cons_self
  obtain ⟨i, -, rfl⟩ := List.mem_map.1 hmem
  refine ⟨i, hcritical, fun j => ?_⟩
  have hj : s.threshold j ∈ (List.finRange n).map s.threshold :=
    List.mem_map_of_mem (List.mem_finRange j)
  rw [heq, List.mem_append, List.mem_cons] at hj
  rcases hj with hj | hj | hj
  · exact (hbefore _ hj).le
  · rw [hj]
  · exact hafter _ hj

end Surface

/-- **A sharp margin** of an assignment, at cell `i`: the distance of its potential from the level
of a transition of its charge. If that is at least the tolerance, drifts of the potentials that are
all smaller leave the charges stable, and a drift of this cell alone, past the level by twice the
tolerance, does not. -/
structure StabilityMargin.IsSharp (m : StabilityMargin ℝ) (s : Surface ℝ n) (i : Fin n) : Prop where
  site_eq : m.site = s.env.sites.get i
  energy_eq : m.energy = s.energy
  source_eq : m.transition.source = s.charges.get i
  difference_eq :
    m.difference = |-s.potentials.get i + m.transition.level s.env.parameters|
  isPopulationStable_perturb : stabilityTolerance ≤ m.difference →
    ∀ δ : Fin n → ℝ, (∀ j, |δ j| < m.difference) → (s.perturb δ).isPopulationStable = true
  not_isPopulationStable_perturb : stabilityTolerance ≤ m.difference →
    (s.perturb (Pi.single i
      (-m.transition.chargeChange * (m.difference + 2 * stabilityTolerance)))).isPopulationStable
        = false

/-- **The margin of an assignment** with cells is sharp, if its charges are stable. -/
theorem Surface.exists_margin? {s : Surface ℝ n} (hn : n ≠ 0) (h : s.isPopulationStable = true)
    (places : ℕ) : ∃ m i, s.margin? places = some m ∧ m.IsSharp s i := by
  obtain ⟨i, hcritical, hleast⟩ := s.exists_critical? hn
  obtain ⟨hcell, hnearest, hdifference⟩ := s.threshold_isNearest i
  rw [isPopulationStable_iff] at h
  refine ⟨_, i, congrArg _ hcritical, ?_⟩
  refine
    { site_eq := congrArg s.env.sites.get hcell
      energy_eq := rfl
      source_eq := hnearest.source_eq
      difference_eq := hdifference
      isPopulationStable_perturb := fun hmargin δ hδ => ?_
      not_isPopulationStable_perturb := fun hmargin => ?_ }
  · refine isPopulationStable_perturb_iff.2 fun j => ?_
    obtain ⟨-, hnearest', hdifference'⟩ := s.threshold_isNearest j
    -- the least threshold is at most the distance of every cell from each of its levels
    have hfar : ∀ t : Transition, t.source = s.charges.get j →
        (s.threshold i).difference ≤ |-s.potentials.get j + t.level s.env.parameters| :=
      fun t ht => ((hleast j).trans_eq hdifference').trans (hnearest'.le_abs t ht)
    exact isPopulationStable_of_drift (h j) hmargin hfar (hδ j)
  · rw [← Bool.not_eq_true, isPopulationStable_perturb_iff]
    intro hstable
    have hi := h i
    have hbeyond := hstable i
    rw [← hnearest.source_eq] at hi hbeyond
    have hfar : stabilityTolerance ≤ |-s.potentials.get i
        + (s.threshold i).transition.level s.env.parameters| := hdifference ▸ hmargin
    have hnot := isPopulationStable_beyond hi hfar
    rw [Pi.single_eq_same, neg_mul, ← sub_eq_add_neg] at hbeyond
    rw [← hdifference] at hnot
    exact Bool.false_ne_true (hnot.symm.trans hbeyond)

/-- The energy of a margin is that of its assignment. -/
theorem Surface.energy_of_margin? {s : Surface ℝ n} {places : ℕ} {m : StabilityMargin ℝ}
    (h : s.margin? places = some m) : m.energy = s.energy := by
  obtain ⟨t, -, rfl⟩ := Option.map_eq_some_iff.1 h
  rfl

/-! ## What is reported of a layout -/

/-- A list through which a partial function is defined, beside its values. -/
theorem forall₂_filterMap {β γ : Type} {f : β → Option γ} {R : β → γ → Prop} {xs : List β}
    (h : ∀ x ∈ xs, ∃ y, f x = some y ∧ R x y) : List.Forall₂ R xs (xs.filterMap f) := by
  induction xs with
  | nil => exact .nil
  | cons x xs ih =>
    obtain ⟨⟨y, hy, hR⟩, hxs⟩ := List.forall_mem_cons.1 h
    rw [List.filterMap_cons_some hy]
    exact .cons hR (ih hxs)

section Layouts

variable {l : Layout ℝ} {p : Parameters ℝ} {r : Simulation ℝ l.size}

/-- Every distribution of the pruned enumeration has a sharp margin. -/
theorem exists_margin?_of_mem_enumeratePruned (h : l.enumeratePruned p .on = .ok r)
    {s : Surface ℝ l.size} (hs : s ∈ r.distributions) (places : ℕ) :
    ∃ m, s.margin? places = some m ∧ ∃ i, m.IsSharp s i := by
  obtain ⟨hcells, hstable⟩ := isStableSurface_of_mem_enumeratePruned h hs
  have hsize : l.size ≠ 0 := (size_pos hcells).ne'
  have hpopulation : s.isPopulationStable = true := by
    refine Surface.isPopulationStable_iff.2 fun i => ?_
    rw [hstable.potentials, hstable.env_eq]
    exact hstable.stable.population i
  obtain ⟨m, i, hm, hsharp⟩ := Surface.exists_margin? hsize hpopulation places
  exact ⟨m, hm, i, hsharp⟩

/-- **Stability margins are sharp.** Of every distribution that the pruned enumeration finds, with
its base of its own choice, the margins of a layout have one, by ascending energy, and it is sharp.
There is no result exactly if the enumeration has none, and it has one if parameters and defects are
accepted. -/
theorem stabilityMargins_sharp (l : Layout ℝ) (p : Parameters ℝ) (places : ℕ) :
    (∀ r, l.enumeratePruned p .on = .ok r → ∃ margins,
      l.stabilityMargins p places = .ok margins ∧
      (margins.Pairwise fun m m' => m.energy ≤ m'.energy) ∧
      ∃ order : List (Surface ℝ l.size), order.Perm r.distributions ∧
        List.Forall₂ (fun s m => ∃ i, m.IsSharp s i) order margins) ∧
    (∀ e, l.enumeratePruned p .on = .error e → l.stabilityMargins p places = .error e) ∧
    (p.check = .ok () → l.checkDefects = .ok () → ∃ r, l.enumeratePruned p .on = .ok r) := by
  refine ⟨fun r hr => ?_, fun e he => ?_, fun hp hl => exists_enumeratePruned_eq_ok hp hl .on⟩
  · refine ⟨_, congrArg (Except.map _) hr, ?_, r.sortByEnergy.distributions, perm_sortBy, ?_⟩
    · rw [List.pairwise_filterMap]
      refine (Simulation.pairwise_sortByEnergy (comparable_real _).isWeakOrderOn).imp ?_
      intro s s' hle m hm m' hm'
      rw [Surface.energy_of_margin? hm, Surface.energy_of_margin? hm']
      exact not_lt.1 hle
    · exact forall₂_filterMap fun s hs =>
        exists_margin?_of_mem_enumeratePruned hr (mem_sortBy.1 hs) places
  · exact congrArg (Except.map _) he

end Layouts

/-- Of two cells that share one electron, each is at least 0.01 volts away from every level of its
charge. -/
theorem le_difference_twinCells {s : Surface ℝ twinCells.size} {k i : Fin twinCells.size}
    {m : StabilityMargin ℝ}
    (hs : (Environment.ofLayout twinCells (twinParameters 2)).IsStableSurface s)
    (hk : s.charges = electronOn k) (hm : m.IsSharp s i) : 0.01 ≤ m.difference := by
  have hshares := twinCells_sharesElectron 2
  have hlevels : s.env.parameters.muMinus = -0.2 ∧ s.env.parameters.muPlus = -0.2 - 0.59 := by
    rw [hs.env_eq]
    exact ⟨rfl, rfl⟩
  have hpotential : s.potentials.get i
      = -(Environment.ofLayout twinCells (twinParameters 2)).between i k := by
    rw [hs.potentials, hk, hshares.potential_electronOn]
  have hsource : m.transition.source = if i = k then .negative else .neutral := by
    rw [hm.source_eq, hk, get_electronOn]
  rw [hm.difference_eq, hpotential]
  by_cases hi : i = k
  · rw [if_pos hi] at hsource
    refine (Transition.forall_source_iff (P := fun t => 0.01 ≤ |-_ + t.level _|)
      (c := .negative)).2 ?_ _ hsource
    rw [hi, hshares.reciprocal.between_self, Transition.level, hlevels.1]
    norm_num [abs_of_neg]
  · rw [if_neg hi] at hsource
    obtain ⟨hge, hle⟩ := between_twinCells (p := twinParameters 2) rfl rfl hi
    refine (Transition.forall_source_iff (P := fun t => 0.01 ≤ |-_ + t.level _|)
      (c := .neutral)).2 ⟨?_, ?_⟩ _ hsource
    · rw [Transition.level, hlevels.1, neg_neg]
      exact le_abs.2 (.inl (by linarith))
    · rw [Transition.level, hlevels.2, neg_neg]
      exact le_abs.2 (.inr (by linarith))

/-- Two cells that share one electron have two distributions, and each of them stays stable if the
potentials drift by less than 0.01 volts, but not if one of them drifts far enough. -/
theorem stabilityMargins_sharp_twinCells :
    let p := twinParameters 2
    p.check = .ok () ∧ twinCells.checkDefects = .ok () ∧
      ∃ r margins, twinCells.enumeratePruned p .on = .ok r ∧
        twinCells.stabilityMargins p 2 = .ok margins ∧ margins.length = 2 ∧
        ∃ order, order.Perm r.distributions ∧ List.Forall₂ (fun s m => 0.01 ≤ m.difference ∧
          (∀ δ : Fin twinCells.size → ℝ, (∀ j, |δ j| < 0.01) →
            (s.perturb δ).isPopulationStable = true) ∧
          ∃ i, (s.perturb (Pi.single i (-m.transition.chargeChange
            * (m.difference + 2 * stabilityTolerance)))).isPopulationStable = false)
          order margins := by
  intro p
  have hp : p.check = .ok () := check_twinParameters (.inl rfl)
  refine ⟨hp, rfl, ?_⟩
  obtain ⟨hsharp, -, -⟩ := stabilityMargins_sharp twinCells p 2
  obtain ⟨r, hr, hcharges⟩ := exists_enumeratePruned_twinCells (.inl rfl) .on
  obtain ⟨margins, hmargins, -, order, hperm, hforall⟩ := hsharp r hr
  have hlength : margins.length = 2 := by
    have hcount : r.distributions.length = 2 := by
      rw [← List.length_map (·.charges)]
      exact hcharges.length_eq
    rw [← hforall.length_eq, hperm.length_eq, hcount]
  refine ⟨r, margins, hr, hmargins, hlength, order, hperm, ?_⟩
  have hmem : ∀ s ∈ order, s ∈ r.distributions := fun s => hperm.mem_iff.1
  refine ((List.forall₂_and_left _ _).2 ⟨hmem, hforall⟩).imp ?_
  rintro s m ⟨hs, i, hm⟩
  obtain ⟨k, -, hk⟩ := List.mem_map.1 (hcharges.mem_iff.1 (List.mem_map_of_mem hs))
  have hfar : 0.01 ≤ m.difference :=
    le_difference_twinCells (isStableSurface_of_mem_enumeratePruned hr hs).2 hk.symm hm
  have htolerance : stabilityTolerance ≤ m.difference := by
    refine le_trans ?_ hfar
    show (1e-6 : ℝ) ≤ 0.01
    norm_num
  refine ⟨hfar, fun δ hδ => ?_, i, hm.not_isPopulationStable_perturb htolerance⟩
  exact hm.isPopulationStable_perturb htolerance δ fun j => (hδ j).trans_le hfar

end DanglingBonds
