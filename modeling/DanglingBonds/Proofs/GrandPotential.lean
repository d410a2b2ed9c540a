/-
# The grand potential

The energy of an assignment together with the cost of its charges at the transition levels. An
electron that is added or moved changes it by what the stability tests look at, so an assignment of
least grand potential is stable. A bonus for a charged dependent cell, as large as the tolerance,
makes that cell settled as well.

* `grandPotential_set`, `grandPotential_hop` : the change by one cell, and by one electron that
  moves.
* `Environment.IsPreferred` : an assignment of least grand potential less the bonus.
* `exists_isStable_settled` : there is a stable assignment whose dependent cell is settled.
-/
import Mathlib
import DanglingBonds.Proofs.TestedAssignments

namespace DanglingBonds

variable {n : ℕ}

/-! ## Transition levels -/

/-- The cost of a charge at the transition levels, against a neutral cell. -/
noncomputable def Parameters.levelCost (p : Parameters ℝ) : Charge → ℝ
  | .negative => p.muMinus
  | .neutral => 0
  | .positive => -p.muPlus

/-- What a charge costs at a potential, against a neutral cell. -/
noncomputable def Parameters.chargeCost (p : Parameters ℝ) (v : ℝ) (c : Charge) : ℝ :=
  c.value * v + p.levelCost c

@[simp] theorem Parameters.chargeCost_negative (p : Parameters ℝ) (v : ℝ) :
    p.chargeCost v .negative = -v + p.muMinus := by
  rw [chargeCost, levelCost, value_negative]
  ring

@[simp] theorem Parameters.chargeCost_neutral (p : Parameters ℝ) (v : ℝ) :
    p.chargeCost v .neutral = 0 := by
  rw [chargeCost, levelCost, value_neutral]
  ring

@[simp] theorem Parameters.chargeCost_positive (p : Parameters ℝ) (v : ℝ) :
    p.chargeCost v .positive = v - p.muPlus := by
  rw [chargeCost, levelCost, value_positive]
  ring

/-- Between two charges an electron can move from the lower to the higher, at no cost at the
levels. -/
theorem exists_hop (p : Parameters ℝ) {base : ℕ} {a b : Charge} (hab : a.sign < b.sign)
    (hb : b.InBase base) :
    ∃ c c' : Charge, c.InBase base ∧ c'.InBase base ∧
      (c.value : ℝ) = a.value + 1 ∧ (c'.value : ℝ) = b.value - 1 ∧
      p.levelCost c - p.levelCost a + (p.levelCost c' - p.levelCost b) ≤ 0 := by
  have hgap := two_mul_stabilityTolerance_lt_transitionGap
  have htol := stabilityTolerance_pos
  have hplus := p.muPlus_eq
  have hlower : ∀ c : Charge, c.digit ≤ b.digit → c.InBase base :=
    fun c hc => lt_of_le_of_lt hc hb
  cases a with
  | negative =>
    cases b with
    | negative => exact absurd hab (lt_irrefl _)
    | neutral =>
      refine ⟨.neutral, .negative, hlower _ (by decide), hlower _ (by decide), ?_, ?_, ?_⟩
      · norm_num
      · norm_num
      · simp only [Parameters.levelCost]
        linarith
    | positive =>
      refine ⟨.neutral, .neutral, hlower _ (by decide), hlower _ (by decide), ?_, ?_, ?_⟩
      · norm_num
      · norm_num
      · simp only [Parameters.levelCost]
        linarith
  | neutral =>
    cases b with
    | negative => exact absurd hab (by decide)
    | neutral => exact absurd hab (lt_irrefl _)
    | positive =>
      refine ⟨.positive, .neutral, hlower _ (by decide), hlower _ (by decide), ?_, ?_, ?_⟩
      · norm_num
      · norm_num
      · simp only [Parameters.levelCost]
        linarith
  | positive => cases b <;> exact absurd hab (by decide)

namespace Environment

/-! ## The potential and its changes -/

/-- The energy of an assignment and the cost of its charges. -/
noncomputable def grandPotential (env : Environment ℝ n) (q : Vector Charge n) : ℝ :=
  env.electrostaticEnergy q + ∑ i, env.parameters.levelCost (q.get i)

/-- The change by a new charge on one cell. -/
theorem grandPotential_set {env : Environment ℝ n} (h : env.IsReciprocal) (q : Vector Charge n)
    (k : Fin n) (c : Charge) :
    env.grandPotential (setCell q k c)
      = env.grandPotential q + (env.parameters.chargeCost (env.potential q k) c
          - env.parameters.chargeCost (env.potential q k) (q.get k)) := by
  have hterm : ∀ i, env.parameters.levelCost ((setCell q k c).get i)
      = env.parameters.levelCost (q.get i)
        + if i = k then env.parameters.levelCost c - env.parameters.levelCost (q.get k)
          else 0 := by
    intro i
    rw [get_setCell]
    split
    · rename_i hi
      rw [hi]
      ring
    · ring
  simp only [grandPotential, electrostaticEnergy_set h, hterm, Finset.sum_add_distrib,
    Finset.sum_ite_eq', Finset.mem_univ, if_true, Parameters.chargeCost]
  ring

/-- The change by an electron that moves from cell `i` to cell `j`. -/
theorem grandPotential_hop {env : Environment ℝ n} (h : env.IsReciprocal) (q : Vector Charge n)
    {i j : Fin n} (hij : j ≠ i) {c c' : Charge} (hc : (c.value : ℝ) = (q.get i).value + 1)
    (hc' : (c'.value : ℝ) = (q.get j).value - 1) :
    env.grandPotential (setCell (setCell q i c) j c')
      = env.grandPotential q + (env.potential q i - env.potential q j - env.between i j)
        + (env.parameters.levelCost c - env.parameters.levelCost (q.get i)
          + (env.parameters.levelCost c' - env.parameters.levelCost (q.get j))) := by
  rw [grandPotential_set h, grandPotential_set h, potential_set, get_setCell_of_ne q hij,
    h.between_comm j i]
  simp only [Parameters.chargeCost, hc, hc']
  ring

/-! ## Least grand potential -/

/-- The bonus for a charge on the dependent cell: a charged cell settles within the tolerance of its
transition level. -/
noncomputable def bonus (d : Fin n) (q : Vector Charge n) : ℝ :=
  if q.get d = .neutral then 0 else stabilityTolerance

theorem bonus_nonneg (d : Fin n) (q : Vector Charge n) : 0 ≤ bonus d q := by
  unfold bonus
  split
  · exact le_rfl
  · exact stabilityTolerance_pos.le

theorem bonus_le (d : Fin n) (q : Vector Charge n) : bonus d q ≤ stabilityTolerance := by
  unfold bonus
  split
  · exact stabilityTolerance_pos.le
  · exact le_rfl

/-- An assignment of a base that has the least grand potential less the bonus; of several the
dependent cell is neutral if it can be. -/
structure IsPreferred (env : Environment ℝ n) (base : ℕ) (d : Fin n) (q : Vector Charge n) :
    Prop where
  inBase : ∀ i, (q.get i).InBase base
  least : ∀ q' : Vector Charge n, (∀ i, (q'.get i).InBase base) →
    env.grandPotential q - bonus d q ≤ env.grandPotential q' - bonus d q'
  neutral : ∀ q' : Vector Charge n, (∀ i, (q'.get i).InBase base) → q'.get d = .neutral →
    env.grandPotential q' - bonus d q' = env.grandPotential q - bonus d q → q.get d = .neutral

/-- Among finitely many assignments one is preferred. -/
theorem exists_isPreferred (env : Environment ℝ n) {base : ℕ} (hbase : base = 2 ∨ base = 3)
    (d : Fin n) : ∃ q, env.IsPreferred base d q := by
  -- first by the potential, then by the dependent cell
  let rank : Vector Charge n → ℝ ×ₗ ℕ := fun q =>
    toLex (env.grandPotential q - bonus d q, if q.get d = .neutral then 0 else 1)
  have hmem : ∀ q : Vector Charge n,
      q ∈ (exhaustiveTests n base).toFinset ↔ ∀ i, (q.get i).InBase base := fun q => by
    rw [List.mem_toFinset, mem_exhaustiveTests_iff hbase]
  have hnonempty : (exhaustiveTests n base).toFinset.Nonempty :=
    ⟨Vector.replicate n .negative, (hmem _).2 (inBase_replicate_negative hbase)⟩
  obtain ⟨q, hq, hmin⟩ := Finset.exists_min_image _ rank hnonempty
  refine ⟨q, (hmem q).1 hq, fun q' hq' => ?_, fun q' hq' hneutral heq => ?_⟩
  · rcases Prod.Lex.toLex_le_toLex.1 (hmin q' ((hmem q').2 hq')) with hlt | ⟨heq, -⟩
    · exact hlt.le
    · exact heq.le
  · rcases Prod.Lex.toLex_le_toLex.1 (hmin q' ((hmem q').2 hq')) with hlt | ⟨-, hle⟩
    · exact absurd heq hlt.ne'
    · by_contra hne
      simp only [if_neg hne, if_pos hneutral] at hle
      omega

/-! ## A preferred assignment is stable -/

namespace IsPreferred

variable {env : Environment ℝ n} {base : ℕ} {d : Fin n} {q : Vector Charge n}

theorem inBase_set (hq : env.IsPreferred base d q) (k : Fin n) {c : Charge} (hc : c.InBase base)
    (i : Fin n) : ((setCell q k c).get i).InBase base := by
  rw [get_setCell]
  split
  · exact hc
  · exact hq.inBase i

/-- No new charge on one cell lowers the grand potential less the bonus. -/
theorem le_set (hq : env.IsPreferred base d q) (h : env.IsReciprocal) (k : Fin n) {c : Charge}
    (hc : c.InBase base) :
    env.parameters.chargeCost (env.potential q k) (q.get k) - bonus d q
      ≤ env.parameters.chargeCost (env.potential q k) c - bonus d (setCell q k c) := by
  have hle := hq.least _ (hq.inBase_set k hc)
  rw [grandPotential_set h] at hle
  linarith

/-- The charges of the other cells are stable. -/
theorem isPopulationStable_of_ne (hq : env.IsPreferred base d q) (h : env.IsReciprocal)
    (hbase : base = 2 ∨ base = 3) {i : Fin n} (hid : d ≠ i)
    (hplus : base = 3 ∨ -env.potential q i + env.parameters.muPlus ≤ -stabilityTolerance) :
    isPopulationStable (q.get i) (env.potential q i) env.parameters = true := by
  have htol := stabilityTolerance_pos
  have hle : ∀ c : Charge, c.InBase base →
      env.parameters.chargeCost (env.potential q i) (q.get i)
        ≤ env.parameters.chargeCost (env.potential q i) c := by
    intro c hc
    have hset := hq.le_set h i hc
    rwa [bonus, bonus, get_setCell_of_ne q hid, sub_le_sub_iff_right] at hset
  have hneutral := hle .neutral (Charge.neutral_inBase hbase)
  have hnegative := hle .negative (Charge.negative_inBase hbase)
  -- a stable charge costs no more than those next to it
  cases hc : q.get i with
  | negative =>
    rw [hc, Parameters.chargeCost_negative, Parameters.chargeCost_neutral] at hneutral
    rw [isPopulationStable_negative_iff]
    linarith
  | neutral =>
    rw [hc, Parameters.chargeCost_negative, Parameters.chargeCost_neutral] at hnegative
    rw [isPopulationStable_neutral_iff]
    refine ⟨by linarith, ?_⟩
    rcases hplus with rfl | hplus
    · have hpositive := hle .positive (Charge.inBase_three _)
      rw [hc, Parameters.chargeCost_neutral, Parameters.chargeCost_positive] at hpositive
      linarith
    · linarith
  | positive =>
    rw [hc, Parameters.chargeCost_positive, Parameters.chargeCost_neutral] at hneutral
    rw [isPopulationStable_positive_iff]
    linarith

/-- A charged dependent cell costs less than the tolerance. -/
theorem chargeCost_dependent_lt (hq : env.IsPreferred base d q) (h : env.IsReciprocal)
    (hbase : base = 2 ∨ base = 3) (hd : q.get d ≠ .neutral) :
    env.parameters.chargeCost (env.potential q d) (q.get d) < stabilityTolerance := by
  have hneutral := Charge.neutral_inBase hbase
  have hself := get_setCell_self q d .neutral
  have hle := hq.le_set h d hneutral
  rw [bonus, bonus, if_pos hself, if_neg hd, Parameters.chargeCost_neutral] at hle
  -- at the tolerance itself the neutral cell would be preferred
  refine lt_of_le_of_ne (by linarith) fun heq => hd ?_
  refine hq.neutral _ (hq.inBase_set d hneutral) hself ?_
  rw [grandPotential_set h, bonus, bonus, if_pos hself, if_neg hd, Parameters.chargeCost_neutral,
    heq]
  ring

/-- A neutral dependent cell would cost the tolerance if it were charged. -/
theorem le_chargeCost_dependent (hq : env.IsPreferred base d q) (h : env.IsReciprocal)
    (hd : q.get d = .neutral) {c : Charge} (hc : c.InBase base) (hne : c ≠ .neutral) :
    stabilityTolerance ≤ env.parameters.chargeCost (env.potential q d) c := by
  have hle := hq.le_set h d hc
  rw [bonus, bonus, get_setCell_self, if_pos hd, if_neg hne, hd, Parameters.chargeCost_neutral]
    at hle
  linarith

/-- The dependent cell is settled: the bonus decides within the tolerance, and the preference for
neutral at its edge. -/
theorem get_dependent (hq : env.IsPreferred base d q) (h : env.IsReciprocal)
    (hbase : base = 2 ∨ base = 3) :
    q.get d = settledCharge (env.potential q d) env.parameters base := by
  have htol := stabilityTolerance_pos
  have hgap := two_mul_stabilityTolerance_lt_transitionGap
  have hplus := env.parameters.muPlus_eq
  cases hc : q.get d with
  | negative =>
    have hcost := hq.chargeCost_dependent_lt h hbase (by rw [hc]; decide)
    rw [hc, Parameters.chargeCost_negative] at hcost
    exact (settledCharge_of_lt hcost).symm
  | neutral =>
    have hminus := hq.le_chargeCost_dependent h hc (Charge.negative_inBase hbase) (by decide)
    rw [Parameters.chargeCost_negative] at hminus
    refine (settledCharge_of_neutral hminus fun h3 => ?_).symm
    have hpositive := hq.le_chargeCost_dependent h hc (h3 ▸ Charge.inBase_three .positive)
      (by decide)
    rw [Parameters.chargeCost_positive] at hpositive
    linarith
  | positive =>
    have hthree : base = 3 := by
      rcases hbase with rfl | rfl
      · exact absurd hc (Charge.inBase_two_iff.1 (hq.inBase d))
      · rfl
    have hcost := hq.chargeCost_dependent_lt h hbase (by rw [hc]; decide)
    rw [hc, Parameters.chargeCost_positive] at hcost
    exact (settledCharge_of_positive (by linarith) hthree (by linarith)).symm

/-- No electron gains more than the tolerance by moving. -/
theorem hop_stable (hq : env.IsPreferred base d q) (h : env.IsReciprocal) {i j : Fin n}
    (hij : (q.get i).sign < (q.get j).sign) :
    -stabilityTolerance ≤ env.potential q i - env.potential q j - env.between i j := by
  have hne : j ≠ i := fun hji => absurd hij (hji ▸ lt_irrefl _)
  obtain ⟨c, c', hc, hc', hvalue, hvalue', hcost⟩ :=
    exists_hop env.parameters hij (hq.inBase j)
  have hin : ∀ k, ((setCell (setCell q i c) j c').get k).InBase base := by
    intro k
    rw [get_setCell]
    split
    · exact hc'
    · exact hq.inBase_set i hc k
  have hle := hq.least _ hin
  rw [grandPotential_hop h q hne hvalue hvalue'] at hle
  -- moving the electron may cost the bonus, which is no more than the tolerance
  have hbonus := bonus_le d q
  have hbonus' := bonus_nonneg d (setCell (setCell q i c) j c')
  linarith

/-- A preferred assignment is stable, if no cell can be positive that the base does not let be. -/
theorem isStable (hq : env.IsPreferred base d q) (h : env.IsReciprocal)
    (hbase : base = 2 ∨ base = 3)
    (hplus : ∀ i, base = 3 ∨ -env.potential q i + env.parameters.muPlus ≤ -stabilityTolerance) :
    env.IsStable q where
  population i := by
    by_cases hid : d = i
    · rw [← hid, hq.get_dependent h hbase]
      exact isPopulationStable_settledCharge (hplus d)
    · exact hq.isPopulationStable_of_ne h hbase hid (hplus i)
  configuration _ _ hij := hq.hop_stable h hij

end IsPreferred

/-- **A valid assignment exists.** Where cells repel each other and the base admits every charge
that a cell can have, some assignment of the base is stable and has its dependent cell settled. -/
theorem exists_isStable_settled {env : Environment ℝ n} (h : env.IsReciprocal)
    (hpair : ∀ i j, 0 ≤ env.between i j) {base : ℕ} (hbase : base = 2 ∨ base = 3)
    (hadmits : base = 3 ∨ ∀ i, env.canBePositive i = false) :
    ∃ q, (∀ i, (q.get i).InBase base) ∧ env.IsStable q ∧
      ∀ d, env.IsDependent d →
        q.get d = settledCharge (env.potential q d) env.parameters base := by
  cases hfree : env.freeCells with
  | nil =>
    have hall := freeCells_eq_nil_iff.1 hfree
    exact ⟨Vector.replicate n .negative, inBase_replicate_negative hbase,
      isStable_replicate_negative hall, fun d hd => absurd hall hd.not_forall⟩
  | cons d rest =>
    have hd := isDependent_of_freeCells_eq hfree
    obtain ⟨q, hq⟩ := env.exists_isPreferred hbase d
    refine ⟨q, hq.inBase, hq.isStable h hbase fun i => ?_, fun d' hd' => ?_⟩
    · exact hadmits.imp_right fun hnone => muPlus_le_of_canBePositive_eq_false hpair (hnone i) q
    · rw [← hd.unique hd']
      exact hq.get_dependent h hbase

end Environment

end DanglingBonds
