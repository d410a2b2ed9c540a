/-
# Stability of an assignment

The stability tests as inequalities, and what follows for pruning: which cells are negative, and
which are not positive, in every stable assignment.

* `Environment.IsStable` : population and configuration stability of an assignment.
* `settledCharge_of_lt`, `settledCharge_of_positive`, `settledCharge_of_neutral` : the charge that a
  potential settles on.
* `ne_settledCharge_iff` : the only other stable charge is neutral, next to a transition level.
* `eq_negative_of_mustBeNegative`, `ne_positive_of_canBePositive_eq_false` : pruning is sound.
-/
import Mathlib
import DanglingBonds.Proofs.SurfaceCharges

namespace DanglingBonds

variable {n : ℕ}

/-! ## One cell -/

section Cell

variable {v : ℝ} {p : Parameters ℝ}

theorem isPopulationStable_negative_iff :
    isPopulationStable .negative v p = true ↔ -v + p.muMinus < stabilityTolerance :=
  decide_eq_true_iff

theorem isPopulationStable_positive_iff :
    isPopulationStable .positive v p = true ↔ -stabilityTolerance < -v + p.muPlus :=
  decide_eq_true_iff

theorem isPopulationStable_neutral_iff :
    isPopulationStable .neutral v p = true
      ↔ -stabilityTolerance < -v + p.muMinus ∧ -v + p.muPlus < stabilityTolerance := by
  show (decide _ && decide _) = true ↔ _
  rw [Bool.and_eq_true, decide_eq_true_iff, decide_eq_true_iff]

/-- Where the potential is too high for a neutral cell, a stable charge is negative. -/
theorem eq_negative_of_isPopulationStable {c : Charge} (h : isPopulationStable c v p = true)
    (hv : -v + p.muMinus ≤ -stabilityTolerance) : c = .negative := by
  have hplus := p.muPlus_eq
  have htol := stabilityTolerance_pos
  have hgap := two_mul_stabilityTolerance_lt_transitionGap
  cases c with
  | negative => rfl
  | neutral =>
    rw [isPopulationStable_neutral_iff] at h
    linarith [h.1]
  | positive =>
    rw [isPopulationStable_positive_iff] at h
    linarith

/-- A potential far enough below the lower level is negative. -/
theorem settledCharge_of_lt {base : ℕ} (h : -v + p.muMinus < stabilityTolerance) :
    settledCharge v p base = .negative :=
  if_pos h

/-- Of the others, one far enough below the upper level is positive, in base 3. -/
theorem settledCharge_of_positive {base : ℕ} (h : stabilityTolerance ≤ -v + p.muMinus)
    (hbase : base = 3) (h' : -stabilityTolerance < -v + p.muPlus) :
    settledCharge v p base = .positive := by
  unfold settledCharge
  rw [if_neg (not_lt.2 h), if_pos ⟨hbase, h'⟩]

/-- All the others are neutral. -/
theorem settledCharge_of_neutral {base : ℕ} (h : stabilityTolerance ≤ -v + p.muMinus)
    (h' : base = 3 → -v + p.muPlus ≤ -stabilityTolerance) :
    settledCharge v p base = .neutral := by
  unfold settledCharge
  rw [if_neg (not_lt.2 h), if_neg fun hb => not_lt.2 (h' hb.1) hb.2]

/-- A potential settles on a charge of the base. -/
theorem settledCharge_inBase {base : ℕ} (h : base = 2 ∨ base = 3) :
    (settledCharge v p base).InBase base := by
  unfold settledCharge
  split
  · exact Charge.negative_inBase h
  · split
    · rename_i hb
      rw [hb.1]
      exact Charge.inBase_three _
    · rcases h with rfl | rfl <;> decide

/-- The settled charge is stable, unless it would have to be positive in base 2. -/
theorem isPopulationStable_settledCharge {base : ℕ}
    (h : base = 3 ∨ -v + p.muPlus ≤ -stabilityTolerance) :
    isPopulationStable (settledCharge v p base) v p = true := by
  have htol := stabilityTolerance_pos
  by_cases hminus : -v + p.muMinus < stabilityTolerance
  · rw [settledCharge_of_lt hminus]
    exact isPopulationStable_negative_iff.2 hminus
  · have hlow := not_lt.1 hminus
    by_cases hplus : base = 3 ∧ -stabilityTolerance < -v + p.muPlus
    · rw [settledCharge_of_positive hlow hplus.1 hplus.2]
      exact isPopulationStable_positive_iff.2 hplus.2
    · have hup : -v + p.muPlus ≤ -stabilityTolerance :=
        h.elim (fun h3 => not_lt.1 fun hlt => hplus ⟨h3, hlt⟩) id
      rw [settledCharge_of_neutral hlow fun _ => hup, isPopulationStable_neutral_iff]
      exact ⟨by linarith, by linarith⟩

/-- **The other stable charge.** A stable charge that is not the settled one is neutral, at a
potential within the tolerance of a transition level of the base; a neutral charge there is never
the settled one. -/
theorem ne_settledCharge_iff {base : ℕ} {c : Charge} (hbase : c.InBase base)
    (h : isPopulationStable c v p = true) (hb : base = 2 ∨ base = 3) :
    c ≠ settledCharge v p base ↔ c = .neutral ∧
      (|-v + p.muMinus| < stabilityTolerance
        ∨ base = 3 ∧ |-v + p.muPlus| < stabilityTolerance) := by
  have htol := stabilityTolerance_pos
  have hgap := two_mul_stabilityTolerance_lt_transitionGap
  have hplus := p.muPlus_eq
  -- a stable charge other than neutral is the settled one
  cases c with
  | negative =>
    have hs : settledCharge v p base = .negative :=
      settledCharge_of_lt (isPopulationStable_negative_iff.1 h)
    simp [hs]
  | positive =>
    have h' := isPopulationStable_positive_iff.1 h
    have hthree : base = 3 := by
      rcases hb with rfl | rfl
      · exact absurd rfl (Charge.inBase_two_iff.1 hbase)
      · rfl
    have hs : settledCharge v p base = .positive :=
      settledCharge_of_positive (by linarith) hthree h'
    simp [hs]
  | neutral =>
    obtain ⟨hlow, hup⟩ := isPopulationStable_neutral_iff.1 h
    simp only [true_and, abs_lt]
    constructor
    · intro hne
      by_contra hnot
      push Not at hnot
      exact hne (settledCharge_of_neutral (hnot.1 hlow) fun h3 => by
        by_contra hgt
        exact absurd (hnot.2 h3 (not_le.1 hgt)) (not_le.2 hup)).symm
    · rintro (⟨-, hlt⟩ | ⟨h3, hgt, -⟩)
      · rw [settledCharge_of_lt hlt]
        decide
      · by_cases hlt : -v + p.muMinus < stabilityTolerance
        · rw [settledCharge_of_lt hlt]
          decide
        · rw [settledCharge_of_positive (not_lt.1 hlt) h3 hgt]
          decide

end Cell

/-! ## Assignments -/

namespace Environment

variable {env : Environment ℝ n} {q : Vector Charge n}

/-- Population and configuration stability of an assignment. -/
structure IsStable (env : Environment ℝ n) (q : Vector Charge n) : Prop where
  population : ∀ i, isPopulationStable (q.get i) (env.potential q i) env.parameters = true
  configuration : ∀ i j, (q.get i).sign < (q.get j).sign →
    -stabilityTolerance ≤ env.potential q i - env.potential q j - env.between i j

theorem mustBeNegative_iff {i : Fin n} :
    env.mustBeNegative i = true
      ↔ -env.lowestPotential i + env.parameters.muMinus < -stabilityTolerance :=
  decide_eq_true_iff

theorem canBePositive_eq_false_iff {i : Fin n} :
    env.canBePositive i = false
      ↔ -env.lowestPotential i + env.parameters.muPlus ≤ -stabilityTolerance :=
  decide_eq_false_iff_not.trans not_lt

/-- A cell that must be negative cannot be positive. -/
theorem canBePositive_eq_false_of_mustBeNegative {i : Fin n} (h : env.mustBeNegative i = true) :
    env.canBePositive i = false := by
  have hlow := mustBeNegative_iff.1 h
  have hplus := env.parameters.muPlus_eq
  have htol := stabilityTolerance_pos
  have hgap := two_mul_stabilityTolerance_lt_transitionGap
  rw [canBePositive_eq_false_iff]
  linarith

/-- Where cells repel each other, a cell that must be negative is negative in every assignment in
which its charge is stable. -/
theorem eq_negative_of_mustBeNegative (hpair : ∀ i j, 0 ≤ env.between i j) {i : Fin n}
    (h : env.mustBeNegative i = true)
    (hq : isPopulationStable (q.get i) (env.potential q i) env.parameters = true) :
    q.get i = .negative := by
  have hlow := mustBeNegative_iff.1 h
  have hle := lowestPotential_le hpair q i
  -- even at its lowest the potential is too high for a neutral cell
  exact eq_negative_of_isPopulationStable hq (by linarith)

/-- Where cells repel each other, a cell that cannot be positive has a potential too high for it in
every assignment. -/
theorem muPlus_le_of_canBePositive_eq_false (hpair : ∀ i j, 0 ≤ env.between i j) {i : Fin n}
    (h : env.canBePositive i = false) (q : Vector Charge n) :
    -env.potential q i + env.parameters.muPlus ≤ -stabilityTolerance := by
  have hlow := canBePositive_eq_false_iff.1 h
  have hle := lowestPotential_le hpair q i
  linarith

/-- Where cells repel each other, a cell that cannot be positive is not positive in any assignment
in which its charge is stable. -/
theorem ne_positive_of_canBePositive_eq_false (hpair : ∀ i j, 0 ≤ env.between i j) {i : Fin n}
    (h : env.canBePositive i = false)
    (hq : isPopulationStable (q.get i) (env.potential q i) env.parameters = true) :
    q.get i ≠ .positive := by
  intro hc
  rw [hc, isPopulationStable_positive_iff] at hq
  exact absurd hq (not_lt.2 (muPlus_le_of_canBePositive_eq_false hpair h q))

/-- If every cell must be negative, no other assignment is stable than the negative one. -/
theorem eq_replicate_negative_of_isStable (hpair : ∀ i j, 0 ≤ env.between i j)
    (h : ∀ i, env.mustBeNegative i = true) (hq : env.IsStable q) :
    q = Vector.replicate n .negative := by
  apply ext_get
  intro i
  rw [eq_negative_of_mustBeNegative hpair (h i) (hq.population i), get_replicate]

/-- If every cell must be negative, the negative assignment is stable. -/
theorem isStable_replicate_negative (h : ∀ i, env.mustBeNegative i = true) :
    env.IsStable (Vector.replicate n .negative) where
  population i := by
    have hlow := mustBeNegative_iff.1 (h i)
    have htol := stabilityTolerance_pos
    rw [get_replicate, potential_replicate_negative, isPopulationStable_negative_iff]
    linarith
  configuration i j hij := by
    rw [get_replicate, get_replicate] at hij
    exact absurd hij (lt_irrefl _)

end Environment

/-- A layout admits no positive charge if none of its cells can be positive. -/
theorem admitsPositive_eq_false_iff {l : Layout ℝ} {p : Parameters ℝ} :
    l.admitsPositive p = false ↔ ∀ i, (Environment.ofLayout l p).canBePositive i = false := by
  rw [Layout.admitsPositive, List.any_eq_false]
  simp only [List.mem_finRange, true_implies, Bool.not_eq_true]

/-! ## The tests of a surface -/

namespace Surface

theorem isPopulationStable_iff {s : Surface ℝ n} :
    s.isPopulationStable = true ↔ ∀ i,
      DanglingBonds.isPopulationStable (s.charges.get i) (s.potentials.get i) s.env.parameters
        = true := by
  unfold isPopulationStable
  rw [List.all_eq_true]
  simp only [List.mem_finRange, true_implies]

theorem isConfigurationStable_iff {s : Surface ℝ n} :
    s.isConfigurationStable = true ↔ ∀ i j, (s.charges.get i).sign < (s.charges.get j).sign →
      -stabilityTolerance ≤ s.potentials.get i - s.potentials.get j - s.env.between i j := by
  unfold isConfigurationStable
  simp only [List.all_eq_true, List.mem_finRange, true_implies, Bool.not_eq_true',
    Bool.and_eq_false_iff, decide_eq_false_iff_not]
  refine forall_congr' fun i => forall_congr' fun j => ?_
  rw [← imp_iff_not_or]
  exact imp_congr_right fun _ => not_lt

/-- A surface passes the tests when its charges are stable. -/
theorem isValid_withCharges_iff {s : Surface ℝ n} {q : Vector Charge n} :
    (s.withCharges q).isValid = true ↔ s.env.IsStable q := by
  rw [isValid, Bool.and_eq_true, isPopulationStable_iff, isConfigurationStable_iff]
  simp only [get_potentials_withCharges, withCharges_charges, withCharges_env]
  exact ⟨fun h => ⟨h.1, h.2⟩, fun h => ⟨h.population, h.configuration⟩⟩

end Surface

end DanglingBonds
