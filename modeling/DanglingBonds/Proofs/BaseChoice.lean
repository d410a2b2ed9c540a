/-
# The choice of the base

The pruned enumeration in base 2 is a shorter way to what it finds in base 3, as long as no free
cell can be positive: then no cell is counted through in base 3, and on every potential that occurs
the dependent cell settles on the same charge in either base. So nothing is lost when the
enumeration chooses its base itself.

* `Surface.rebase` : a surface whose parameters ask for another base.
* `settle_rebase` : the dependent cell settles alike in both bases.
* `lockstep_rebase` : then an enumeration goes alike in both bases.
* `prunedRun_rebase` : the run in the chosen base finds what the run in base 3 finds.
-/
import Mathlib
import DanglingBonds.Proofs.Exactness
import DanglingBonds.Proofs.Lockstep

namespace DanglingBonds

variable {n : ℕ}

/-! ## Another base -/

/-- The environment with another base in its parameters. -/
def Environment.rebase (env : Environment ℝ n) (base : ℕ) : Environment ℝ n :=
  { env with parameters := { env.parameters with base } }

/-- The surface in another base, with the same charges, potentials and energy. -/
def Surface.rebase (base : ℕ) (s : Surface ℝ n) : Surface ℝ n :=
  { s with env := s.env.rebase base, base }

section Rebase

variable (s : Surface ℝ n) (base : ℕ)

/-- The stability tests look at all levels in either base. -/
theorem Surface.isValid_rebase : (s.rebase base).isValid = s.isValid := rfl

/-- What is recorded from a surface does not depend on the base. -/
theorem record_rebase (found : List (Surface ℝ n)) :
    record (found.map (·.rebase base)) (s.rebase base) = (record found s).map (·.rebase base) := by
  rw [record, record, Surface.isValid_rebase]
  split
  · rw [List.map_cons]
    rfl
  · rfl

end Rebase

/-! ## Settling alike -/

/-- A potential too high for a positive charge settles on the same charge in every base. -/
theorem settledCharge_eq_of_le {v : ℝ} {p : Parameters ℝ}
    (h : -v + p.muPlus ≤ -stabilityTolerance) (base base' : ℕ) :
    settledCharge v p base = settledCharge v p base' := by
  have hplus : ∀ b, ¬ (b = 3 ∧ -v + p.muPlus > -stabilityTolerance) :=
    fun _ hb => not_lt.2 h hb.2
  unfold settledCharge
  rw [if_neg (hplus base), if_neg (hplus base')]

/-- The dependent cell settles alike in two bases, if they are one or it cannot be positive. -/
theorem Environment.settle_rebase {env : Environment ℝ n} (hpair : ∀ i j, 0 ≤ env.between i j)
    {base base' : ℕ} {dependent : Option (Fin n)}
    (h : base = base' ∨ ∀ d, dependent = some d → env.canBePositive d = false)
    (q : Vector Charge n) :
    (env.rebase base').settle base' dependent q = env.settle base dependent q := by
  rcases h with rfl | h
  · cases dependent with
    | none => rfl
    | some d => rfl
  · cases dependent with
    | none => rfl
    | some d =>
      have hplus := muPlus_le_of_canBePositive_eq_false hpair (h d rfl) q
      rw [settle_some, settle_some, settledCharge_eq_of_le hplus base base']
      rfl

theorem isReciprocal_rebase {s : Surface ℝ n} (h : s.env.IsReciprocal) (base : ℕ) :
    (s.rebase base).env.IsReciprocal :=
  ⟨h.between_comm, h.between_self⟩

/-- If the dependent cell settles alike, an enumeration keeps both surfaces together. -/
theorem lockstep_rebase {s : Surface ℝ n} (h : s.env.IsReciprocal) {base : ℕ}
    (hsettle : ∀ q, (s.env.rebase base).settle base s.dependent q
      = s.env.settle s.base s.dependent q) :
    Lockstep s (s.rebase base) (·.rebase base) where
  isReciprocal := h
  isReciprocal' := isReciprocal_rebase h base
  settle_eq := hsettle
  isValid_eq _ := rfl
  carry_withCharges _ := rfl

/-! ## The run in a base -/

/-- Where no independent cell can be positive, none is counted through in base 3. -/
theorem walkTwoStates_eq_walkThreeStates {s : Surface ℝ n}
    (h : ∀ i ∈ s.independent, s.env.canBePositive i = false) :
    walkTwoStates s = walkThreeStates s := by
  have hinner : s.independent.filter s.env.canBePositive = [] := by
    rw [List.filter_eq_nil_iff]
    intro i hi
    rw [h i hi]
    exact Bool.false_ne_true
  have houter : (s.independent.filter fun i => !s.env.canBePositive i) = s.independent := by
    rw [List.filter_eq_self]
    intro i hi
    rw [h i hi]
    rfl
  rw [walkTwoStates, walkThreeStates, hinner, houter, settleAndRecord_eq_countThrough]
  rfl

/-- The walk over three states finds the same surfaces in every base in which the dependent cell
settles alike. -/
theorem walkThreeStates_rebase {s : Surface ℝ n} (h : s.env.IsReciprocal) {base : ℕ}
    (hsettle : ∀ q, (s.env.rebase base).settle base s.dependent q
      = s.env.settle s.base s.dependent q)
    (hnegative : s = s.withCharges (Vector.replicate n .negative)) :
    walkThreeStates (s.rebase base) = (walkThreeStates s).map (·.rebase base) := by
  have hwalk := (lockstep_rebase h hsettle).walkThreeStates_eq_map rfl rfl
    (Vector.replicate n .negative)
  rw [← hnegative] at hwalk
  rw [← hwalk, hnegative]
  rfl

namespace Environment

variable {env : Environment ℝ n}

theorem pruned_rebase (env : Environment ℝ n) (base base' : ℕ) :
    Surface.pruned (env.rebase base') base' = (Surface.pruned env base).rebase base' := by
  rw [Surface.pruned, Surface.pruned, Surface.fixCells_ofEnvironment,
    Surface.fixCells_ofEnvironment]
  rfl

/-- **The run in base 3** finds what a run in base 2 finds, if no free cell can be positive. -/
theorem prunedRun_rebase (h : env.IsReciprocal) (hpair : ∀ i j, 0 ≤ env.between i j) {base : ℕ}
    (hbase : base = 3 ∨ base = 2 ∧ ∀ i ∈ env.freeCells, env.canBePositive i = false) :
    (env.rebase 3).prunedRun 3 = (env.prunedRun base).map (·.rebase 3) := by
  have hfree : (env.rebase 3).freeCells = env.freeCells := rfl
  rw [prunedRun, prunedRun, hfree]
  cases hcase : env.freeCells with
  | nil =>
    dsimp only
    rw [pruned_rebase env base, ← record_rebase]
    rfl
  | cons d rest =>
    have hd := isDependent_of_freeCells_eq hcase
    set s := (Surface.pruned env base).setDependent (some d) with hs
    have hstart : (Surface.pruned (env.rebase 3) 3).setDependent (some d) = s.rebase 3 := by
      rw [pruned_rebase env base]
      rfl
    have hdep : s = { Surface.pruned env base with
        dependent := some d
        independent := env.independentCells d } := Surface.setDependent_pruned hd.free base
    have henv : s.env = env := by
      rw [hdep]
      exact Surface.env_pruned env base
    have hsbase : s.base = base := by
      rw [hdep]
      rfl
    have hsdep : s.dependent = some d := by
      rw [hdep]
    have hnegative : s = s.withCharges (Vector.replicate n .negative) := by
      rw [hdep, Surface.pruned_eq_withCharges]
      rfl
    have hsettle : ∀ q, (s.env.rebase 3).settle 3 s.dependent q
        = s.env.settle s.base s.dependent q := by
      rw [henv, hsbase, hsdep]
      refine settle_rebase hpair (hbase.imp_right fun hnone d' hd' => ?_)
      rw [← Option.some.inj hd']
      exact hnone.2 d (hcase ▸ List.mem_cons_self)
    have hrun := walkThreeStates_rebase (henv.symm ▸ h) hsettle hnegative
    dsimp only
    rw [hstart, if_neg (by decide), hrun, ← List.map_reverse]
    congr 2
    rcases hbase with rfl | ⟨rfl, hnone⟩
    · exact (if_neg (by decide)).symm
    · rw [if_pos rfl]
      refine (walkTwoStates_eq_walkThreeStates fun i hi => ?_).symm
      rw [henv]
      refine hnone i (mem_freeCells_iff.2 ?_)
      rw [hdep] at hi
      exact (mem_independentCells_iff.1 hi).1

end Environment

/-! ## The enumeration in a base -/

/-- Charges, potentials and energy of every distribution, in order. -/
def Simulation.snapshots (r : Simulation ℝ n) : List (Vector Charge n × Vector ℝ n × ℝ) :=
  r.distributions.map fun s => (s.charges, s.potentials, s.energy)

/-- They do not depend on the base in the parameters. -/
theorem snapshots_eq_of_map_rebase {r r' : Simulation ℝ n} {base : ℕ}
    (h : r'.distributions = r.distributions.map (·.rebase base)) : r.snapshots = r'.snapshots := by
  rw [Simulation.snapshots, Simulation.snapshots, h, List.map_map]
  rfl

section Enumeration

variable {l : Layout ℝ} {p : Parameters ℝ}

/-- Parameters that are accepted are accepted in the other base as well. -/
theorem check_rebase (hp : p.check = .ok ()) {base : ℕ} (hbase : base = 2 ∨ base = 3) :
    ({ p with base } : Parameters ℝ).check = .ok () :=
  Parameters.check_eq_ok_iff.2 ⟨hbase, (Parameters.check_eq_ok_iff.1 hp).2⟩

/-- An enumeration in base 3, or in base 2 with no free cell that can be positive, finds what the
enumeration in base 3 finds. -/
theorem exists_enumeratePruned_rebase (hp : p.check = .ok ()) (hl : l.checkDefects = .ok ())
    (hcells : l.isEmpty = false) (detection : BaseDetection) {base : ℕ}
    (hbase : base = enumerationBase detection p
      ((Environment.ofLayout l p).freeCells.any (Environment.ofLayout l p).canBePositive))
    (hlossless : base = 3 ∨ base = 2 ∧ ∀ i ∈ (Environment.ofLayout l p).freeCells,
      (Environment.ofLayout l p).canBePositive i = false) :
    ∃ r r', l.enumeratePruned p detection = .ok r ∧
      l.enumeratePruned { p with base := 3 } .off = .ok r' ∧ r.base = base ∧
      r'.distributions = r.distributions.map (·.rebase 3) :=
  ⟨_, _, enumeratePruned_eq_prunedRun hp hl hcells detection hbase,
    enumeratePruned_eq_prunedRun (check_rebase hp (.inr rfl)) hl hcells .off rfl, rfl,
    Environment.prunedRun_rebase (Environment.ofLayout_isReciprocal l p)
      (Environment.ofLayout_between_nonneg l hp) hlossless⟩

/-- The base that the enumeration chooses itself is 3 if a free cell can be positive, and 2
otherwise. -/
theorem enumerationBase_on_eq_three_iff (env : Environment ℝ n) (p : Parameters ℝ) :
    enumerationBase .on p (env.freeCells.any env.canBePositive) = 3
      ↔ ∃ i, env.mustBeNegative i = false ∧ env.canBePositive i = true := by
  have hany_iff : env.freeCells.any env.canBePositive = true
      ↔ ∃ i, env.mustBeNegative i = false ∧ env.canBePositive i = true := by
    rw [List.any_eq_true]
    simp only [Environment.mem_freeCells_iff]
  rw [← hany_iff]
  cases hany : env.freeCells.any env.canBePositive with
  | true => exact iff_of_true rfl rfl
  | false => exact iff_of_false (show ¬ 2 = 3 by decide) (by decide)

/-- **Choosing the base loses nothing.** For a layout with cells and accepted inputs, the pruned
enumeration that chooses its base itself returns the charges, potentials and energies of the one in
base 3, in the same order. The base it chooses is 3 exactly if some cell that need not be negative
can be positive. -/
theorem enumeratePruned_on_lossless (hp : p.check = .ok ()) (hl : l.checkDefects = .ok ())
    (hcells : l.isEmpty = false) :
    ∃ r r', l.enumeratePruned p .on = .ok r ∧
      l.enumeratePruned { p with base := 3 } .off = .ok r' ∧ r.snapshots = r'.snapshots ∧
      (r.base = 3 ↔ ∃ i, (Environment.ofLayout l p).mustBeNegative i = false ∧
        (Environment.ofLayout l p).canBePositive i = true) := by
  set env := Environment.ofLayout l p with henv
  have hlossless : enumerationBase .on p (env.freeCells.any env.canBePositive) = 3 ∨
      enumerationBase .on p (env.freeCells.any env.canBePositive) = 2 ∧
        ∀ i ∈ env.freeCells, env.canBePositive i = false := by
    cases hany : env.freeCells.any env.canBePositive with
    | true => exact .inl rfl
    | false =>
      refine .inr ⟨rfl, fun i hi => ?_⟩
      exact Bool.eq_false_of_not_eq_true (List.any_eq_false.1 hany i hi)
  obtain ⟨r, r', hr, hr', hbase, hmap⟩ :=
    exists_enumeratePruned_rebase hp hl hcells .on rfl hlossless
  refine ⟨r, r', hr, hr', snapshots_eq_of_map_rebase hmap, ?_⟩
  rw [hbase]
  exact enumerationBase_on_eq_three_iff env p

/-- For two cells that share one electron base 2 is chosen, and what base 3 finds is found. -/
theorem enumeratePruned_on_twinCells :
    let p := twinParameters 2
    p.check = .ok () ∧ twinCells.checkDefects = .ok () ∧ twinCells.isEmpty = false ∧
      ∃ r r', twinCells.enumeratePruned p .on = .ok r ∧
        twinCells.enumeratePruned { p with base := 3 } .off = .ok r' ∧
        r.snapshots = r'.snapshots ∧ r.base = 2 ∧ r'.base = 3 ∧
        r.charges.Perm ((List.finRange twinCells.size).map electronOn) := by
  intro p
  have hp : p.check = .ok () := check_twinParameters (.inl rfl)
  have hp' : ({ p with base := 3 } : Parameters ℝ).check = .ok () := check_twinParameters (.inr rfl)
  have hshares := twinCells_sharesElectron 2
  obtain ⟨r, r', hr, hr', hsame, hthree⟩ :=
    enumeratePruned_on_lossless (l := twinCells) hp rfl rfl
  have hbase := enumerationBase_eq_two_or_three hp .on
    ((Environment.ofLayout twinCells p).freeCells.any
      (Environment.ofLayout twinCells p).canBePositive)
  obtain ⟨r₁, hr₁, hcharges⟩ := exists_enumeratePruned_twinCells (.inl rfl) .on
  obtain rfl := Except.ok.inj (hr.symm.trans hr₁)
  -- the bases are those of the runs
  have hrun := Except.ok.inj
    (hr.symm.trans (enumeratePruned_eq_prunedRun hp rfl rfl .on rfl))
  have hrun' := Except.ok.inj
    (hr'.symm.trans (enumeratePruned_eq_prunedRun (l := twinCells) hp' rfl rfl .off rfl))
  have htwo : r.base = 2 := by
    have hor : r.base = 2 ∨ r.base = 3 := by
      rw [hrun]
      exact hbase
    refine hor.resolve_right fun h => ?_
    obtain ⟨i, -, hi⟩ := hthree.1 h
    rw [hshares.canBePositive_eq_false i] at hi
    cases hi
  exact ⟨hp, rfl, rfl, r, r', hr, hr', hsame, htwo, by rw [hrun']; rfl, hcharges⟩

end Enumeration

end DanglingBonds
