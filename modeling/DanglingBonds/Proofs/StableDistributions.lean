/-
# Every distribution is stable

An enumeration records a surface only after its stability tests, and at that moment potentials and
energy are those of its charges. So every distribution of a simulation is a stable assignment in
closed form, however many cells there are and whatever an enumeration may miss.

* `Environment.IsStableSurface` : a stable assignment in closed form.
* `Environment.Keeps` : what every step of a pruned enumeration leaves true of the charges.
* `FindsStable` : a part of an enumeration that finds such surfaces only.
* `countThrough_findsStable`, `walk_isStableSurface`, `testIndices_isStableSurface` : the loops.
* `isStableSurface_of_mem_distributions`, `inBase_of_mem_enumeratePruned` : the distributions of a
  simulation.
* `Layout.Finds`, `exists_simulate_exact` : the assignments that an engine finds.
-/
import Mathlib
import DanglingBonds.Proofs.Existence

namespace DanglingBonds

variable {n : ℕ}

/-! ## Recording -/

/-- A surface of an environment whose charges are stable in it, with the potentials and the energy
that belong to them. -/
structure Environment.IsStableSurface (env : Environment ℝ n) (s : Surface ℝ n) : Prop where
  env_eq : s.env = env
  stable : env.IsStable s.charges
  potentials : ∀ i, s.potentials.get i = env.potential s.charges i
  energy : s.energy = env.electrostaticEnergy s.charges

/-- A property of charges that every step of a pruned enumeration keeps. -/
structure Environment.Keeps (env : Environment ℝ n) (base : ℕ) (P : Vector Charge n → Prop) :
    Prop where
  settle : ∀ {q}, P q → ∀ dependent, P (env.settle base dependent q)
  flip : ∀ {q}, P q → ∀ cells bit, P (Surface.flipCharges cells bit q)
  setDigits : ∀ {q}, P q → base ≠ 2 → ∀ cells index, P (setDigits 3 cells index q)

/-- Charges of a base stay charges of the base. -/
theorem Environment.keeps_inBase (env : Environment ℝ n) {base : ℕ} (hbase : base = 2 ∨ base = 3) :
    env.Keeps base fun q => ∀ i, (q.get i).InBase base where
  settle {q} hq dependent i := by
    cases dependent with
    | none => exact hq i
    | some d =>
      rw [settle_some, get_setCell]
      split
      · exact settledCharge_inBase hbase
      · exact hq i
  flip {q} hq cells bit i := by
    rw [Surface.flipCharges]
    cases cells[cells.size - 1 - bit]? with
    | none => exact hq i
    | some j =>
      rw [Option.elim_some, get_setCell]
      split
      · split
        · exact Charge.neutral_inBase hbase
        · exact Charge.negative_inBase hbase
      · exact hq i
  setDigits {q} _ hthree cells index i := by
    rw [hbase.resolve_left hthree]
    exact Charge.inBase_three _

/-- A part of an enumeration from `s` that goes from charges with a property to such charges and
finds stable surfaces of such charges only. -/
def FindsStable (s : Surface ℝ n) (P : Vector Charge n → Prop)
    (visit : Surface ℝ n → List (Surface ℝ n) → Surface ℝ n × List (Surface ℝ n)) : Prop :=
  ∀ q found, P q → (∀ t ∈ found, s.env.IsStableSurface t ∧ P t.charges) →
    ∃ q' found', visit (s.withCharges q) found = (s.withCharges q', found') ∧ P q' ∧
      ∀ t ∈ found', s.env.IsStableSurface t ∧ P t.charges

section Loops

variable {s : Surface ℝ n} {found : List (Surface ℝ n)} {P : Vector Charge n → Prop}

/-- **A surface that is recorded is stable.** -/
theorem record_isStableSurface {q : Vector Charge n} (hq : P q)
    (hfound : ∀ t ∈ found, s.env.IsStableSurface t ∧ P t.charges) :
    ∀ t ∈ record found (s.withCharges q), s.env.IsStableSurface t ∧ P t.charges := by
  intro t ht
  rw [record] at ht
  split at ht
  · rename_i hvalid
    rcases List.mem_cons.1 ht with rfl | ht
    · exact ⟨
        { env_eq := rfl
          stable := Surface.isValid_withCharges_iff.1 hvalid
          potentials := s.get_potentials_withCharges q
          energy := s.energy_withCharges q }, hq⟩
    · exact hfound t ht
  · exact hfound t ht

variable (hrecip : s.env.IsReciprocal)

/-! ## The loops -/

include hrecip

/-- Testing charge indices one after the other. -/
theorem testIndices_isStableSurface (hfound : ∀ t ∈ found, s.env.IsStableSurface t)
    (q : Vector Charge n) (index count : ℕ) :
    ∀ t ∈ testIndices (s.withCharges q) found index count, s.env.IsStableSurface t := by
  induction count generalizing q found index with
  | zero => exact hfound
  | succ count ih =>
    rw [testIndices, Surface.assignIndex_withCharges hrecip]
    refine ih (fun t ht => ?_) _ _
    exact (record_isStableSurface (P := fun _ => True) trivial
      (fun t ht => ⟨hfound t ht, trivial⟩) t ht).1

variable (hkeeps : s.env.Keeps s.base P)

include hkeeps

/-- One test of a walk. -/
theorem settleAndRecord_findsStable : FindsStable s P settleAndRecord := by
  intro q found hq hfound
  have hq' := hkeeps.settle hq s.dependent
  refine ⟨_, record found (s.withCharges (s.env.settle s.base s.dependent q)), ?_, hq',
    record_isStableSurface hq' hfound⟩
  rw [settleAndRecord, Surface.settleDependent_withCharges hrecip]

/-- Counting through cells. -/
theorem countThrough_findsStable (hbase : s.base ≠ 2) (cells : List (Fin n)) (index count : ℕ) :
    FindsStable s P fun s found => countThrough cells s found index count := by
  induction count generalizing index with
  | zero => exact fun q found hq hfound => ⟨q, found, rfl, hq, hfound⟩
  | succ count ih =>
    intro q found hq hfound
    obtain ⟨q₁, found₁, htest, hq₁, hfound₁⟩ := settleAndRecord_findsStable hrecip hkeeps
      (setDigits 3 cells index q) found (hkeeps.setDigits hq hbase cells index) hfound
    obtain ⟨q₂, found₂, hrest, hq₂, hfound₂⟩ := ih (index + 1) q₁ found₁ hq₁ hfound₁
    refine ⟨q₂, found₂, ?_, hq₂, hfound₂⟩
    dsimp only
    rw [countThrough, Surface.assignDigits_withCharges hrecip, htest]
    exact hrest

section Walks

variable {visit : Surface ℝ n → List (Surface ℝ n) → Surface ℝ n × List (Surface ℝ n)}
  (hvisit : FindsStable s P visit)

include hvisit

/-- The rest of a walk. -/
theorem walk_isStableSurface (cells : Array (Fin n)) (g : GrayCode) {q : Vector Charge n}
    (hq : P q) (hfound : ∀ t ∈ found, s.env.IsStableSurface t ∧ P t.charges) :
    ∀ t ∈ walk visit cells g (s.withCharges q) found,
      s.env.IsStableSurface t ∧ P t.charges := by
  induction g using GrayCode.step_induction generalizing q found with
  | ended g hstep =>
    rw [walk_of_none hstep]
    exact hfound
  | step g bit g' hstep ih =>
    obtain ⟨q', found', hrun, hq', hfound'⟩ :=
      hvisit (Surface.flipCharges cells bit q) found (hkeeps.flip hq cells bit) hfound
    rw [walk_of_some hstep, Surface.flip_eq_withCharges hrecip, hrun]
    exact ih hq' hfound'

/-- **A whole walk** finds stable surfaces only. -/
theorem walkAll_isStableSurface (cells : List (Fin n)) {q : Vector Charge n} (hq : P q) :
    ∀ t ∈ walkAll visit cells (s.withCharges q), s.env.IsStableSurface t ∧ P t.charges := by
  obtain ⟨q₁, found₁, hrun, hq₁, hfound₁⟩ :=
    hvisit q [] hq fun t ht => absurd ht List.not_mem_nil
  rw [walkAll, hrun]
  exact walk_isStableSurface hrecip hkeeps hvisit cells.toArray (.start cells.length) hq₁ hfound₁

end Walks

end Loops

/-! ## Simulations -/

/-- The pruned enumeration of an environment finds stable surfaces only, whose charges have every
property that its steps keep. -/
theorem Environment.prunedRun_finds {env : Environment ℝ n} (h : env.IsReciprocal) {base : ℕ}
    {P : Vector Charge n → Prop} (hkeeps : env.Keeps base P)
    (hnegative : P (Vector.replicate n .negative)) :
    ∀ s ∈ env.prunedRun base, env.IsStableSurface s ∧ P s.charges := by
  intro s hs
  have henv := Surface.env_pruned env base
  rw [prunedRun] at hs
  cases hfree : env.freeCells with
  | nil =>
    rw [hfree, Surface.pruned_eq_withCharges] at hs
    exact henv ▸ record_isStableSurface hnegative (fun t ht => absurd ht List.not_mem_nil) s hs
  | cons d rest =>
    rw [hfree] at hs
    dsimp only at hs
    rw [List.mem_reverse] at hs
    set start := (Surface.pruned env base).setDependent (some d) with hstart
    have hcharges : start = start.withCharges (Vector.replicate n .negative) := by
      rw [hstart, Surface.pruned_eq_withCharges]
      rfl
    have henv' : start.env = env := henv
    have hbase : start.base = base := by
      rw [hstart, Surface.pruned_eq_withCharges]
      rfl
    have hrecip : start.env.IsReciprocal := henv'.symm ▸ h
    have hkeeps' : start.env.Keeps start.base P := by
      rw [henv', hbase]
      exact hkeeps
    have hclear := Surface.clear_withCharges_negative hrecip start.independent
    rw [← hcharges] at hclear
    rw [← henv']
    split at hs
    · rw [walkTwoStates, hclear, hcharges] at hs
      exact walkAll_isStableSurface hrecip hkeeps' (settleAndRecord_findsStable hrecip hkeeps') _
        hnegative s hs
    · rename_i hthree
      rw [walkThreeStates, hclear, hcharges] at hs
      exact walkAll_isStableSurface hrecip hkeeps'
        (countThrough_findsStable hrecip hkeeps' (hbase.symm ▸ hthree) _ 0 _) _ hnegative s hs

/-- It finds stable surfaces only. -/
theorem Environment.prunedRun_isStableSurface {env : Environment ℝ n} (h : env.IsReciprocal)
    (base : ℕ) : ∀ s ∈ env.prunedRun base, env.IsStableSurface s := fun s hs =>
  (prunedRun_finds (P := fun _ => True) h
    ⟨fun _ _ => trivial, fun _ _ _ => trivial, fun _ _ _ _ => trivial⟩ trivial s hs).1

/-- Either engine finds stable surfaces only. -/
theorem Environment.simulation_isStableSurface {env : Environment ℝ n} (h : env.IsReciprocal)
    (e : Engine) : ∀ s ∈ (env.simulation e).distributions, env.IsStableSurface s := by
  cases e with
  | quickExact => exact prunedRun_isStableSurface h env.parameters.base
  | exhaustive =>
    intro s hs
    have hs' : s ∈ env.exhaustiveRun := hs
    rw [exhaustiveRun, List.mem_reverse] at hs'
    exact testIndices_isStableSurface (s := Surface.ofEnvironment env) h
      (fun t ht => absurd ht List.not_mem_nil) (Vector.replicate n .negative) 0 _ s hs'

section Simulations

variable {l : Layout ℝ} {p : Parameters ℝ}

/-- The distributions of the pruned enumeration, whether it chooses its base or not. -/
theorem isStableSurface_of_mem_enumeratePruned {d : BaseDetection} {r : Simulation ℝ l.size}
    (h : l.enumeratePruned p d = .ok r) {s : Surface ℝ l.size} (hs : s ∈ r.distributions) :
    l.isEmpty = false ∧ (Environment.ofLayout l p).IsStableSurface s := by
  obtain ⟨_, haccepted, -⟩ := bind_eq_ok_iff.1 h
  obtain ⟨hp, hl⟩ := checkInputs_eq_ok_iff.1 haccepted
  cases hcells : l.isEmpty with
  | true =>
    obtain rfl := Except.ok.inj ((enumerate_of_isEmpty hp hl hcells d).2.symm.trans h)
    exact absurd hs List.not_mem_nil
  | false =>
    obtain rfl := Except.ok.inj ((enumeratePruned_eq_prunedRun hp hl hcells d rfl).symm.trans h)
    exact ⟨rfl,
      Environment.prunedRun_isStableSurface (Environment.ofLayout_isReciprocal l p) _ s hs⟩

/-- The pruned enumeration in the base of the parameters finds charges of that base, however many
cells there are. -/
theorem inBase_of_mem_enumeratePruned {r : Simulation ℝ l.size}
    (h : l.enumeratePruned p .off = .ok r) {s : Surface ℝ l.size} (hs : s ∈ r.distributions)
    (i : Fin l.size) : (s.charges.get i).InBase p.base := by
  obtain ⟨_, haccepted, -⟩ := bind_eq_ok_iff.1 h
  obtain ⟨hp, hl⟩ := checkInputs_eq_ok_iff.1 haccepted
  have hbase := (Parameters.check_eq_ok_iff.1 hp).1
  have hcells := (isStableSurface_of_mem_enumeratePruned h hs).1
  obtain rfl := Except.ok.inj ((enumeratePruned_eq_prunedRun hp hl hcells .off rfl).symm.trans h)
  exact (Environment.prunedRun_finds (Environment.ofLayout_isReciprocal l p)
    (Environment.keeps_inBase _ hbase) (inBase_replicate_negative hbase) s hs).2 i

/-- **Every distribution is stable.** Whichever engine simulates a layout, each distribution is a
stable assignment, with the potentials and the energy of its charges. -/
theorem isStableSurface_of_mem_distributions {e : Engine} {r : Simulation ℝ l.size}
    (h : l.simulate e p = .ok r) {s : Surface ℝ l.size} (hs : s ∈ r.distributions) :
    (Environment.ofLayout l p).IsStableSurface s := by
  cases e with
  | quickExact => exact (isStableSurface_of_mem_enumeratePruned h hs).2
  | exhaustive =>
    obtain ⟨hp, hl⟩ := accepted_of_simulate_eq_ok h
    cases hcells : l.isEmpty with
    | true =>
      obtain rfl := Except.ok.inj ((enumerate_of_isEmpty hp hl hcells .off).1.symm.trans h)
      exact absurd hs List.not_mem_nil
    | false =>
      obtain rfl := Except.ok.inj ((enumerateAll_eq_exhaustiveRun hp hl hcells).symm.trans h)
      exact Environment.simulation_isStableSurface (Environment.ofLayout_isReciprocal l p)
        .exhaustive s hs

/-- The assignments that an engine finds: the stable ones of the base and, if the enumeration is
pruned, of these the ones whose dependent cell is settled. -/
def Layout.Finds (l : Layout ℝ) (p : Parameters ℝ) (e : Engine) (q : Vector Charge l.size) : Prop :=
  (∀ i, (q.get i).InBase p.base) ∧ (Environment.ofLayout l p).IsStable q ∧
    (e = .quickExact → ∀ d, (Environment.ofLayout l p).IsDependent d →
      q.get d = settledCharge ((Environment.ofLayout l p).potential q d) p p.base)

/-- **What an engine finds**, if the numbers it counts with fit in 64 bits: each of these
assignments once. -/
theorem exists_simulate_exact (hp : p.check = .ok ()) (hl : l.checkDefects = .ok ())
    (hcells : l.isEmpty = false) {e : Engine} (hfits : l.FitsIndices p e) :
    ∃ r, l.simulate e p = .ok r ∧ r.charges.Nodup ∧ ∀ q, q ∈ r.charges ↔ l.Finds p e q := by
  cases e with
  | quickExact =>
    obtain ⟨r, hr, hnodup, hmem, -⟩ := exists_enumeratePruned hp hl hcells .off rfl hfits
    refine ⟨r, hr, hnodup, fun q => (hmem q).trans ?_⟩
    exact and_congr_right fun _ => and_congr_right fun _ => ⟨fun h _ => h, fun h => h rfl⟩
  | exhaustive =>
    obtain ⟨r, hr, hnodup, hmem⟩ := exists_enumerateAll hp hl hcells hfits
    refine ⟨r, hr, hnodup, fun q => (hmem q).trans ?_⟩
    refine and_congr_right fun _ => (and_iff_left ?_).symm
    intro h
    cases h

end Simulations

end DanglingBonds
