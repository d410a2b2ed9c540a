/-
# The two enumerations

Each enumeration of a layout returns what is recorded from its tested assignments, as long as the
numbers it counts with fit in 64 bits.

* `fixCells_ofEnvironment` : the surface with which the pruned enumeration starts.
* `enumerateAll_eq_ok`, `enumeratePruned_eq_ok` : the results of the two enumerations.
-/
import Mathlib
import DanglingBonds.Proofs.TestedAssignments

namespace DanglingBonds

variable {n : ℕ}

/-! ## Fixing cells at the start -/

namespace Surface

/-- Fixing the cells of a list, all cells negative, marks those that must be negative. -/
theorem foldl_fixNegative_ofEnvironment (env : Environment ℝ n) (cells : List (Fin n))
    (fixed : Vector Bool n) :
    cells.foldl (fun s i => if s.env.mustBeNegative i then s.fixNegative i else s)
        ({ ofEnvironment env with fixed } : Surface ℝ n)
      = { ofEnvironment env with
          fixed := cells.foldl
            (fun f i => if env.mustBeNegative i then setCell f i true else f) fixed } := by
  induction cells generalizing fixed with
  | nil => rfl
  | cons i is ih =>
    have hnegative : ∀ f : Vector Bool n,
        ({ ofEnvironment env with fixed := f } : Surface ℝ n).fixNegative i
          = { ofEnvironment env with fixed := setCell f i true } :=
      fun f => if_pos (get_replicate i Charge.negative)
    rw [List.foldl_cons, List.foldl_cons]
    show List.foldl _ (if env.mustBeNegative i = true then _ else _) is = _
    split
    · rw [hnegative, ih]
    · rw [ih]

/-- The marks after a list of cells. -/
theorem get_foldl_set_true (m : Fin n → Bool) (cells : List (Fin n)) (fixed : Vector Bool n)
    (j : Fin n) :
    (cells.foldl (fun f i => if m i then setCell f i true else f) fixed).get j
      = (fixed.get j || (decide (j ∈ cells) && m j)) := by
  induction cells generalizing fixed with
  | nil => simp
  | cons i is ih =>
    rw [List.foldl_cons, ih]
    by_cases hji : j = i
    · subst hji
      cases m j <;> simp [get_setCell_self]
    · have hget : (if m i = true then setCell fixed i true else fixed).get j = fixed.get j := by
        split
        · exact get_setCell_of_ne fixed hji true
        · rfl
      rw [hget]
      simp [hji]

/-- **The start of the pruned enumeration.** With all cells negative, fixing cells marks those that
must be negative and leaves the others independent. -/
theorem fixCells_ofEnvironment (env : Environment ℝ n) :
    (ofEnvironment env).fixCells
      = { ofEnvironment env with
          fixed := Vector.ofFn env.mustBeNegative
          independent := env.freeCells } := by
  have hfixed : (List.finRange n).foldl
        (fun f i => if env.mustBeNegative i then setCell f i true else f) (Vector.replicate n false)
      = Vector.ofFn env.mustBeNegative := by
    apply ext_get
    intro j
    rw [get_foldl_set_true, get_replicate, get_ofFn]
    simp
  have hfold : (List.finRange n).foldl
        (fun s i => if s.env.mustBeNegative i then s.fixNegative i else s) (ofEnvironment env)
      = { ofEnvironment env with fixed := Vector.ofFn env.mustBeNegative } := by
    rw [← hfixed]
    exact foldl_fixNegative_ofEnvironment env (List.finRange n) (Vector.replicate n false)
  have hfree : (List.finRange n).filter
        (fun i => !env.mustBeNegative i && some i != (none : Option (Fin n)))
      = env.freeCells :=
    List.filter_congr fun i _ => Bool.and_true _
  rw [fixCells, hfold, ← hfree]
  simp only [refreshIndependent, get_ofFn]
  rfl

/-- The surface of the pruned enumeration in a base. -/
noncomputable def pruned (env : Environment ℝ n) (base : ℕ) : Surface ℝ n :=
  (ofEnvironment env).fixCells.setBase base

theorem env_pruned (env : Environment ℝ n) (base : ℕ) : (pruned env base).env = env := by
  rw [pruned, fixCells_ofEnvironment]
  rfl

/-- All its cells are negative. -/
theorem pruned_eq_withCharges (env : Environment ℝ n) (base : ℕ) :
    pruned env base = (pruned env base).withCharges (Vector.replicate n .negative) := by
  rw [pruned, fixCells_ofEnvironment]
  rfl

/-- Its cells that are not fixed are the free cells. -/
theorem free_pruned (env : Environment ℝ n) (base : ℕ) :
    (pruned env base).free = env.freeCells := by
  rw [pruned, fixCells_ofEnvironment, free, Environment.freeCells]
  simp only [setBase, get_ofFn]

/-- A free cell can be made dependent; the other free cells stay independent. -/
theorem setDependent_pruned {env : Environment ℝ n} {d : Fin n}
    (hd : env.mustBeNegative d = false) (base : ℕ) :
    (pruned env base).setDependent (some d)
      = { pruned env base with
          dependent := some d
          independent := env.independentCells d } := by
  have hfilter : (some d).filter (fun d => !env.mustBeNegative d) = some d :=
    Option.filter_some_pos (by rw [hd]; rfl)
  rw [pruned, fixCells_ofEnvironment, setDependent, Environment.independentCells]
  simp only [setBase, refreshIndependent, get_ofFn, hfilter]

/-- Clearing negative cells changes nothing. -/
theorem clear_withCharges_negative {s : Surface ℝ n} (h : s.env.IsReciprocal)
    (cells : List (Fin n)) :
    (s.withCharges (Vector.replicate n .negative)).clear cells
      = s.withCharges (Vector.replicate n .negative) := by
  have hset : ∀ i : Fin n, setCell (Vector.replicate n Charge.negative) i .negative
      = Vector.replicate n .negative := by
    intro i
    apply ext_get
    intro j
    rw [get_setCell, get_replicate, ite_self]
  rw [clear_withCharges h]
  congr 1
  induction cells with
  | nil => rfl
  | cons i is ih => rw [List.foldl_cons, hset, ih]

end Surface

/-! ## Numbers of 64 bits -/

/-- The numbers that the pruned enumeration counts with fit in 64 bits: the word of the walk and the
number of the inner cells. -/
def Environment.IndicesFit (env : Environment ℝ n) (base : ℕ) : Prop :=
  ∀ d, env.IsDependent d →
    (env.outerCells base d).length ≤ 64 ∧ 3 ^ (env.innerCells base d).length ≤ 2 ^ 64

/-- A power of three within 64 bits is not the bound. -/
theorem min_three_pow {m : ℕ} (h : 3 ^ m ≤ 2 ^ 64) : min (3 ^ m) (2 ^ 64 - 1) = 3 ^ m := by
  have hodd : Odd (3 ^ m) := Odd.pow (by decide)
  have hne : 3 ^ m ≠ 2 ^ 64 := by
    intro heq
    rw [heq] at hodd
    exact absurd hodd (by decide)
  exact min_eq_left (by omega)

/-- If the assignments of the base can be counted in 64 bits, all numbers fit. -/
theorem Environment.indicesFit_of_pow_le {env : Environment ℝ n} {base : ℕ}
    (hbase : base = 2 ∨ base = 3) (h : base ^ n ≤ 2 ^ 64) : env.IndicesFit base := by
  intro d _
  have hn : n ≤ 64 := by
    have hle : 2 ^ n ≤ base ^ n := Nat.pow_le_pow_left (by omega) n
    exact (Nat.pow_le_pow_iff_right Nat.one_lt_two).1 (hle.trans h)
  have hlength : ∀ cells : List (Fin n), cells.Nodup → cells.length ≤ n :=
    fun cells hcells => by simpa using hcells.length_le_card
  refine ⟨(hlength _ (env.nodup_outerCells base d)).trans hn, ?_⟩
  rcases hbase with rfl | rfl
  · rw [innerCells, if_pos rfl]
    norm_num
  · exact (Nat.pow_le_pow_right (by omega) (hlength _ (env.nodup_innerCells 3 d))).trans h

/-! ## The pruned enumeration -/

/-- Without inner cells a visit is one test. -/
theorem settleAndRecord_eq_countThrough :
    (settleAndRecord : Surface ℝ n → List (Surface ℝ n) → Surface ℝ n × List (Surface ℝ n))
      = fun s found => countThrough ([] : List (Fin n)).reverse s found 0
          (3 ^ ([] : List (Fin n)).length) := rfl

/-- The walk of the pruned enumeration, in either base, records from the pruned tests. -/
theorem walk_setDependent_pruned {env : Environment ℝ n} (h : env.IsReciprocal) {base : ℕ}
    {d : Fin n} {rest : List (Fin n)} (hfree : env.freeCells = d :: rest)
    (hfits : env.IndicesFit base) :
    (if base = 2 then walkTwoStates ((Surface.pruned env base).setDependent (some d))
        else walkThreeStates ((Surface.pruned env base).setDependent (some d))).reverse
      = recorded ((Surface.pruned env base).setDependent (some d)) (env.prunedTests base) := by
  have hdep := Environment.isDependent_of_freeCells_eq hfree
  obtain ⟨hbits, hcount⟩ := hfits d hdep
  rw [Surface.setDependent_pruned hdep.free base, Surface.pruned, Surface.fixCells_ofEnvironment]
  set s : Surface ℝ n := { Surface.ofEnvironment env with
    base
    fixed := Vector.ofFn env.mustBeNegative
    dependent := some d
    independent := env.independentCells d } with hs
  have hnegative : s = s.withCharges (Vector.replicate n .negative) := rfl
  have hwalk : (walkAll (fun s found => countThrough (env.innerCells base d).reverse s found 0
          (3 ^ (env.innerCells base d).length)) (env.outerCells base d)
        (s.withCharges (Vector.replicate n .negative))).reverse
      = recorded s (env.tested base (some d) (env.outerCells base d) (env.innerCells base d)
          (Vector.replicate n .negative)) :=
    walkAll_withCharges h (env.nodup_outerCells base d)
      (fun i hi => Environment.notMem_innerCells_of_mem_outerCells hi)
      (fun i hi => Environment.ne_dependent_of_mem_independentCells
        (Environment.mem_outerCells_iff.1 hi).1)
      hbits (fun i _ => get_replicate i _)
  have htests : env.prunedTests base
      = env.tested base (some d) (env.outerCells base d) (env.innerCells base d)
          (Vector.replicate n .negative) := by
    rw [Environment.prunedTests, hfree]
  have hclear : s.clear s.independent = s := by
    rw [hnegative]
    exact Surface.clear_withCharges_negative h s.independent
  show (if base = 2 then walkTwoStates s else walkThreeStates s).reverse = recorded s _
  rw [htests]
  refine Eq.trans ?_ hwalk
  rw [← hnegative]
  congr 1
  -- in base 2 all independent cells are outer cells
  split
  · rename_i hb
    rw [walkTwoStates, hclear, settleAndRecord_eq_countThrough, Environment.outerCells,
      Environment.innerCells, if_pos hb, if_pos hb]
  · rename_i hb
    rw [Environment.innerCells, if_neg hb] at hcount
    rw [walkThreeStates, hclear, Environment.outerCells, Environment.innerCells, if_neg hb,
      if_neg hb]
    have hmin : min (Nat.pow 3 (s.independent.filter s.env.canBePositive).length)
          (Nat.pow 2 64 - 1)
        = 3 ^ (s.independent.filter s.env.canBePositive).length := min_three_pow hcount
    simp only [hmin]
    rfl

/-- Without free cells the negative assignment is recorded from. -/
theorem record_pruned {env : Environment ℝ n} (hfree : env.freeCells = []) (base : ℕ) :
    record [] (Surface.pruned env base)
      = recorded (Surface.pruned env base) (env.prunedTests base) := by
  rw [Environment.prunedTests, hfree, ← reverse_recorded_singleton,
    ← List.append_nil (recorded _ _).reverse, ← record_withCharges,
    ← Surface.pruned_eq_withCharges]

/-! ## The results -/

section Results

variable {l : Layout ℝ} {p : Parameters ℝ}

/-- Without cells both enumerations find nothing. -/
theorem enumerate_of_isEmpty (hp : p.check = .ok ()) (hl : l.checkDefects = .ok ())
    (hempty : l.isEmpty = true) (d : BaseDetection) :
    l.enumerateAll p = .ok ⟨.exhaustive, p, p.base, []⟩
      ∧ l.enumeratePruned p d = .ok ⟨.quickExact, p, p.base, []⟩ := by
  rw [Layout.enumerateAll, Layout.enumeratePruned, checkInputs_eq_ok_iff.2 ⟨hp, hl⟩, if_pos hempty,
    if_pos hempty]
  exact ⟨rfl, rfl⟩

/-- **The exhaustive enumeration** of a layout with cells records from the assignments of the
base. -/
theorem enumerateAll_eq_ok (hp : p.check = .ok ()) (hl : l.checkDefects = .ok ())
    (hcells : l.isEmpty = false) (hfits : p.base ^ l.size ≤ 2 ^ 64) :
    l.enumerateAll p = .ok ⟨.exhaustive, p, p.base,
      recorded (Surface.ofLayout l p) (Environment.exhaustiveTests l.size p.base)⟩ := by
  set s := Surface.ofLayout l p with hs
  have hbase : p.base = 2 ∨ p.base = 3 := (Parameters.check_eq_ok_iff.1 hp).1
  have hcount : s.lastIndex + 1 = p.base ^ l.size := by
    have hlength : s.independent.length = l.size := List.length_finRange
    have hpos : 0 < p.base ^ l.size := Nat.pow_pos (by omega)
    have hmin : min (Nat.pow s.base s.independent.length) (Nat.pow 2 64) = p.base ^ l.size := by
      rw [hlength]
      exact min_eq_left hfits
    rw [Surface.lastIndex, hmin]
    omega
  have hfound := testIndices_withCharges (s := s) (Environment.ofLayout_isReciprocal l p) hbase
    rfl (fun i => List.mem_finRange i) (Vector.replicate l.size .negative) [] 0 (p.base ^ l.size)
  have htests : (List.range' 0 (p.base ^ l.size)).map (fun x =>
        setDigits s.base s.independent.reverse x (Vector.replicate l.size .negative))
      = Environment.exhaustiveTests l.size p.base := by
    rw [← List.range_eq_range', Environment.exhaustiveTests]
    rfl
  rw [htests, List.append_nil] at hfound
  rw [Layout.enumerateAll, checkInputs_eq_ok_iff.2 ⟨hp, hl⟩, hcells]
  show Except.ok (Simulation.mk _ p p.base (testIndices s [] 0 (s.lastIndex + 1)).reverse) = _
  rw [hcount]
  have hstart : s = s.withCharges (Vector.replicate l.size .negative) := rfl
  rw [hstart, hfound, List.reverse_reverse]
  rfl

/-- What the exhaustive enumeration finds, however many cells there are. -/
noncomputable def Environment.exhaustiveRun (env : Environment ℝ n) : List (Surface ℝ n) :=
  (testIndices (Surface.ofEnvironment env) [] 0
    ((Surface.ofEnvironment env).lastIndex + 1)).reverse

/-- The exhaustive enumeration of a layout with cells runs in the base of the parameters. -/
theorem enumerateAll_eq_exhaustiveRun (hp : p.check = .ok ()) (hl : l.checkDefects = .ok ())
    (hcells : l.isEmpty = false) :
    l.enumerateAll p
      = .ok ⟨.exhaustive, p, p.base, (Environment.ofLayout l p).exhaustiveRun⟩ := by
  rw [Layout.enumerateAll, checkInputs_eq_ok_iff.2 ⟨hp, hl⟩, hcells]
  rfl

/-- What the pruned enumeration finds in a base, however many cells there are. -/
noncomputable def Environment.prunedRun (env : Environment ℝ n) (base : ℕ) : List (Surface ℝ n) :=
  match env.freeCells with
  | [] => record [] (Surface.pruned env base)
  | d :: _ =>
    (if base = 2 then walkTwoStates ((Surface.pruned env base).setDependent (some d))
      else walkThreeStates ((Surface.pruned env base).setDependent (some d))).reverse

/-- The pruned enumeration of a layout with cells chooses a base and runs in it. -/
theorem enumeratePruned_eq_prunedRun (hp : p.check = .ok ()) (hl : l.checkDefects = .ok ())
    (hcells : l.isEmpty = false) (detection : BaseDetection) {base : ℕ}
    (hbase : base = enumerationBase detection p
      ((Environment.ofLayout l p).freeCells.any (Environment.ofLayout l p).canBePositive)) :
    l.enumeratePruned p detection
      = .ok ⟨.quickExact, p, base, (Environment.ofLayout l p).prunedRun base⟩ := by
  set env := Environment.ofLayout l p with henv
  have hfree : ∀ b, ((Surface.ofLayout l p).fixCells.setBase b).free = env.freeCells :=
    Surface.free_pruned env
  -- the base and the dependent cell are chosen from the free cells, which no choice changes
  have hany : (Surface.ofLayout l p).fixCells.free.any
        (Surface.ofLayout l p).fixCells.env.canBePositive
      = env.freeCells.any env.canBePositive := by
    have hfixed : (Surface.ofLayout l p).fixCells.env = env := Surface.env_pruned env 2
    rw [hfixed, ← hfree 2]
    rfl
  rw [Layout.enumeratePruned, checkInputs_eq_ok_iff.2 ⟨hp, hl⟩, hcells, Environment.prunedRun]
  simp only [hany, ← hbase, hfree]
  cases env.freeCells with
  | nil => rfl
  | cons d rest => rfl

/-- What an engine finds in an environment, in the base of the parameters. -/
noncomputable def Environment.simulation (env : Environment ℝ n) (e : Engine) : Simulation ℝ n where
  engine := e
  parameters := env.parameters
  base := env.parameters.base
  distributions :=
    match e with
    | .quickExact => env.prunedRun env.parameters.base
    | .exhaustive => env.exhaustiveRun

/-- A simulation of a layout with cells is one of its environment. -/
theorem simulate_eq_simulation (hp : p.check = .ok ()) (hl : l.checkDefects = .ok ())
    (hcells : l.isEmpty = false) (e : Engine) :
    l.simulate e p = .ok ((Environment.ofLayout l p).simulation e) := by
  cases e with
  | quickExact => exact enumeratePruned_eq_prunedRun hp hl hcells .off rfl
  | exhaustive => exact enumerateAll_eq_exhaustiveRun hp hl hcells

/-- **The pruned enumeration** of a layout with cells records from the pruned tests of its base. -/
theorem enumeratePruned_eq_ok (hp : p.check = .ok ()) (hl : l.checkDefects = .ok ())
    (hcells : l.isEmpty = false) (detection : BaseDetection) {base : ℕ}
    (hbase : base = enumerationBase detection p
      ((Environment.ofLayout l p).freeCells.any (Environment.ofLayout l p).canBePositive))
    (hfits : (Environment.ofLayout l p).IndicesFit base) :
    ∃ s : Surface ℝ l.size, s.env = Environment.ofLayout l p ∧
      l.enumeratePruned p detection = .ok ⟨.quickExact, p, base,
        recorded s ((Environment.ofLayout l p).prunedTests base)⟩ := by
  rw [enumeratePruned_eq_prunedRun hp hl hcells detection hbase, Environment.prunedRun]
  set env := Environment.ofLayout l p with henv
  have hrecip : env.IsReciprocal := Environment.ofLayout_isReciprocal l p
  cases hcase : env.freeCells with
  | nil =>
    refine ⟨Surface.pruned env base, Surface.env_pruned env base, ?_⟩
    rw [← record_pruned hcase]
  | cons d rest =>
    refine ⟨(Surface.pruned env base).setDependent (some d), Surface.env_pruned env base, ?_⟩
    rw [← walk_setDependent_pruned hrecip hcase hfits]

end Results

end DanglingBonds
