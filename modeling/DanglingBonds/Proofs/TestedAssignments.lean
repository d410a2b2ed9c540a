/-
# The tested assignments

Which assignments the two enumerations test, and that they test none twice.

* `Environment.mem_tested_iff`, `Environment.nodup_tested` : the assignments of a walk.
* `Environment.exhaustiveTests`, `Environment.prunedTests` : those of the two enumerations.
* `mem_exhaustiveTests_iff`, `mem_prunedTests_iff` : membership of a stable assignment.
-/
import Mathlib
import DanglingBonds.Proofs.Trace

namespace DanglingBonds

variable {n : ℕ}

namespace Environment

/-! ## The assignments of a walk -/

/-- The assignment tested with `word` on the outer cells and the number `x` on the inner ones. -/
noncomputable def assignmentAt (env : Environment ℝ n) (base : ℕ) (dependent : Option (Fin n))
    (outer inner : List (Fin n)) (q₀ : Vector Charge n) (word x : ℕ) : Vector Charge n :=
  env.settle base dependent (setDigits 3 inner.reverse x (setDigits 2 outer.reverse word q₀))

section Walk

variable {env : Environment ℝ n} {base : ℕ} {dependent : Option (Fin n)}
  {outer inner : List (Fin n)} {q₀ q : Vector Charge n}

theorem mem_testedAt_iff {word : ℕ} :
    q ∈ env.testedAt base dependent outer inner q₀ word
      ↔ ∃ x < 3 ^ inner.length, env.assignmentAt base dependent outer inner q₀ word x = q := by
  rw [testedAt, List.mem_map]
  simp only [List.mem_range]
  rfl

theorem mem_tested_iff_exists :
    q ∈ env.tested base dependent outer inner q₀
      ↔ ∃ word < 2 ^ outer.length, ∃ x < 3 ^ inner.length,
          env.assignmentAt base dependent outer inner q₀ word x = q := by
  rw [tested, List.mem_flatMap]
  simp only [List.mem_range, mem_testedAt_iff]
  constructor
  · rintro ⟨c, hc, x, hx, rfl⟩
    exact ⟨_, GrayCode.word_lt_two_pow hc, x, hx, rfl⟩
  · rintro ⟨word, hword, x, hx, rfl⟩
    obtain ⟨c, hc, rfl⟩ := GrayCode.exists_word_eq hword
    exact ⟨c, hc, x, hx, rfl⟩

/-- Settling twice is settling once. -/
theorem settle_settle (h : env.IsReciprocal) (base : ℕ) (dependent : Option (Fin n))
    (q : Vector Charge n) :
    env.settle base dependent (env.settle base dependent q) = env.settle base dependent q :=
  env.settle_congr h (fun _ hi => get_settle_of_ne hi base q) base

variable (houter : outer.Nodup) (hinner : inner.Nodup) (hdisj : ∀ i ∈ outer, i ∉ inner)
  (hdepOuter : ∀ i ∈ outer, dependent ≠ some i) (hdepInner : ∀ i ∈ inner, dependent ≠ some i)

include hdisj hdepOuter in
/-- An outer cell holds its digit of the word. -/
theorem get_assignmentAt_outer {i : Fin n} (hi : i ∈ outer) (word x : ℕ) :
    (env.assignmentAt base dependent outer inner q₀ word x).get i
      = (setDigits 2 outer.reverse word q₀).get i := by
  have hi' : i ∉ inner.reverse := fun hmem => hdisj i hi (List.mem_reverse.1 hmem)
  rw [assignmentAt, get_settle_of_ne (hdepOuter i hi), get_setDigits_of_notMem (.inr rfl) hi']

include houter hdisj hdepOuter in
/-- The word can be read back from the outer cells. -/
theorem readDigits_outer {word : ℕ} (hword : word < 2 ^ outer.length) (x : ℕ) :
    readDigits 2 outer.reverse (env.assignmentAt base dependent outer inner q₀ word x) = word := by
  rw [readDigits_congr fun i hi =>
    get_assignmentAt_outer hdisj hdepOuter (List.mem_reverse.1 hi) word x]
  exact readDigits_setDigits (.inl rfl) (List.nodup_reverse.2 houter)
    (by rwa [List.length_reverse]) q₀

include hinner hdepInner in
/-- The number can be read back from the inner cells. -/
theorem readDigits_inner {x : ℕ} (hx : x < 3 ^ inner.length) (word : ℕ) :
    readDigits 3 inner.reverse (env.assignmentAt base dependent outer inner q₀ word x) = x := by
  have hsame : ∀ i ∈ inner.reverse, (env.assignmentAt base dependent outer inner q₀ word x).get i
      = (setDigits 3 inner.reverse x (setDigits 2 outer.reverse word q₀)).get i := by
    intro i hi
    rw [assignmentAt, get_settle_of_ne (hdepInner i (List.mem_reverse.1 hi))]
  rw [readDigits_congr hsame]
  exact readDigits_setDigits (.inr rfl) (List.nodup_reverse.2 hinner)
    (by rwa [List.length_reverse]) _

include houter hinner hdisj hdepOuter hdepInner in
/-- **No assignment twice.** A walk tests no assignment twice. -/
theorem nodup_tested : (env.tested base dependent outer inner q₀).Nodup := by
  -- at one place the inner cells differ, at two places the outer ones
  rw [tested, List.nodup_flatMap]
  constructor
  · intro c _
    refine List.Nodup.map_on ?_ List.nodup_range
    intro x hx y hy hxy
    have hread : ∀ x ∈ List.range (3 ^ inner.length), readDigits 3 inner.reverse
        (env.assignmentAt base dependent outer inner q₀ (GrayCode.word c) x) = x :=
      fun x hx => readDigits_inner hinner hdepInner (List.mem_range.1 hx) _
    rw [← hread x hx, ← hread y hy]
    exact congrArg (readDigits 3 inner.reverse) hxy
  · refine List.Pairwise.imp_of_mem ?_ (List.nodup_range (n := 2 ^ outer.length))
    intro c c' hc hc' hne q hq hq'
    obtain ⟨x, -, rfl⟩ := mem_testedAt_iff.1 hq
    obtain ⟨x', -, hx'⟩ := mem_testedAt_iff.1 hq'
    have hread := congrArg (readDigits 2 outer.reverse) hx'
    rw [readDigits_outer houter hdisj hdepOuter
        (GrayCode.word_lt_two_pow (List.mem_range.1 hc')),
      readDigits_outer houter hdisj hdepOuter
        (GrayCode.word_lt_two_pow (List.mem_range.1 hc))] at hread
    exact hne (GrayCode.word_injective hread).symm

include hdisj hdepOuter in
/-- **The assignments of a walk.** A walk tests the assignments with no positive outer cell that are
settled and agree with the start outside the outer, inner and dependent cells. -/
theorem mem_tested_iff (h : env.IsReciprocal) :
    q ∈ env.tested base dependent outer inner q₀
      ↔ (∀ i ∈ outer, (q.get i).InBase 2)
        ∧ (∀ i, i ∉ outer → i ∉ inner → dependent ≠ some i → q.get i = q₀.get i)
        ∧ env.settle base dependent q = q := by
  rw [mem_tested_iff_exists]
  constructor
  · rintro ⟨word, hword, x, hx, rfl⟩
    refine ⟨fun i hi => ?_, fun i hio hii hdep => ?_, settle_settle h _ _ _⟩
    · rw [get_assignmentAt_outer hdisj hdepOuter hi]
      exact get_setDigits_inBase (.inl rfl) (List.mem_reverse.2 hi) _ _
    · rw [assignmentAt, get_settle_of_ne hdep,
        get_setDigits_of_notMem (.inr rfl) fun hmem => hii (List.mem_reverse.1 hmem),
        get_setDigits_of_notMem (.inl rfl) fun hmem => hio (List.mem_reverse.1 hmem)]
  · rintro ⟨hout, hrest, hsettled⟩
    have hout' : ∀ i ∈ outer.reverse, (q.get i).InBase 2 :=
      fun i hi => hout i (List.mem_reverse.1 hi)
    have hin' : ∀ i ∈ inner.reverse, (q.get i).InBase 3 := fun i _ => Charge.inBase_three _
    refine ⟨readDigits 2 outer.reverse q, ?_, readDigits 3 inner.reverse q, ?_, ?_⟩
    · rw [← List.length_reverse]
      exact readDigits_lt hout'
    · rw [← List.length_reverse]
      exact readDigits_lt hin'
    · -- setting the digits of `q` makes every cell but the dependent one that of `q`
      have hword : ∀ i, i ∉ inner.reverse → dependent ≠ some i →
          (setDigits 2 outer.reverse (readDigits 2 outer.reverse q) q₀).get i = q.get i := by
        intro i hi hdep
        have hstart : i ∉ outer.reverse → q₀.get i = q.get i := fun ho =>
          (hrest i (fun hmem => ho (List.mem_reverse.2 hmem))
            (fun hmem => hi (List.mem_reverse.2 hmem)) hdep).symm
        rw [get_setDigits_congr (.inl rfl) hstart, setDigits_readDigits hout']
      have hpoint : ∀ i, dependent ≠ some i →
          (setDigits 3 inner.reverse (readDigits 3 inner.reverse q)
            (setDigits 2 outer.reverse (readDigits 2 outer.reverse q) q₀)).get i = q.get i := by
        intro i hdep
        rw [get_setDigits_congr (.inr rfl) (fun hi => hword i hi hdep),
          setDigits_readDigits hin']
      rw [assignmentAt, env.settle_congr h hpoint base, hsettled]

end Walk

/-! ## Every assignment of a base -/

/-- The assignments that the exhaustive enumeration tests, in order. -/
def exhaustiveTests (n base : ℕ) : List (Vector Charge n) :=
  (List.range (base ^ n)).map fun x =>
    setDigits base (List.finRange n).reverse x (Vector.replicate n .negative)

/-- The exhaustive enumeration tests the assignments of the base. -/
theorem mem_exhaustiveTests_iff {base : ℕ} (hbase : base = 2 ∨ base = 3) {q : Vector Charge n} :
    q ∈ exhaustiveTests n base ↔ ∀ i, (q.get i).InBase base := by
  have hall : ∀ i : Fin n, i ∈ (List.finRange n).reverse :=
    fun i => List.mem_reverse.2 (List.mem_finRange i)
  rw [exhaustiveTests, List.mem_map]
  constructor
  · rintro ⟨x, -, rfl⟩ i
    exact get_setDigits_inBase hbase (hall i) x _
  · intro hq
    refine ⟨readDigits base (List.finRange n).reverse q, ?_, ?_⟩
    · have hq' : ∀ i ∈ (List.finRange n).reverse, (q.get i).InBase base := fun i _ => hq i
      have hlt := readDigits_lt hq'
      rwa [List.length_reverse, List.length_finRange, ← List.mem_range] at hlt
    · have hstart : ∀ j, j ∉ (List.finRange n).reverse →
          (Vector.replicate n Charge.negative).get j = q.get j :=
        fun j hj => absurd (hall j) hj
      rw [setDigits_congr hbase hstart]
      exact setDigits_readDigits fun i _ => hq i

/-- The exhaustive enumeration tests no assignment twice. -/
theorem nodup_exhaustiveTests {base : ℕ} (hbase : base = 2 ∨ base = 3) :
    (exhaustiveTests n base).Nodup := by
  have hnodup : (List.finRange n).reverse.Nodup := List.nodup_reverse.2 (List.nodup_finRange n)
  have hread : ∀ x ∈ List.range (base ^ n),
      readDigits base (List.finRange n).reverse
        (setDigits base (List.finRange n).reverse x (Vector.replicate n .negative)) = x := by
    intro x hx
    refine readDigits_setDigits hbase hnodup ?_ _
    rw [List.length_reverse, List.length_finRange]
    exact List.mem_range.1 hx
  refine List.Nodup.map_on ?_ List.nodup_range
  intro x hx y hy hxy
  rw [← hread x hx, ← hread y hy, hxy]

/-! ## The pruned assignments -/

/-- The cells that are not negative in every stable assignment. -/
noncomputable def freeCells (env : Environment ℝ n) : List (Fin n) :=
  (List.finRange n).filter fun i => !env.mustBeNegative i

/-- The free cells but the dependent one. -/
noncomputable def independentCells (env : Environment ℝ n) (d : Fin n) : List (Fin n) :=
  (List.finRange n).filter fun i => !env.mustBeNegative i && some i != some d

/-- The independent cells that are counted through in base 3. -/
noncomputable def innerCells (env : Environment ℝ n) (base : ℕ) (d : Fin n) : List (Fin n) :=
  if base = 2 then [] else (env.independentCells d).filter env.canBePositive

/-- The independent cells that are walked over in Gray code order. -/
noncomputable def outerCells (env : Environment ℝ n) (base : ℕ) (d : Fin n) : List (Fin n) :=
  if base = 2 then env.independentCells d
  else (env.independentCells d).filter fun i => !env.canBePositive i

/-- The assignments that the pruned enumeration tests, in order. -/
noncomputable def prunedTests (env : Environment ℝ n) (base : ℕ) : List (Vector Charge n) :=
  match env.freeCells with
  | [] => [Vector.replicate n .negative]
  | d :: _ =>
    env.tested base (some d) (env.outerCells base d) (env.innerCells base d)
      (Vector.replicate n .negative)

section Pruned

variable {env : Environment ℝ n} {base : ℕ} {d i : Fin n}

theorem mem_freeCells_iff : i ∈ env.freeCells ↔ env.mustBeNegative i = false := by
  rw [freeCells, List.mem_filter, Bool.not_eq_true']
  exact and_iff_right (List.mem_finRange i)

theorem mem_independentCells_iff :
    i ∈ env.independentCells d ↔ env.mustBeNegative i = false ∧ i ≠ d := by
  rw [independentCells, List.mem_filter, Bool.and_eq_true, Bool.not_eq_true', bne_iff_ne, ne_eq,
    Option.some.injEq]
  exact and_iff_right (List.mem_finRange i)

theorem mem_innerCells_iff :
    i ∈ env.innerCells base d ↔ base ≠ 2 ∧ i ∈ env.independentCells d
      ∧ env.canBePositive i = true := by
  rw [innerCells]
  split
  · rename_i h
    simp [h]
  · rename_i h
    rw [List.mem_filter]
    exact (and_iff_right h).symm

theorem mem_outerCells_iff :
    i ∈ env.outerCells base d ↔ i ∈ env.independentCells d
      ∧ (base = 2 ∨ env.canBePositive i = false) := by
  rw [outerCells]
  split
  · rename_i h
    exact (and_iff_left (.inl h)).symm
  · rename_i h
    rw [List.mem_filter, Bool.not_eq_true', or_iff_right h]

theorem nodup_independentCells (env : Environment ℝ n) (d : Fin n) :
    (env.independentCells d).Nodup :=
  (List.nodup_finRange n).filter _

theorem nodup_innerCells (env : Environment ℝ n) (base : ℕ) (d : Fin n) :
    (env.innerCells base d).Nodup := by
  rw [innerCells]
  split
  · exact List.nodup_nil
  · exact (env.nodup_independentCells d).filter _

theorem nodup_outerCells (env : Environment ℝ n) (base : ℕ) (d : Fin n) :
    (env.outerCells base d).Nodup := by
  rw [outerCells]
  split
  · exact env.nodup_independentCells d
  · exact (env.nodup_independentCells d).filter _

/-- Outer cells are not inner cells. -/
theorem notMem_innerCells_of_mem_outerCells (hi : i ∈ env.outerCells base d) :
    i ∉ env.innerCells base d := by
  intro hmem
  obtain ⟨hbase, -, hpos⟩ := mem_innerCells_iff.1 hmem
  rcases (mem_outerCells_iff.1 hi).2 with h | h
  · exact hbase h
  · rw [hpos] at h
    cases h

theorem ne_dependent_of_mem_independentCells (hi : i ∈ env.independentCells d) :
    some d ≠ some i :=
  fun h => (mem_independentCells_iff.1 hi).2 (Option.some.inj h).symm

/-- The cells that are neither outer, inner nor dependent are those that must be negative. -/
theorem notMem_cells_iff (hd : env.mustBeNegative d = false) (base : ℕ) :
    i ∉ env.outerCells base d ∧ i ∉ env.innerCells base d ∧ some d ≠ some i
      ↔ env.mustBeNegative i = true := by
  constructor
  · rintro ⟨hio, hii, hdi⟩
    by_contra hm
    have hind : i ∈ env.independentCells d :=
      mem_independentCells_iff.2 ⟨Bool.eq_false_of_not_eq_true hm, fun h => hdi (by rw [h])⟩
    have hbase : base ≠ 2 := fun h => hio (mem_outerCells_iff.2 ⟨hind, .inl h⟩)
    cases hp : env.canBePositive i with
    | true => exact hii (mem_innerCells_iff.2 ⟨hbase, hind, hp⟩)
    | false => exact hio (mem_outerCells_iff.2 ⟨hind, .inr hp⟩)
  · intro hm
    have hind : i ∉ env.independentCells d := by
      intro hmem
      rw [(mem_independentCells_iff.1 hmem).1] at hm
      cases hm
    refine ⟨fun hmem => hind (mem_outerCells_iff.1 hmem).1,
      fun hmem => hind (mem_innerCells_iff.1 hmem).2.1, fun hdi => ?_⟩
    rw [← Option.some.inj hdi, hd] at hm
    cases hm

/-- The pruned enumeration tests no assignment twice. -/
theorem nodup_prunedTests (env : Environment ℝ n) (base : ℕ) : (env.prunedTests base).Nodup := by
  rw [prunedTests]
  cases env.freeCells with
  | nil => exact List.nodup_singleton _
  | cons d rest =>
    exact nodup_tested (env.nodup_outerCells base d) (env.nodup_innerCells base d)
      (fun i hi => notMem_innerCells_of_mem_outerCells hi)
      (fun i hi => ne_dependent_of_mem_independentCells (mem_outerCells_iff.1 hi).1)
      (fun i hi => ne_dependent_of_mem_independentCells (mem_innerCells_iff.1 hi).2.1)

/-- **What the pruned enumeration tests.** Fixed cells are negative, outer cells are not positive,
and the dependent cell is settled. -/
theorem mem_prunedTests_iff_of_freeCells_eq (h : env.IsReciprocal) {rest : List (Fin n)}
    (hfree : env.freeCells = d :: rest) {q : Vector Charge n} :
    q ∈ env.prunedTests base
      ↔ (∀ i, env.mustBeNegative i = true → q.get i = .negative)
        ∧ (∀ i ∈ env.outerCells base d, (q.get i).InBase 2)
        ∧ q.get d = settledCharge (env.potential q d) env.parameters base := by
  have hd : env.mustBeNegative d = false :=
    mem_freeCells_iff.1 (hfree ▸ List.mem_cons_self)
  have hfixed : (∀ i, i ∉ env.outerCells base d → i ∉ env.innerCells base d → some d ≠ some i →
        q.get i = (Vector.replicate n .negative).get i)
      ↔ ∀ i, env.mustBeNegative i = true → q.get i = .negative := by
    simp only [get_replicate, ← notMem_cells_iff hd base]
    exact forall_congr' fun i => ⟨fun hq ⟨ho, hi, hdi⟩ => hq ho hi hdi, fun hq ho hi hdi =>
      hq ⟨ho, hi, hdi⟩⟩
  rw [prunedTests, hfree]
  dsimp only
  rw [mem_tested_iff (fun i hi => notMem_innerCells_of_mem_outerCells hi)
    (fun i hi => ne_dependent_of_mem_independentCells (mem_outerCells_iff.1 hi).1) h,
    hfixed, settle_some_eq_self_iff h]
  exact and_left_comm

/-- The dependent cell: the first that is not negative in every stable assignment. -/
structure IsDependent (env : Environment ℝ n) (d : Fin n) : Prop where
  free : env.mustBeNegative d = false
  first : ∀ i < d, env.mustBeNegative i = true

/-- The dependent cell comes first among the free cells. -/
theorem isDependent_of_freeCells_eq {rest : List (Fin n)} (hfree : env.freeCells = d :: rest) :
    env.IsDependent d := by
  obtain ⟨l₁, l₂, hsplit, hbefore, hd, -⟩ := List.filter_eq_cons_iff.1 hfree
  refine ⟨by simpa using hd, fun i hi => ?_⟩
  have hmem : i ∈ l₁ ++ d :: l₂ := hsplit ▸ List.mem_finRange i
  have hsorted : (l₁ ++ d :: l₂).Pairwise (· < ·) := hsplit ▸ List.pairwise_lt_finRange n
  rcases List.mem_append.1 hmem with h₁ | h₂
  · simpa using hbefore i h₁
  · have hle : d ≤ i := by
      rcases List.mem_cons.1 h₂ with rfl | h₂
      · exact le_rfl
      · exact ((List.pairwise_cons.1 (List.pairwise_append.1 hsorted).2.1).1 i h₂).le
    exact absurd hi (not_lt.2 hle)

/-- There is one dependent cell. -/
theorem IsDependent.unique {d' : Fin n} (h : env.IsDependent d) (h' : env.IsDependent d') :
    d = d' := by
  rcases lt_trichotomy d d' with hlt | heq | hgt
  · have hd := h'.first d hlt
    rw [h.free] at hd
    cases hd
  · exact heq
  · have hd := h.first d' hgt
    rw [h'.free] at hd
    cases hd

/-- With a dependent cell not every cell must be negative. -/
theorem IsDependent.not_forall (h : env.IsDependent d) : ¬ ∀ i, env.mustBeNegative i = true := by
  intro hall
  have hfree := h.free
  rw [hall d] at hfree
  cases hfree

/-- Without free cells every cell must be negative. -/
theorem freeCells_eq_nil_iff : env.freeCells = [] ↔ ∀ i, env.mustBeNegative i = true := by
  rw [freeCells, List.filter_eq_nil_iff]
  simp

/-- **Pruning loses only unsettled assignments.** Where cells repel each other, a stable assignment
is tested when it is one of the base and its dependent cell, if there is one, is settled. -/
theorem mem_prunedTests_iff (h : env.IsReciprocal) (hpair : ∀ i j, 0 ≤ env.between i j)
    (hbase : base = 2 ∨ base = 3) {q : Vector Charge n} (hq : env.IsStable q) :
    q ∈ env.prunedTests base
      ↔ (∀ i, (q.get i).InBase base)
        ∧ ∀ d, env.IsDependent d →
          q.get d = settledCharge (env.potential q d) env.parameters base := by
  have hfixed : ∀ i, env.mustBeNegative i = true → q.get i = .negative :=
    fun i hi => eq_negative_of_mustBeNegative hpair hi (hq.population i)
  -- without free cells the only test is the negative assignment
  cases hfree : env.freeCells with
  | nil =>
    have hall := freeCells_eq_nil_iff.1 hfree
    have hneg := eq_replicate_negative_of_isStable hpair hall hq
    rw [prunedTests, hfree]
    constructor
    · intro _
      rw [hneg]
      exact ⟨inBase_replicate_negative hbase, fun d hd => absurd hall hd.not_forall⟩
    · intro _
      exact List.mem_singleton.2 hneg
  | cons d rest =>
    have hd := isDependent_of_freeCells_eq hfree
    rw [mem_prunedTests_iff_of_freeCells_eq h hfree]
    constructor
    · rintro ⟨-, hout, hsettled⟩
      refine ⟨fun i => ?_, fun d' hd' => hd.unique hd' ▸ hsettled⟩
      cases hm : env.mustBeNegative i with
      | true =>
        rw [hfixed i hm]
        exact Charge.negative_inBase hbase
      | false =>
        by_cases hid : i = d
        · rw [hid, hsettled]
          exact settledCharge_inBase hbase
        · rcases hbase with hb | hb
          · have hind := mem_independentCells_iff.2 ⟨hm, hid⟩
            rw [hb]
            exact hout i (mem_outerCells_iff.2 ⟨hind, .inl hb⟩)
          · rw [hb]
            exact Charge.inBase_three _
    · rintro ⟨hin, hsettled⟩
      refine ⟨hfixed, fun i hi => ?_, hsettled d hd⟩
      rcases (mem_outerCells_iff.1 hi).2 with hb | hpos
      · exact hb ▸ hin i
      · exact Charge.inBase_two_iff.2
          (ne_positive_of_canBePositive_eq_false hpair hpos (hq.population i))

end Pruned

end Environment

end DanglingBonds
