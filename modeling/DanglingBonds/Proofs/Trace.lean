/-
# What an enumeration records

An enumeration passes through assignments and records those that are stable. Its loops carry one
surface along; seen through the charges, each loop runs over a list of assignments that is known
beforehand.

* `recorded` : the surfaces recorded from a list of assignments.
* `testIndices_withCharges`, `countThrough_withCharges` : counting through digits.
* `walkAll_withCharges` : the Gray walk with a count at each step.
-/
import Mathlib
import DanglingBonds.Proofs.GrayWalk
import DanglingBonds.Proofs.Stability

namespace DanglingBonds

variable {α : Type} [Scalar α] {n : ℕ}

/-! ## Recording -/

/-- The surfaces recorded from a list of assignments, in order. -/
noncomputable def recorded (s : Surface ℝ n) (tested : List (Vector Charge n)) :
    List (Surface ℝ n) :=
  (tested.filter fun q => (s.withCharges q).isValid).map s.withCharges

theorem recorded_append (s : Surface ℝ n) (tested tested' : List (Vector Charge n)) :
    recorded s (tested ++ tested') = recorded s tested ++ recorded s tested' := by
  rw [recorded, List.filter_append, List.map_append]
  rfl

/-- Adding a surface records its charges. -/
theorem record_withCharges (s : Surface ℝ n) (found : List (Surface ℝ n)) (q : Vector Charge n) :
    record found (s.withCharges q) = (recorded s [q]).reverse ++ found := by
  rw [record, recorded, List.filter_singleton, Surface.refreshEnergy_withCharges]
  cases (s.withCharges q).isValid <;> rfl

/-- Of one assignment at most one surface is recorded. -/
theorem reverse_recorded_singleton (s : Surface ℝ n) (q : Vector Charge n) :
    (recorded s [q]).reverse = recorded s [q] := by
  rw [recorded, List.filter_singleton]
  cases (s.withCharges q).isValid <;> rfl

/-- One more assignment in front of a list. -/
theorem recorded_cons_reverse_append (s : Surface ℝ n) (q : Vector Charge n)
    (tested : List (Vector Charge n)) (found : List (Surface ℝ n)) :
    (recorded s tested).reverse ++ record found (s.withCharges q)
      = (recorded s (q :: tested)).reverse ++ found := by
  rw [record_withCharges, ← List.append_assoc, ← List.reverse_append, ← recorded_append]
  rfl

/-- The recorded charges are the stable ones among those tested. -/
theorem charges_recorded (s : Surface ℝ n) (tested : List (Vector Charge n)) :
    (recorded s tested).map (·.charges)
      = tested.filter fun q => (s.withCharges q).isValid := by
  rw [recorded, List.map_map]
  exact List.map_id' _

theorem mem_charges_recorded {s : Surface ℝ n} {tested : List (Vector Charge n)}
    {q : Vector Charge n} :
    q ∈ (recorded s tested).map (·.charges) ↔ q ∈ tested ∧ s.env.IsStable q := by
  rw [charges_recorded, List.mem_filter, Surface.isValid_withCharges_iff]

theorem nodup_charges_recorded {s : Surface ℝ n} {tested : List (Vector Charge n)}
    (h : tested.Nodup) : ((recorded s tested).map (·.charges)).Nodup := by
  rw [charges_recorded]
  exact h.filter _

/-- A recorded surface is a surface of its charges. -/
theorem eq_withCharges_of_mem_recorded {s s' : Surface ℝ n} {tested : List (Vector Charge n)}
    (h : s' ∈ recorded s tested) : s' = s.withCharges s'.charges := by
  obtain ⟨q, -, rfl⟩ := List.mem_map.1 h
  rfl

/-! ## Every charge index -/

/-- Testing charge indices one after the other records from the assignments of their digits. -/
theorem testIndices_withCharges {s : Surface ℝ n} (h : s.env.IsReciprocal)
    (hbase : s.base = 2 ∨ s.base = 3) (hdep : s.dependent = none)
    (hall : ∀ i, i ∈ s.independent) (q : Vector Charge n) (found : List (Surface ℝ n))
    (index count : ℕ) :
    testIndices (s.withCharges q) found index count
      = (recorded s ((List.range' index count).map fun x =>
          setDigits s.base s.independent.reverse x q)).reverse ++ found := by
  induction count generalizing q found index with
  | zero => rfl
  | succ count ih =>
    set q' := setDigits s.base s.independent.reverse index q with hq'
    have hstep : (s.withCharges q).assignIndex index = s.withCharges q' := by
      rw [Surface.assignIndex_withCharges h, hdep, Environment.settle_none]
    -- every index sets all cells, so it does not matter what the index before left there
    have hlater : ∀ x, setDigits s.base s.independent.reverse x q'
        = setDigits s.base s.independent.reverse x q := by
      intro x
      apply setDigits_congr hbase
      intro j hj
      exact absurd (List.mem_reverse.2 (hall j)) hj
    rw [testIndices, hstep, ih]
    simp only [hlater]
    rw [recorded_cons_reverse_append, List.range'_succ, List.map_cons]

/-! ## Counting at one place of the walk -/

/-- What is settled after setting digits depends only on the other cells. -/
theorem settle_setDigits_congr {env : Environment ℝ n} (h : env.IsReciprocal) {b : ℕ}
    (hb : b = 2 ∨ b = 3) {cells : List (Fin n)} {dependent : Option (Fin n)}
    {q q' : Vector Charge n}
    (hq : ∀ i, i ∉ cells → dependent ≠ some i → q.get i = q'.get i) (base index : ℕ) :
    env.settle base dependent (setDigits b cells index q)
      = env.settle base dependent (setDigits b cells index q') :=
  env.settle_congr h (fun i hi => get_setDigits_congr hb (fun hmem => hq i hmem hi) index) base

/-- Counting through cells records from the settled assignments of the digits, and touches no cell
but these and the dependent one. -/
theorem countThrough_withCharges {s : Surface ℝ n} (h : s.env.IsReciprocal)
    (cells : List (Fin n)) (q : Vector Charge n) (found : List (Surface ℝ n))
    (index count : ℕ) :
    ∃ q' : Vector Charge n,
      (∀ i, i ∉ cells → s.dependent ≠ some i → q'.get i = q.get i) ∧
      countThrough cells (s.withCharges q) found index count
        = (s.withCharges q', (recorded s ((List.range' index count).map fun x =>
            s.env.settle s.base s.dependent (setDigits 3 cells x q))).reverse ++ found) := by
  induction count generalizing q found index with
  | zero => exact ⟨q, fun _ _ _ => rfl, rfl⟩
  | succ count ih =>
    set q₁ := s.env.settle s.base s.dependent (setDigits 3 cells index q) with hq₁
    have hstep : settleAndRecord (Surface.assignDigits 3 cells index (s.withCharges q)) found
        = (s.withCharges q₁, record found (s.withCharges q₁)) := by
      rw [Surface.assignDigits_withCharges h, settleAndRecord,
        Surface.settleDependent_withCharges h]
    have hsame : ∀ i, i ∉ cells → s.dependent ≠ some i → q₁.get i = q.get i := by
      intro i hi hdep
      rw [hq₁, Environment.get_settle_of_ne hdep, get_setDigits_of_notMem (.inr rfl) hi]
    -- the next number starts from `q₁`, which agrees with `q` where digits are not set
    obtain ⟨q', hq', heq⟩ := ih q₁ (record found (s.withCharges q₁)) (index + 1)
    refine ⟨q', fun i hi hdep => (hq' i hi hdep).trans (hsame i hi hdep), ?_⟩
    rw [countThrough, hstep]
    dsimp only
    rw [heq, recorded_cons_reverse_append, List.range'_succ, List.map_cons]
    simp only [settle_setDigits_congr h (.inr rfl) hsame]
    rfl

/-! ## The walk -/

/-- A walk that is over has found what it has found. -/
theorem walk_of_none {visit : Surface α n → List (Surface α n) → Surface α n × List (Surface α n)}
    {g : GrayCode} (h : g.step? = none) (cells : Array (Fin n)) (s : Surface α n)
    (found : List (Surface α n)) : walk visit cells g s found = found := by
  unfold walk
  split
  · rfl
  · rename_i heq
    rw [h] at heq
    cases heq

/-- One step of a walk flips a cell and visits. -/
theorem walk_of_some {visit : Surface α n → List (Surface α n) → Surface α n × List (Surface α n)}
    {g g' : GrayCode} {bit : ℕ} (h : g.step? = some (bit, g')) (cells : Array (Fin n))
    (s : Surface α n) (found : List (Surface α n)) :
    walk visit cells g s found
      = walk visit cells g' (visit (s.flip cells bit) found).1
          (visit (s.flip cells bit) found).2 := by
  rw [walk]
  split
  · rename_i heq
    rw [h] at heq
    cases heq
  · rename_i heq
    rw [h] at heq
    cases heq
    rfl

/-- Flipping a bit toggles its cell. -/
theorem flip_withCharges {s : Surface ℝ n} (h : s.env.IsReciprocal) {outer : List (Fin n)}
    {b : ℕ} (hb : b < outer.reverse.length) (q : Vector Charge n) :
    (s.withCharges q).flip outer.toArray b
      = s.withCharges (setCell q outer.reverse[b]
          (if q.get outer.reverse[b] = .negative then .neutral else .negative)) := by
  have hcell : outer.toArray[outer.toArray.size - 1 - b]? = some outer.reverse[b] := by
    rw [List.getElem?_toArray, List.size_toArray, List.getElem_reverse]
    exact List.getElem?_eq_getElem _
  rw [Surface.flip, hcell]
  exact Surface.toggle_withCharges h q _

/-- The assignments tested at one place of the walk: `word` on the outer cells, and every number in
base 3 on the inner ones. -/
noncomputable def Environment.testedAt (env : Environment ℝ n) (base : ℕ)
    (dependent : Option (Fin n)) (outer inner : List (Fin n)) (q : Vector Charge n) (word : ℕ) :
    List (Vector Charge n) :=
  (List.range (3 ^ inner.length)).map fun x =>
    env.settle base dependent (setDigits 3 inner.reverse x (setDigits 2 outer.reverse word q))

/-- The assignments that a walk tests, in order. -/
noncomputable def Environment.tested (env : Environment ℝ n) (base : ℕ)
    (dependent : Option (Fin n)) (outer inner : List (Fin n)) (q : Vector Charge n) :
    List (Vector Charge n) :=
  (List.range (2 ^ outer.length)).flatMap fun c =>
    env.testedAt base dependent outer inner q (GrayCode.word c)

section Walk

variable {s : Surface ℝ n} (h : s.env.IsReciprocal) {outer inner : List (Fin n)}
  (houter : outer.Nodup) (hdisj : ∀ i ∈ outer, i ∉ inner)
  (hdep : ∀ i ∈ outer, s.dependent ≠ some i)

include h

/-- A visit records what is tested at its place, whatever inner and dependent cells held before. -/
theorem visit_withCharges {word : ℕ} {q q₀ : Vector Charge n}
    (hq : ∀ i, i ∉ inner → s.dependent ≠ some i →
      q.get i = (setDigits 2 outer.reverse word q₀).get i) (found : List (Surface ℝ n)) :
    ∃ q' : Vector Charge n,
      (∀ i, i ∉ inner → s.dependent ≠ some i →
        q'.get i = (setDigits 2 outer.reverse word q₀).get i) ∧
      countThrough inner.reverse (s.withCharges q) found 0 (3 ^ inner.length)
        = (s.withCharges q', (recorded s
            (s.env.testedAt s.base s.dependent outer inner q₀ word)).reverse ++ found) := by
  obtain ⟨q', hq', heq⟩ :=
    countThrough_withCharges h inner.reverse q found 0 (3 ^ inner.length)
  have hq₁ : ∀ i, i ∉ inner.reverse → s.dependent ≠ some i →
      q.get i = (setDigits 2 outer.reverse word q₀).get i :=
    fun i hi => hq i fun hmem => hi (List.mem_reverse.2 hmem)
  refine ⟨q', fun i hi hd => ?_, ?_⟩
  · rw [hq' i (fun hmem => hi (List.mem_reverse.1 hmem)) hd, hq i hi hd]
  · rw [heq, ← List.range_eq_range']
    simp only [settle_setDigits_congr h (.inr rfl) hq₁]
    rfl

include houter hdisj hdep

/-- From a place where the outer cells hold its word, the rest of the walk records from the places
that follow. -/
theorem walk_withCharges (hbits : outer.length ≤ 64) (q₀ : Vector Charge n) (steps : ℕ) {c : ℕ}
    (hc : c + steps + 1 = 2 ^ outer.length) {q : Vector Charge n}
    (hq : ∀ i, i ∉ inner → s.dependent ≠ some i →
      q.get i = (setDigits 2 outer.reverse (GrayCode.word c) q₀).get i)
    (found : List (Surface ℝ n)) :
    walk (fun s found => countThrough inner.reverse s found 0 (3 ^ inner.length)) outer.toArray
        (GrayCode.place outer.length c) (s.withCharges q) found
      = (recorded s ((List.range' (c + 1) steps).flatMap fun c' =>
          s.env.testedAt s.base s.dependent outer inner q₀ (GrayCode.word c'))).reverse
        ++ found := by
  -- the surface may hold anything on the inner and the dependent cells, which a visit sets anew
  induction steps generalizing c q found with
  | zero =>
    have hlast : c = 2 ^ outer.length - 1 := by omega
    rw [walk_of_none (hlast ▸ GrayCode.step?_place_last outer.length)]
    rfl
  | succ steps ih =>
    obtain ⟨b, hb, hword, hstep⟩ := GrayCode.step?_place (c := c) hbits (by omega)
    rw [← List.length_reverse] at hb
    have hmem : outer.reverse[b] ∈ outer := List.mem_reverse.1 (List.getElem_mem hb)
    set q₁ := setCell q outer.reverse[b]
      (if q.get outer.reverse[b] = .negative then .neutral else .negative) with hq₁
    have hnext : ∀ i, i ∉ inner → s.dependent ≠ some i →
        q₁.get i = (setDigits 2 outer.reverse (GrayCode.word (c + 1)) q₀).get i := by
      intro i hi hd
      rw [hword, setDigits_xor_two_pow (List.nodup_reverse.2 houter) _ _ hb, hq₁,
        get_setCell, get_setCell, hq _ (hdisj _ hmem) (hdep _ hmem), hq i hi hd]
    obtain ⟨q', hq', hvisit⟩ := visit_withCharges h hnext found
    rw [walk_of_some hstep, flip_withCharges h hb, hvisit]
    dsimp only
    rw [ih (by omega) hq', List.range'_succ, List.flatMap_cons, recorded_append,
      List.reverse_append, List.append_assoc]

/-- **The whole walk.** Over outer cells that are negative at its start, it records from the tested
assignments. -/
theorem walkAll_withCharges (hbits : outer.length ≤ 64) {q : Vector Charge n}
    (hq : ∀ i ∈ outer, q.get i = .negative) :
    (walkAll (fun s found => countThrough inner.reverse s found 0 (3 ^ inner.length)) outer
        (s.withCharges q)).reverse
      = recorded s (s.env.tested s.base s.dependent outer inner q) := by
  have hstart : setDigits 2 outer.reverse (GrayCode.word 0) q = q :=
    setDigits_zero_of_negative Nat.two_pos fun i hi => hq i (List.mem_reverse.1 hi)
  -- the first visit is made before the first step
  have hpow : 0 < 2 ^ outer.length := Nat.two_pow_pos _
  have hplace : ∀ i, i ∉ inner → s.dependent ≠ some i →
      q.get i = (setDigits 2 outer.reverse (GrayCode.word 0) q).get i :=
    fun i _ _ => by rw [hstart]
  obtain ⟨q', hq', hvisit⟩ := visit_withCharges h hplace []
  rw [walkAll, hvisit]
  dsimp only
  rw [GrayCode.start_eq_place hbits,
    walk_withCharges h houter hdisj hdep hbits q (2 ^ outer.length - 1) (by omega) hq',
    List.append_nil, ← List.reverse_append, List.reverse_reverse, ← recorded_append,
    Environment.tested, List.range_eq_range',
    show 2 ^ outer.length = 2 ^ outer.length - 1 + 1 by omega, List.range'_succ,
    List.flatMap_cons]
  rfl

end Walk

end DanglingBonds
