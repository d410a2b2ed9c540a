/-
# Charge indices and assignments

A surface reads the charges of its independent cells as the digits of a number, the first cell most
significant, and assigns the digits of a number to them from the last cell on. On every surface that
operations lead to the two are inverse to each other, as long as all numbers fit into 64 bits. The
statements hold for all scalars, rounded ones included.

* `Surface.IsReachable` : the surfaces that operations lead to.
* `SharesGroups` : what assigning charges leaves as it is.
* `charges_assignDigits`, `chargeIndex_eq_readDigits` : both directions as digits of the charges.
* `chargeIndex_assignIndex`, `get_charges_assignIndex_chargeIndex` : the round trips.
* `get_charges_settleDependent` : the dependent cell has the charge that its potential settles on.
* `chargeIndex_assignIndex_inverse` : all of it, for every reachable surface.
-/
import Mathlib
import DanglingBonds.Proofs.ChargeDigits
import DanglingBonds.Proofs.FarthestInfluence
import DanglingBonds.Proofs.SurfaceInvariant

namespace DanglingBonds

variable {α : Type} [Scalar α] {n : ℕ}

/-! ## A cell's own charge -/

/-- Adding a zero potential times a change of charge to a potential does not change the charge that
it settles on. Rounded numbers may differ in the sign of a zero, which no comparison sees. -/
def KeepsSettled (α : Type) [Scalar α] : Prop :=
  ∀ (v : α) (c c' : Charge) (p : Parameters α) (base : ℕ),
    settledCharge (v + 0 * (c.value - c'.value)) p base = settledCharge v p base

/-- It changes nothing where numbers are exact. -/
theorem keepsSettled_real : KeepsSettled ℝ := by
  intro v c c' p base
  rw [zero_mul, add_zero]

/-- A cell of a layout puts no potential on itself. -/
theorem Environment.between_ofLayout_self (l : Layout α) (p : Parameters α) (i : Fin l.size) :
    (ofLayout l p).between i i = 0 := by
  simp only [between, ofLayout, get_ofFn, if_true]

namespace Surface

/-! ## What assigning charges leaves as it is -/

/-- Two surfaces have the environment, the base and the groups of cells in common. -/
structure SharesGroups (s t : Surface α n) : Prop where
  env_eq : t.env = s.env
  base_eq : t.base = s.base
  dependent_eq : t.dependent = s.dependent
  fixed_eq : t.fixed = s.fixed
  independent_eq : t.independent = s.independent

omit [Scalar α] in
theorem SharesGroups.refl (s : Surface α n) : s.SharesGroups s :=
  ⟨rfl, rfl, rfl, rfl, rfl⟩

omit [Scalar α] in
theorem SharesGroups.trans {s t u : Surface α n} (hst : s.SharesGroups t) (htu : t.SharesGroups u) :
    s.SharesGroups u where
  env_eq := htu.env_eq.trans hst.env_eq
  base_eq := htu.base_eq.trans hst.base_eq
  dependent_eq := htu.dependent_eq.trans hst.dependent_eq
  fixed_eq := htu.fixed_eq.trans hst.fixed_eq
  independent_eq := htu.independent_eq.trans hst.independent_eq

omit [Scalar α] in
theorem SharesGroups.isGrouped {s t : Surface α n} (h : s.SharesGroups t) (hs : s.IsGrouped) :
    t.IsGrouped where
  dependent_free := by
    rw [h.dependent_eq, h.fixed_eq]
    exact hs.dependent_free
  independent_eq := by
    rw [h.dependent_eq, h.fixed_eq, h.independent_eq]
    exact hs.independent_eq

theorem assign_sharesGroups (s : Surface α n) (i : Fin n) (c : Charge) :
    s.SharesGroups (s.assign i c) := by
  rw [assign]
  dsimp only
  split
  · exact SharesGroups.refl s
  · exact ⟨rfl, rfl, rfl, rfl, rfl⟩

theorem settleDependent_sharesGroups (s : Surface α n) : s.SharesGroups s.settleDependent := by
  rw [settleDependent]
  split
  · exact SharesGroups.refl s
  · exact assign_sharesGroups s _ _

theorem assignDigits_sharesGroups (base : ℕ) (cells : List (Fin n)) (index : ℕ)
    (s : Surface α n) : s.SharesGroups (assignDigits base cells index s) := by
  induction cells generalizing index s with
  | nil => exact SharesGroups.refl s
  | cons i is ih =>
    rw [assignDigits]
    cases Charge.ofDigit? (index % base) with
    | none => exact ih _ s
    | some c => exact (assign_sharesGroups s i c).trans (ih _ _)

theorem assignIndex_sharesGroups (s : Surface α n) (index : ℕ) :
    s.SharesGroups (s.assignIndex index) :=
  (assignDigits_sharesGroups _ _ index s).trans (settleDependent_sharesGroups _)

/-! ## Reachable surfaces -/

/-- The surfaces of a layout that operations lead to. A base may be set to any number. -/
inductive IsReachable (l : Layout α) (p : Parameters α) : Surface α l.size → Prop
  | start : IsReachable l p (ofLayout l p)
  | perform {s : Surface α l.size} (h : IsReachable l p s) (op : Operation l.size) :
    IsReachable l p (s.perform op)
  | setBase {s : Surface α l.size} (h : IsReachable l p s) (base : ℕ) :
    IsReachable l p (s.setBase base)

/-- Fixing cells leaves the environment as it is. -/
theorem fixCells_env (s : Surface α n) : s.fixCells.env = s.env := by
  show ((List.finRange n).foldl
    (fun s i => if s.env.mustBeNegative i then s.fixNegative i else s) s).env = s.env
  induction List.finRange n generalizing s with
  | nil => rfl
  | cons i is ih =>
    rw [List.foldl_cons, ih]
    split
    · exact fixNegative_env s i
    · rfl

/-- No operation changes the environment. -/
theorem perform_env (s : Surface α n) (op : Operation n) : (s.perform op).env = s.env := by
  cases op with
  | assign i c => exact (assign_sharesGroups s i c).env_eq
  | settleDependent => exact (settleDependent_sharesGroups s).env_eq
  | assignIndex index => exact (assignIndex_sharesGroups s index).env_eq
  | fixCells => exact fixCells_env s
  | assignAll | setBase | setDependent | refreshPotentials | refreshEnergy => rfl

/-- Every operation keeps the groups of cells in order. -/
theorem perform_isGrouped {s : Surface α n} (hs : s.IsGrouped) (op : Operation n) :
    (s.perform op).IsGrouped := by
  cases op with
  | assign i c => exact (assign_sharesGroups s i c).isGrouped hs
  | settleDependent => exact (settleDependent_sharesGroups s).isGrouped hs
  | assignIndex index => exact (assignIndex_sharesGroups s index).isGrouped hs
  -- these two list the independent cells anew
  | setDependent | fixCells => exact refreshIndependent_isGrouped
  | assignAll | setBase | refreshPotentials | refreshEnergy =>
    exact ⟨hs.dependent_free, hs.independent_eq⟩

section Reachable

variable {l : Layout α} {p : Parameters α} {s : Surface α l.size}

theorem IsReachable.env_eq (h : s.IsReachable l p) : s.env = .ofLayout l p := by
  induction h with
  | start => rfl
  | perform _ op ih => rw [perform_env, ih]
  | setBase _ base ih => exact ih

theorem IsReachable.isGrouped (h : s.IsReachable l p) : s.IsGrouped := by
  induction h with
  | start => exact ofEnvironment_isGrouped _
  | perform _ op ih => exact perform_isGrouped ih op
  | setBase _ base ih => exact ⟨ih.dependent_free, ih.independent_eq⟩

end Reachable

/-! ## The charges that are assigned -/

theorem charges_assign (s : Surface α n) (i : Fin n) (c : Charge) :
    (s.assign i c).charges = setCell s.charges i c := by
  rw [assign]
  dsimp only
  split
  · rename_i h
    rw [← h, setCell_get_self]
  · rfl

/-- Assigning digits sets them in the charges. -/
theorem charges_assignDigits (base : ℕ) (cells : List (Fin n)) (index : ℕ) (s : Surface α n) :
    (assignDigits base cells index s).charges = setDigits base cells index s.charges := by
  induction cells generalizing index s with
  | nil => rfl
  | cons i is ih =>
    rw [assignDigits, setDigits, ih]
    cases Charge.ofDigit? (index % base) with
    | none => rfl
    | some c =>
      dsimp only
      rw [charges_assign]

/-- Settling changes the charge of the dependent cell alone. -/
theorem get_charges_settleDependent_of_ne {s : Surface α n} {i : Fin n}
    (h : s.dependent ≠ some i) : s.settleDependent.charges.get i = s.charges.get i := by
  rw [settleDependent]
  split
  · rfl
  · rename_i d hd
    rw [charges_assign]
    refine get_setCell_of_ne _ ?_ _
    rintro rfl
    exact h hd

/-- All but the dependent cell hold the digits of the index, or what they held before. -/
theorem get_charges_assignIndex {s : Surface α n} {i : Fin n} (h : s.dependent ≠ some i)
    (index : ℕ) :
    (s.assignIndex index).charges.get i
      = (setDigits s.base s.independent.reverse index s.charges).get i := by
  have hdependent : (assignDigits s.base s.independent.reverse index s).dependent ≠ some i :=
    (assignDigits_sharesGroups _ _ index s).dependent_eq ▸ h
  rw [assignIndex, get_charges_settleDependent_of_ne hdependent, charges_assignDigits]

omit [Scalar α] in
/-- The charge index reads the independent cells from the last one on. -/
theorem chargeIndex_eq_readDigits (s : Surface α n) :
    s.chargeIndex = readDigits s.base s.independent.reverse s.charges := by
  rw [chargeIndex]
  induction s.independent using List.reverseRecOn with
  | nil => rfl
  | append_singleton cells i ih =>
    rw [List.foldl_concat, ih, List.reverse_concat, readDigits]
    ring

omit [Scalar α] in
/-- The charge index depends on the charges of the independent cells alone. -/
theorem chargeIndex_congr {s t u : Surface α n} (hst : s.SharesGroups t) (hsu : s.SharesGroups u)
    (h : ∀ i ∈ s.independent, t.charges.get i = u.charges.get i) :
    t.chargeIndex = u.chargeIndex := by
  rw [chargeIndex_eq_readDigits, chargeIndex_eq_readDigits, hst.base_eq, hst.independent_eq,
    hsu.base_eq, hsu.independent_eq]
  exact readDigits_congr fun i hi => h i (List.mem_reverse.1 hi)

/-! ## The round trips -/

section RoundTrips

variable {s : Surface α n} (hs : s.IsGrouped) (hbase : s.base = 2 ∨ s.base = 3)

omit [Scalar α] in
/-- The greatest index is one below the number of assignments, if there are at most `2 ^ 64`. -/
theorem le_lastIndex_iff (hbase : s.base = 2 ∨ s.base = 3)
    (hcount : s.base ^ s.independent.length ≤ 2 ^ 64) {index : ℕ} :
    index ≤ s.lastIndex ↔ index < s.base ^ s.independent.length := by
  have hpos : 0 < s.base ^ s.independent.length := Nat.pow_pos (by omega)
  have hlast : s.lastIndex = s.base ^ s.independent.length - 1 :=
    congrArg (· - 1) (min_eq_left hcount)
  omega

include hs hbase

/-- **Reading an assigned index** gives it back. -/
theorem chargeIndex_assignIndex {index : ℕ} (hindex : index < s.base ^ s.independent.length) :
    (s.assignIndex index).chargeIndex = index := by
  have hgroups := assignIndex_sharesGroups s index
  have hnodup : s.independent.reverse.Nodup :=
    List.nodup_reverse.2 (hs.pairwise_independent.imp ne_of_lt)
  calc (s.assignIndex index).chargeIndex
      = readDigits s.base s.independent.reverse (s.assignIndex index).charges := by
        rw [chargeIndex_eq_readDigits, hgroups.base_eq, hgroups.independent_eq]
    _ = readDigits s.base s.independent.reverse
          (setDigits s.base s.independent.reverse index s.charges) := by
        -- settling the dependent cell moves none of the cells that are read
        refine readDigits_congr fun i hi => get_charges_assignIndex ?_ index
        exact (hs.mem_independent_iff.1 (List.mem_reverse.1 hi)).2
    _ = index := by
        refine readDigits_setDigits hbase hnodup ?_ s.charges
        rwa [List.length_reverse]

/-- Fixed cells keep their charges. -/
theorem get_charges_assignIndex_of_fixed {i : Fin n} (hi : s.fixed.get i = true) (index : ℕ) :
    (s.assignIndex index).charges.get i = s.charges.get i := by
  have hdependent : s.dependent ≠ some i := by
    intro hd
    rw [hs.dependent_free i hd] at hi
    cases hi
  have hmem : i ∉ s.independent.reverse := by
    rw [List.mem_reverse, hs.mem_independent_iff, hi]
    exact fun h => Bool.noConfusion h.1
  rw [get_charges_assignIndex hdependent, get_setDigits_of_notMem hbase hmem]

omit hbase in
/-- **Assigning a read index** changes no independent cell. -/
theorem get_charges_assignIndex_chargeIndex
    (hq : ∀ i ∈ s.independent, (s.charges.get i).InBase s.base) {i : Fin n}
    (hi : i ∈ s.independent) :
    (s.assignIndex s.chargeIndex).charges.get i = s.charges.get i := by
  rw [get_charges_assignIndex (hs.mem_independent_iff.1 hi).2, chargeIndex_eq_readDigits,
    setDigits_readDigits fun j hj => hq j (List.mem_reverse.1 hj)]

omit [Scalar α] hs hbase in
/-- Charges of the base are below the number of assignments. -/
theorem chargeIndex_lt (hq : ∀ i ∈ s.independent, (s.charges.get i).InBase s.base) :
    s.chargeIndex < s.base ^ s.independent.length := by
  rw [chargeIndex_eq_readDigits, ← List.length_reverse]
  exact readDigits_lt fun i hi => hq i (List.mem_reverse.1 hi)

end RoundTrips

/-! ## The dependent cell -/

/-- **The dependent cell.** Once settled it has the charge that its potential then settles on, as no
cell acts on itself. -/
theorem get_charges_settleDependent (hα : KeepsSettled α) {s : Surface α n} {d : Fin n}
    (hd : s.dependent = some d) (hself : s.env.between d d = 0) :
    let t := s.settleDependent
    t.charges.get d = settledCharge (t.potentials.get d) t.env.parameters t.base := by
  intro t
  set c := settledCharge (s.potentials.get d) s.env.parameters s.base with hc
  have ht : t = s.assign d c := by
    show s.settleDependent = _
    rw [settleDependent, hd]
  have hgroups := assign_sharesGroups s d c
  rw [ht, charges_assign, get_setCell_self, hgroups.env_eq, hgroups.base_eq, hc, assign]
  dsimp only
  split
  · rfl
  · rw [get_zipWith]
    have hpair : (s.env.pair.get d).get d = 0 := hself
    rw [hpair]
    exact (hα _ _ _ _ _).symm

/-! ## Every reachable surface -/

/-- **Charge indices and assignments.** On every surface of a layout that operations lead to, in
base 2 or 3 and with at most `2 ^ 64` assignments of its `k` independent cells: assigning an index
up to the greatest one and reading the charge index gives the index back, fixed cells stay as they
are, and a dependent cell has the charge that its potential settles on. Assigning the charge index
of independent cells with charges of the base leaves their charges as they are. Different indices
give different charges to some independent cell. -/
theorem chargeIndex_assignIndex_inverse {l : Layout α} {p : Parameters α} {s : Surface α l.size}
    (hs : s.IsReachable l p) (hbase : s.base = 2 ∨ s.base = 3)
    (hcount : s.base ^ s.independent.length ≤ 2 ^ 64) :
    (∀ index ≤ s.lastIndex,
      let t := s.assignIndex index
      t.chargeIndex = index ∧
        (∀ i, s.fixed.get i = true → t.fixed.get i = true ∧ t.charges.get i = s.charges.get i) ∧
        t.dependent = s.dependent ∧
        (KeepsSettled α → ∀ d, t.dependent = some d →
          t.charges.get d = settledCharge (t.potentials.get d) p t.base)) ∧
      ((∀ i ∈ s.independent, (s.charges.get i).InBase s.base) →
        s.chargeIndex ≤ s.lastIndex ∧
          ∀ i ∈ s.independent,
            (s.assignIndex s.chargeIndex).charges.get i = s.charges.get i) ∧
      ∀ index ≤ s.lastIndex, ∀ index' ≤ s.lastIndex, index ≠ index' →
        ∃ i ∈ s.independent,
          (s.assignIndex index).charges.get i ≠ (s.assignIndex index').charges.get i := by
  have hgrouped := hs.isGrouped
  have hlast : ∀ {index : ℕ}, index ≤ s.lastIndex ↔ index < s.base ^ s.independent.length :=
    le_lastIndex_iff hbase hcount
  refine ⟨fun index hindex => ?_, fun hq => ⟨hlast.2 (chargeIndex_lt hq), fun i hi => ?_⟩,
    fun index hindex index' hindex' hne => ?_⟩
  · intro t
    have hgroups : s.SharesGroups t := assignIndex_sharesGroups s index
    refine ⟨chargeIndex_assignIndex hgrouped hbase (hlast.1 hindex), fun i hi => ⟨?_, ?_⟩,
      hgroups.dependent_eq, fun hα d hd => ?_⟩
    · rw [hgroups.fixed_eq, hi]
    · exact get_charges_assignIndex_of_fixed hgrouped hbase hi index
    · -- the digits are assigned first, then the dependent cell is settled
      have hdigits := assignDigits_sharesGroups s.base s.independent.reverse index s
      have hself : s.env.between d d = 0 := by
        rw [hs.env_eq]
        exact Environment.between_ofLayout_self l p d
      have hparameters : t.env.parameters = p := by
        rw [hgroups.env_eq, hs.env_eq]
        rfl
      rw [← hparameters]
      refine get_charges_settleDependent hα ?_ ?_
      · rw [hdigits.dependent_eq, ← hgroups.dependent_eq, hd]
      · rw [hdigits.env_eq, hself]
  · exact get_charges_assignIndex_chargeIndex hgrouped hq hi
  · by_contra hsame
    push Not at hsame
    apply hne
    calc index
        = (s.assignIndex index).chargeIndex :=
          (chargeIndex_assignIndex hgrouped hbase (hlast.1 hindex)).symm
      _ = (s.assignIndex index').chargeIndex :=
          chargeIndex_congr (assignIndex_sharesGroups s index) (assignIndex_sharesGroups s index')
            hsame
      _ = index' := chargeIndex_assignIndex hgrouped hbase (hlast.1 hindex')

/-- Of two cells, the second one is independent when the first one is made dependent. -/
theorem chargeIndex_assignIndex_inverse_twinCells :
    let p := chargelessScan.parameters
    let d : Fin twinCells.size := ⟨0, Nat.two_pos⟩
    let s := (Surface.ofLayout twinCells p).setDependent (some d)
    s.base = 2 ∧ s.dependent = some d ∧ s.independent.length = 1 ∧
      (s.assignIndex 1).chargeIndex = 1 ∧
      (s.assignIndex 1).charges.get d
        = settledCharge ((s.assignIndex 1).potentials.get d) p (s.assignIndex 1).base := by
  intro p d s
  have hdependent : s.dependent = some d := rfl
  have hlength : s.independent.length = 1 := rfl
  have hreachable : s.IsReachable twinCells p := .perform .start (.setDependent (some d))
  have hcount : s.base ^ s.independent.length ≤ 2 ^ 64 := by
    rw [hlength]
    show 2 ^ 1 ≤ 2 ^ 64
    norm_num
  obtain ⟨hassign, -⟩ := chargeIndex_assignIndex_inverse hreachable (.inl rfl) hcount
  have hlast : 1 ≤ s.lastIndex := (le_lastIndex_iff (.inl rfl) hcount).2 <| by
    rw [hlength]
    show 1 < 2 ^ 1
    norm_num
  obtain ⟨hindex, -, hkept, hsettled⟩ := hassign 1 hlast
  exact ⟨rfl, hdependent, hlength, hindex, hsettled keepsSettled_real d (hkept.trans hdependent)⟩

end Surface

end DanglingBonds
