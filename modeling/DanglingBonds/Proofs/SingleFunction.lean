/-
# A gate implements one function

For each input combination a gate check looks at one ground state, whatever the truth tables say,
and each output pair carries one bit there. The tables of a gate that works are therefore read off
its ground states, and no other tables are.

* `Layout.groundCharge` : the charges that the check of an input combination looks at.
* `isRight_of_checkInput` : outputs that have passed the check are right in them.
* `TruthTable.eq_of_bit?_eq` : a truth table is determined by its values.
* `tables_eq_of_operational` : a gate that works for two lists of truth tables works for one.
-/
import Mathlib
import DanglingBonds.Proofs.HeldCells

namespace DanglingBonds

/-- Truth tables of as many inputs with the same values are equal. -/
theorem TruthTable.eq_of_bit?_eq {t t' : TruthTable} {k : ℕ} (ht : t.vars = k) (ht' : t'.vars = k)
    (h : ∀ i < 2 ^ k, t.bit? i = t'.bit? i) : t = t' := by
  subst ht
  rcases t with ⟨vars, bits, hbits⟩
  rcases t' with ⟨vars', bits', hbits'⟩
  obtain rfl : vars' = vars := ht'
  have hequal : bits = bits' := by
    refine List.ext_getElem? fun i => ?_
    by_cases hi : i < 2 ^ vars'
    · exact h i hi
    · have hlength : bits.length ≤ i := hbits ▸ not_lt.1 hi
      have hlength' : bits'.length ≤ i := hbits' ▸ not_lt.1 hi
      rw [List.getElem?_eq_none hlength, List.getElem?_eq_none hlength']
  rw [TruthTable.mk.injEq]
  exact ⟨rfl, hequal⟩

variable {α : Type} [Scalar α]

/-! ## One input combination -/

/-- The charges of the ground state of a layout, if it has one. -/
def Layout.groundCharge (l : Layout α) (o : GateOptions α) (site : Site) : Option Charge :=
  match l.simulate o.engine o.parameters with
  | .error _ => none
  | .ok r => r.groundState?.bind fun ground => ground.chargeAt? site

section Inputs

variable {l : Layout α} {o : GateOptions α} {index : ℕ} {outputs : List (Pair × TruthTable)}

/-- What a simulation in which nothing is wrong says about the outputs. -/
theorem exists_ground_of_failure?_eq_none {n : ℕ} {r : Simulation α n}
    (h : r.failure? index outputs = none) :
    ∃ ground, r.groundState? = some ground ∧
      firstBadOutput ground.chargeAt? index 0 outputs = none := by
  rw [Simulation.failure?] at h
  cases hground : r.groundState? with
  | none =>
    rw [hground] at h
    cases h
  | some ground =>
    rw [hground] at h
    dsimp only at h
    split at h
    · cases h
    · exact ⟨ground, rfl, h⟩

/-- **Outputs that have passed the check** are right in the ground state of the layout. -/
theorem isRight_of_checkInput (hbits : ∀ e ∈ outputs, (e.2.bit? index).isSome = true)
    {v : InputVerdict} (h : l.checkInput index outputs o = .ok v) (hv : v.failure = none) :
    ∀ e ∈ outputs, IsRight (l.groundCharge o) index e := by
  rw [Layout.checkInput] at h
  split at h
  · cases h
    cases hv
  · obtain ⟨r, hr, rfl⟩ := map_eq_ok_iff.1 h
    obtain ⟨ground, hground, hnone⟩ := exists_ground_of_failure?_eq_none hv
    have hcharge : l.groundCharge o = ground.chargeAt? := by
      funext site
      rw [Layout.groundCharge, hr]
      dsimp only
      rw [hground, Option.bind_some]
    rw [hcharge]
    exact isRight_of_firstBadOutput_eq_none hbits hnone

end Inputs

/-! ## The gate -/

variable {l : Layout α} {tables tables' : List TruthTable} {o : GateOptions α}
  {a a' : Assessment}

/-- In a gate that works, every output is right under every input combination. -/
theorem isRight_of_operational (h : l.assess tables o = .ok a) (hstatus : a.status = .operational)
    {i : ℕ} (hi : i < 2 ^ (l.pairs (some .input) o.window).length) :
    ∀ e ∈ (l.pairs (some .output) o.window).zip tables,
      IsRight (((InputTerminals.ofLayout l o.window).layoutFor i).groundCharge o) i e := by
  obtain ⟨-, -, -, hvars⟩ := accepted_of_assess h
  obtain ⟨v, hv, hnone⟩ := exists_check_of_assess h hi (Assessment.passes_of_operational hstatus i)
  exact isRight_of_checkInput (isSome_bit?_of_mem_outputs hvars hi) hv hnone

/-- **A gate implements one function.** If a gate works for two lists of truth tables, under the
same parameters and by the same engine, the lists are equal. -/
theorem tables_eq_of_operational (h : l.assess tables o = .ok a) (hstatus : a.status = .operational)
    (h' : l.assess tables' o = .ok a') (hstatus' : a'.status = .operational) :
    tables = tables' := by
  obtain ⟨-, hcount, -, hvars⟩ := accepted_of_assess h
  obtain ⟨-, hcount', -, hvars'⟩ := accepted_of_assess h'
  refine List.ext_getElem (hcount.trans hcount'.symm) fun j hj hj' => ?_
  refine TruthTable.eq_of_bit?_eq (hvars _ (List.getElem_mem hj)) (hvars' _ (List.getElem_mem hj'))
    fun i hi => ?_
  -- output `j` is right for both tables, so its pair carries the bit of either
  have hpair : j < (l.pairs (some .output) o.window).length := hcount ▸ hj
  have hmem : ∀ {ts : List TruthTable} (hts : j < ts.length),
      ((l.pairs (some .output) o.window)[j], ts[j])
        ∈ (l.pairs (some .output) o.window).zip ts := by
    intro ts hts
    have hzip : j < ((l.pairs (some .output) o.window).zip ts).length := by
      rw [List.length_zip]
      exact lt_min hpair hts
    rw [← List.getElem_zip (h := hzip)]
    exact List.getElem_mem hzip
  exact (isRight_of_operational h hstatus hi _ (hmem hj)).bit?_eq
    (isRight_of_operational h' hstatus' hi _ (hmem hj'))

/-- The wire whose output is held at zero works for the table of zeros, in whatever way that is
written, and for no other tables. -/
theorem tables_eq_of_operational_heldWire :
    heldWire.assess [⟨1, [false, false], rfl⟩] weakGate = .ok ⟨none, 2⟩ ∧
      heldWire.assess [.ofFunction 1 fun _ => false] weakGate = .ok ⟨none, 2⟩ ∧
      Assessment.status ⟨none, 2⟩ = .operational ∧
      ([⟨1, [false, false], rfl⟩] : List TruthTable) = [.ofFunction 1 fun _ => false] ∧
      ∀ tables a, heldWire.assess tables weakGate = .ok a → a.status = .operational →
        tables = [⟨1, [false, false], rfl⟩] := by
  have hzeros := assess_heldWire
  have hfunction : heldWire.assess [.ofFunction 1 fun _ => false] weakGate = .ok ⟨none, 2⟩ :=
    assess_heldWire
  exact ⟨hzeros, hfunction, rfl, tables_eq_of_operational hzeros rfl hfunction rfl,
    fun tables a h hstatus => tables_eq_of_operational h hstatus hzeros rfl⟩

end DanglingBonds
