/-
# The exhaustive enumeration is complete and ordered

One surface is carried through all charge indices. Nothing is left on it from one index to the next:
every assignment of the base is tested as if it were the first, and what passes is returned once, in
the order of the assignments.

* `enumerateAll_complete` : which assignments are returned, how often and in which order.
* `enumerateAll_twinCells` : two cells for which two of nine assignments pass.
-/
import Mathlib
import DanglingBonds.Proofs.AssignmentOrder
import DanglingBonds.Proofs.Exactness

namespace DanglingBonds

variable {n : ℕ}

/-- What is returned is ordered like what is tested. -/
theorem pairwise_charges_recorded {s : Surface ℝ n} {tested : List (Vector Charge n)}
    (h : tested.Pairwise LexBefore) : ((recorded s tested).map (·.charges)).Pairwise LexBefore := by
  rw [charges_recorded]
  exact h.filter _

/-- **The exhaustive enumeration** of a layout with cells returns every assignment of the base that
is valid with the potentials of its own charges, and no other; each of them once, in strictly
ascending order, the first cell most significant; and each as the surface computed anew from its
charges. -/
theorem enumerateAll_complete {l : Layout ℝ} {p : Parameters ℝ} (hp : p.check = .ok ())
    (hl : l.checkDefects = .ok ()) (hcells : l.isEmpty = false)
    (hfits : p.base ^ l.size ≤ 2 ^ 64) :
    let env := Environment.ofLayout l p
    let surface := (Surface.ofLayout l p).withCharges
    ∃ r, l.enumerateAll p = .ok r ∧
      (∀ q, q ∈ r.charges ↔ (∀ i, (q.get i).InBase p.base) ∧ (surface q).isValid = true) ∧
      r.charges.Nodup ∧ r.charges.Pairwise LexBefore ∧
      (∀ s ∈ r.distributions, s = surface s.charges) ∧
      ∀ q i, (surface q).charges = q ∧ (surface q).potentials.get i
        = env.external.get i + ∑ j, env.between i j * (q.get j).value := by
  intro env surface
  have hbase : p.base = 2 ∨ p.base = 3 := (Parameters.check_eq_ok_iff.1 hp).1
  refine ⟨_, enumerateAll_eq_ok hp hl hcells hfits, fun q => ?_,
    nodup_charges_recorded (Environment.nodup_exhaustiveTests hbase),
    pairwise_charges_recorded (Environment.pairwise_exhaustiveTests hbase),
    fun s hs => eq_withCharges_of_mem_recorded hs,
    fun q i => ⟨rfl, Surface.get_potentials_withCharges _ q i⟩⟩
  rw [Simulation.charges, charges_recorded, List.mem_filter,
    Environment.mem_exhaustiveTests_iff hbase]

/-- One electron on a cell comes before one on a later cell. -/
theorem pairwise_map_electronOn (n : ℕ) :
    ((List.finRange n).map electronOn).Pairwise LexBefore := by
  refine List.pairwise_map.2 ((List.pairwise_lt_finRange n).imp fun {i j} hij => ⟨i, ?_, ?_⟩)
  · intro k hk
    rw [get_electronOn, get_electronOn, if_neg hk.ne, if_neg (hk.trans hij).ne]
  · rw [get_electronOn, get_electronOn, if_pos rfl, if_neg hij.ne]
    decide

/-- Of two cells that share one electron, it is returned first on the first. -/
theorem enumerateAll_twinCells :
    let p := twinParameters 3
    p.check = .ok () ∧ twinCells.checkDefects = .ok () ∧ twinCells.isEmpty = false ∧
      p.base ^ twinCells.size ≤ 2 ^ 64 ∧
      ∃ r, twinCells.enumerateAll p = .ok r ∧
        r.charges = (List.finRange twinCells.size).map electronOn := by
  intro p
  have hp : p.check = .ok () := check_twinParameters (.inr rfl)
  have hfits : p.base ^ twinCells.size ≤ 2 ^ 64 := pow_size_twinCells_le (.inr rfl)
  obtain ⟨r, hr, hmem, -, hordered, -⟩ := enumerateAll_complete (l := twinCells) hp rfl rfl hfits
  refine ⟨hp, rfl, rfl, hfits, r, hr, ?_⟩
  refine List.Pairwise.eq_of_mem_iff hordered (pairwise_map_electronOn _) fun q => ?_
  rw [hmem, Surface.isValid_withCharges_iff, mem_map_electronOn_iff,
    ← (twinCells_sharesElectron 3).isStable_iff]
  exact and_iff_right fun i => Charge.inBase_three _

end DanglingBonds
