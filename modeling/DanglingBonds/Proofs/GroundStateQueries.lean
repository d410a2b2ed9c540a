/-
# Ground states in agreement

The levels of a simulation are found by sorting and counting, its ground states by comparing with
the lowest level, its one ground state by a search for a minimum, and the order by energy by sorting
what was not rounded. All of them tell of the same distributions, as long as the energies compare
like numbers and the rounding is monotone.

* `Simulation.HasComparableEnergies`, `RoundsMonotonically` : what the energies have to be like.
* `groundState?_sortByEnergy` : the first distribution by energy is the ground state.
* `groundStates_agree` : what the queries have to do with each other.
-/
import Mathlib
import DanglingBonds.Proofs.ComparedEnergies
import DanglingBonds.Proofs.RoundedEnergies

namespace DanglingBonds

namespace Simulation

variable {α : Type} [Scalar α] {n : ℕ}

/-! ## Energies and their rounding -/

/-- Energies that compare like numbers, as they are and as rounded. -/
structure HasComparableEnergies (r : Simulation α n) : Prop where
  energies : IsWeakOrderOn {e | e ∈ r.energies} fun a b => a < b
  rounded : FormLevels {e | e ∈ r.roundedEnergies}

/-- Of two energies the one that is not less is not less as rounded. -/
def RoundsMonotonically (r : Simulation α n) : Prop :=
  ∀ e ∈ r.energies, ∀ e' ∈ r.energies, ¬ e' < e → ¬ roundEnergy e' < roundEnergy e

/-- Real numbers compare, and their rounding is monotone. -/
theorem comparable_of_real (r : Simulation ℝ n) :
    r.HasComparableEnergies ∧ r.RoundsMonotonically :=
  ⟨⟨(comparable_real _).isWeakOrderOn, formLevels_real _⟩,
    fun _ _ _ _ hle => not_lt.2 (roundEnergy_mono (not_lt.1 hle))⟩

/-! ## By ascending energy -/

/-- The energies, by ascending energy. -/
theorem energies_sortByEnergy (r : Simulation α n) :
    r.sortByEnergy.energies = sortBy (fun a b => decide (a < b)) r.energies := by
  rw [energies, energies, sortByEnergy, sortBy_map fun _ _ => rfl]

variable {r : Simulation α n}

/-- Sorting puts the distributions in order of their energies. -/
theorem pairwise_sortByEnergy (h : IsWeakOrderOn {e | e ∈ r.energies} fun a b => a < b) :
    r.sortByEnergy.distributions.Pairwise fun a b => ¬ b.energy < a.energy :=
  pairwise_sortBy_of_isWeakOrderOn (fun _ _ => decide_eq_true_iff)
    (h.comap fun _ hs => List.mem_map_of_mem (mem_sortBy.1 hs))

/-- **The first distribution by energy** is the ground state: none behind it has less energy, as
rounded. -/
theorem groundState?_sortByEnergy (h : IsWeakOrderOn {e | e ∈ r.energies} fun a b => a < b)
    (hround : r.RoundsMonotonically) :
    r.sortByEnergy.groundState? = r.sortByEnergy.distributions.head? := by
  have hmem : ∀ s ∈ r.sortByEnergy.distributions, s.energy ∈ r.energies := fun s hs =>
    List.mem_map_of_mem (mem_sortBy.1 hs)
  have hsorted := pairwise_sortByEnergy h
  rw [groundState?]
  cases hcase : r.sortByEnergy.distributions with
  | nil => rfl
  | cons s later =>
    rw [hcase] at hmem hsorted
    obtain ⟨hs, hlater⟩ := List.forall_mem_cons.1 hmem
    refine firstMin_cons_of_forall fun s' hs' => decide_eq_false ?_
    exact hround _ hs _ (hlater s' hs') ((List.pairwise_cons.1 hsorted).1 s' hs')

/-! ## Agreement -/

/-- What the levels and the ground states of a simulation have to do with each other. -/
structure QueriesAgree (r : Simulation α n) : Prop where
  levels_ascending : r.spectrum.levels.Pairwise fun a b => a.1 < b.1
  sum_counts : (r.spectrum.levels.map (·.2)).sum = r.distributions.length
  count_eq : ∀ level ∈ r.spectrum.levels,
    level.2 = r.distributions.countP fun s => roundEnergy s.energy == level.1
  groundStates_eq : r.groundStates = r.distributions.filter r.isLowest
  isLowest_eq : ∀ e, r.spectrum.ground? = some e →
    ∀ s ∈ r.distributions, r.isLowest s = (roundEnergy s.energy == e)
  length_groundStates : r.groundStates.length = r.spectrum.degeneracy
  groundState?_eq : r.groundState? = r.groundStates.head?
  groundState?_isSome : r.groundState?.isSome = true ↔ r.distributions ≠ []
  groundState?_sortByEnergy :
    r.sortByEnergy.groundState? = r.sortByEnergy.distributions.head?

/-- The same levels and, in another order, the same ground states. -/
structure SharesGroundStates (r r' : Simulation α n) : Prop where
  sameLevels : r'.spectrum.SameLevels r.spectrum
  spectrum_eq : (∀ a b : α, (a == b) = true → a = b) → r'.spectrum = r.spectrum
  degeneracy_eq : r'.spectrum.degeneracy = r.spectrum.degeneracy
  groundStates_perm : r'.groundStates.Perm r.groundStates

/-- The queries of one simulation. -/
theorem queriesAgree (h : r.HasComparableEnergies) (hround : r.RoundsMonotonically) :
    r.QueriesAgree := by
  have hcounts := Spectrum.countsLevels_ofRounded h.rounded
  have hdistributions := r.roundedEnergies_eq_map
  refine
    { levels_ascending := List.pairwise_reverse.1 hcounts.descending
      sum_counts := ?_
      count_eq := fun level hlevel => ?_
      groundStates_eq := groundStates_eq_filter h.rounded
      isLowest_eq := fun e he s hs => ?_
      length_groundStates := Simulation.length_groundStates h.rounded
      groundState?_eq := groundState?_eq_head? h.rounded
      groundState?_isSome := ?_
      groundState?_sortByEnergy := groundState?_sortByEnergy h.energies hround }
  · have hsum := hcounts.sum_counts
    rw [List.map_reverse, List.sum_reverse] at hsum
    rw [spectrum_eq_ofRounded, hsum, hdistributions, List.length_map]
  · rw [hcounts.count_eq level (List.mem_reverse.2 hlevel), hdistributions, List.countP_map]
    rfl
  · obtain ⟨e', he', hlowest, -⟩ := exists_ground?_spectrum h.rounded (List.ne_nil_of_mem hs)
    obtain rfl := Option.some.inj (he.symm.trans he')
    exact (hlowest s hs).symm
  · rw [groundState?]
    cases r.distributions with
    | nil => exact iff_of_false Bool.false_ne_true fun hne => hne rfl
    | cons s later => exact iff_of_true rfl (List.cons_ne_nil s later)

/-- Two simulations with the same distributions. -/
theorem sharesGroundStates_of_perm (h : r.HasComparableEnergies) {r' : Simulation α n}
    (hperm : r'.distributions.Perm r.distributions) : r.SharesGroundStates r' := by
  have hrounded : r'.roundedEnergies.Perm r.roundedEnergies := by
    rw [roundedEnergies_eq_map, roundedEnergies_eq_map]
    exact hperm.map _
  have h' : FormLevels {e | e ∈ r'.roundedEnergies} :=
    h.rounded.mono fun e he => hrounded.mem_iff.1 he
  have hsame : r'.spectrum.SameLevels r.spectrum := Spectrum.sameLevels_of_perm h.rounded hrounded
  have hlowest : r'.isLowest = r.isLowest := funext fun s => hperm.all_eq
  have hground : r'.groundStates.Perm r.groundStates := by
    rw [groundStates_eq_filter h', groundStates_eq_filter h.rounded, hlowest]
    exact hperm.filter _
  refine ⟨hsame, hsame.eq, ?_, hground⟩
  rw [← Simulation.length_groundStates h', ← Simulation.length_groundStates h.rounded,
    hground.length_eq]

/-- **Ground-state queries agree.** Let the energies of a simulation compare like numbers and be
rounded by a monotone rounding. Then its levels are strictly ascending and count all distributions,
the ground states are those on the lowest level, as many as its degeneracy says, the ground state is
the first of them and, by ascending energy, the first of all. The order of the distributions changes
neither the levels nor which distributions are ground states. -/
theorem groundStates_agree (h : r.HasComparableEnergies) (hround : r.RoundsMonotonically) :
    r.QueriesAgree ∧
      ∀ r' : Simulation α n, r'.distributions.Perm r.distributions → r.SharesGroundStates r' :=
  ⟨queriesAgree h hround, fun _ => sharesGroundStates_of_perm h⟩

end Simulation

/-- One cell in states of given energies. -/
noncomputable def cellWithEnergies (energies : List ℝ) : Simulation ℝ (isolatedCell 0).size where
  engine := .exhaustive
  parameters := default
  base := 3
  distributions :=
    energies.map fun e => { Surface.ofLayout (isolatedCell 0) default with energy := e }

/-- Two energies less than half a step of the rounding apart: both are ground states, the first is
the ground state, and by ascending energy the other one is. -/
theorem groundStates_agree_nearTie :
    let r := cellWithEnergies [4e-7, 0, 1]
    r.HasComparableEnergies ∧ r.RoundsMonotonically ∧ r.groundStates.length = 2 ∧
      r.spectrum.degeneracy = 2 ∧ r.groundState?.map (·.energy) = some 4e-7 ∧
      r.sortByEnergy.groundState?.map (·.energy) = some 0 := by
  intro r
  obtain ⟨h, hround⟩ := r.comparable_of_real
  obtain ⟨hagree, -⟩ := Simulation.groundStates_agree h hround
  have hzero : roundEnergy (0 : ℝ) = 0 := roundEnergy_eq_zero le_rfl (by norm_num)
  have hsmall : roundEnergy (4e-7 : ℝ) = 0 := roundEnergy_eq_zero (by norm_num) (by norm_num)
  have hone : roundEnergy (1 : ℝ) = 1 := by
    rw [roundEnergy_of_between (k := 10 ^ 6) (by norm_num) (by norm_num) (by norm_num)]
    norm_num
  have hground : r.groundStates.map (·.energy) = [4e-7, 0] := by
    rw [hagree.groundStates_eq]
    simp [r, cellWithEnergies, Simulation.isLowest, hzero, hsmall, hone]
  have hlength : r.groundStates.length = 2 := by
    rw [← List.length_map (·.energy), hground]
    rfl
  refine ⟨h, hround, hlength, hagree.length_groundStates ▸ hlength, ?_, ?_⟩
  · rw [hagree.groundState?_eq, ← List.head?_map, hground]
    rfl
  · have hsorted : r.sortByEnergy.distributions.map (·.energy) = [0, 4e-7, 1] := by
      refine r.energies_sortByEnergy.trans ?_
      norm_num [r, cellWithEnergies, Simulation.energies, sortBy, insertBack]
    rw [hagree.groundState?_sortByEnergy, ← List.head?_map, hsorted]
    rfl

end DanglingBonds
