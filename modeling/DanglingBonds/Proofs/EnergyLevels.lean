/-
# Energy levels and ground states

The levels of a list of energies are its different entries, in ascending order, each with the number
of times it occurs. So a ground state is degenerate exactly if two of the distributions share the
least rounded energy.

* `degeneracy_ofRounded` : the degeneracy of a list of energies.
* `Simulation.IsLeast`, `Simulation.IsTied` : least rounded energy, and a tie for it.
* `isDegenerate_spectrum_iff`, `exists_groundState?_eq_some` : what the program finds out about it.
* `spectrum_of_map`, `groundState?_of_map` : a map of the distributions that keeps energies.
-/
import Mathlib
import DanglingBonds.Proofs.ComparedEnergies

namespace DanglingBonds

/-! ## The levels of a list of energies -/

namespace Spectrum

variable {energies : List ℝ}

/-- The degeneracy is the number of times that the least energy occurs. -/
theorem degeneracy_ofRounded {e : ℝ} (he : e ∈ energies) (hle : ∀ e' ∈ energies, e ≤ e') :
    (ofRounded energies).degeneracy = energies.count e := by
  obtain ⟨least, -, hmem, hleast, hcount⟩ :=
    exists_ground?_eq_some (formLevels_real {e | e ∈ energies}) (List.ne_nil_of_mem he)
  rw [le_antisymm (hle least hmem) (not_lt.1 (hleast e he))]
  exact hcount

/-- Without energies there is no degeneracy. -/
theorem degeneracy_ofRounded_nil : (ofRounded ([] : List ℝ)).degeneracy = 0 := rfl

end Spectrum

/-! ## Ground states -/

namespace Simulation

variable {n : ℕ} {r : Simulation ℝ n}

/-- A distribution whose rounded energy is the least. -/
def IsLeast (r : Simulation ℝ n) (s : Surface ℝ n) : Prop :=
  s ∈ r.distributions ∧ ∀ s' ∈ r.distributions, roundEnergy s.energy ≤ roundEnergy s'.energy

/-- Two of the distributions share the least rounded energy. -/
def IsTied (r : Simulation ℝ n) : Prop :=
  ∃ s s', [s, s'].Sublist r.distributions ∧ r.IsLeast s ∧ r.IsLeast s'

/-- Without a tie every other distribution, whatever its charges are, has a greater rounded
energy. -/
theorem IsLeast.exists_split_of_not_isTied {s : Surface ℝ n} (hs : r.IsLeast s)
    (h : ¬ r.IsTied) : ∃ before after, r.distributions = before ++ s :: after ∧
      ∀ s' ∈ before ++ after, roundEnergy s.energy < roundEnergy s'.energy := by
  obtain ⟨before, after, heq⟩ := List.append_of_mem hs.1
  refine ⟨before, after, heq, fun s' hs' => ?_⟩
  have hmem : s' ∈ r.distributions := by
    rw [heq]
    exact List.mem_append.2 ((List.mem_append.1 hs').imp_right (List.mem_cons_of_mem s))
  refine lt_of_le_of_ne (hs.2 s' hmem) fun hequal => ?_
  have hs'' : r.IsLeast s' := ⟨hmem, fun t ht => hequal ▸ hs.2 t ht⟩
  rcases List.mem_append.1 hs' with hbefore | hafter
  · refine h ⟨s', s, ?_, hs'', hs⟩
    rw [heq]
    exact (List.singleton_sublist.2 hbefore).append (List.singleton_sublist.2 List.mem_cons_self)
  · refine h ⟨s, s', ?_, hs, hs''⟩
    rw [heq]
    exact ((List.singleton_sublist.2 hafter).cons_cons s).trans (List.sublist_append_right _ _)

/-- So there is one distribution of least rounded energy. -/
theorem IsLeast.eq_of_not_isTied {s s' : Surface ℝ n} (hs : r.IsLeast s) (hs' : r.IsLeast s')
    (h : ¬ r.IsTied) : s = s' := by
  obtain ⟨before, after, heq, hlt⟩ := hs.exists_split_of_not_isTied h
  have hmem := hs'.1
  rw [heq, List.mem_append, List.mem_cons] at hmem
  have hnot : s' ∉ before ++ after := fun hother => absurd (hlt s' hother) (hs'.2 s hs.1).not_gt
  rw [List.mem_append, not_or] at hnot
  rcases hmem with hbefore | heq | hafter
  · exact absurd hbefore hnot.1
  · exact heq.symm
  · exact absurd hafter hnot.2

/-- The first distribution of least rounded energy, if there is any distribution. -/
theorem exists_groundState?_eq_some (h : r.distributions ≠ []) :
    ∃ s, r.groundState? = some s ∧ r.IsLeast s := by
  obtain ⟨before, s, after, heq, hs, hbefore, hafter⟩ := exists_firstMin
    (fun s : Surface ℝ n => roundEnergy s.energy) (fun a b => decide_eq_true_iff) h
  refine ⟨s, hs, heq ▸ List.mem_append_right _ List.mem_cons_self, fun s' hs' => ?_⟩
  rw [heq] at hs'
  rcases List.mem_append.1 hs' with hs' | hs'
  · exact (hbefore s' hs').le
  · rcases List.mem_cons.1 hs' with rfl | hs'
    · exact le_rfl
    · exact hafter s' hs'

/-- Without distributions there is no ground state. -/
theorem groundState?_eq_none_iff : r.groundState? = none ↔ r.distributions = [] := by
  constructor
  · intro hnone
    by_contra hne
    obtain ⟨s, hs, -⟩ := exists_groundState?_eq_some hne
    rw [hs] at hnone
    cases hnone
  · intro hnil
    rw [groundState?, hnil]
    rfl

/-- A ground state is a distribution of least rounded energy. -/
theorem isLeast_of_groundState?_eq_some {s : Surface ℝ n} (h : r.groundState? = some s) :
    r.IsLeast s := by
  have hne : r.distributions ≠ [] := fun hnil => by
    rw [groundState?_eq_none_iff.2 hnil] at h
    cases h
  obtain ⟨s', hs', hleast⟩ := exists_groundState?_eq_some hne
  rwa [Option.some.inj (h.symm.trans hs')]

section Images

variable {m : ℕ} {r' : Simulation ℝ m} {f : Surface ℝ n → Surface ℝ m}
  (h : r'.distributions = r.distributions.map f) (hf : ∀ s, (f s).energy = s.energy)

include h hf

/-- A map of the distributions that keeps their energies keeps the energy levels. -/
theorem spectrum_of_map : r'.spectrum = r.spectrum := by
  rw [spectrum, spectrum, energies, energies, h, List.map_map]
  exact congrArg Spectrum.ofEnergies (List.map_congr_left fun s _ => hf s)

/-- It maps the ground state. -/
theorem groundState?_of_map : r'.groundState? = r.groundState?.map f := by
  rw [groundState?, groundState?, h]
  refine firstMin_map (fun a b => ?_) r.distributions
  rw [hf, hf]

end Images

/-- **Degeneracy.** The ground state is degenerate exactly if two distributions share the least
rounded energy. -/
theorem isDegenerate_spectrum_iff : r.spectrum.isDegenerate = true ↔ r.IsTied := by
  have hspectrum : r.spectrum
      = .ofRounded (r.distributions.map fun s => roundEnergy s.energy) := by
    rw [spectrum, Spectrum.ofEnergies, energies, List.map_map]
    rfl
  rw [Spectrum.isDegenerate, decide_eq_true_iff, hspectrum]
  by_cases hnil : r.distributions = []
  · rw [hnil, List.map_nil, Spectrum.degeneracy_ofRounded_nil]
    refine iff_of_false (by decide) ?_
    rintro ⟨s, s', -, hs, -⟩
    rw [IsLeast, hnil] at hs
    exact List.not_mem_nil hs.1
  · obtain ⟨ground, -, hground⟩ := exists_groundState?_eq_some hnil
    have hleast : ∀ e ∈ r.distributions.map fun s => roundEnergy s.energy,
        roundEnergy ground.energy ≤ e := by
      intro e he
      obtain ⟨s, hs, rfl⟩ := List.mem_map.1 he
      exact hground.2 s hs
    rw [Spectrum.degeneracy_ofRounded (List.mem_map.2 ⟨ground, hground.1, rfl⟩) hleast,
      ← Nat.succ_le_iff, ← List.replicate_sublist_iff, List.sublist_map_iff]
    -- the two copies of the least energy come from two distributions
    constructor
    · rintro ⟨pair, hsub, hpair⟩
      obtain ⟨s, rest, rfl, hs, hrest⟩ := List.map_eq_cons_iff.1 hpair.symm
      obtain ⟨s', rest', rfl, hs', hnone⟩ := List.map_eq_cons_iff.1 hrest
      rw [List.map_eq_nil_iff.1 hnone] at hsub
      have hmem : ∀ t ∈ [s, s'], t ∈ r.distributions := fun t ht => hsub.subset ht
      refine ⟨s, s', hsub, ⟨hmem s (by simp), fun t ht => ?_⟩, ⟨hmem s' (by simp), fun t ht => ?_⟩⟩
      · exact hs.le.trans (hground.2 t ht)
      · exact hs'.le.trans (hground.2 t ht)
    · rintro ⟨s, s', hsub, hs, hs'⟩
      have heq : ∀ t, r.IsLeast t → roundEnergy t.energy = roundEnergy ground.energy :=
        fun t ht => le_antisymm (ht.2 ground hground.1) (hground.2 t ht.1)
      refine ⟨[s, s'], hsub, ?_⟩
      rw [List.map_cons, List.map_cons, List.map_nil, heq s hs, heq s' hs']
      rfl

end Simulation

end DanglingBonds
