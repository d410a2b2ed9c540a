/-
# Occupation is a probability

The probability of a wrong reading is the weight of the states that are read wrongly, as a share of
the weight of all. Weights are taken relative to a state of least energy, which has weight one at
every temperature, so the whole is not zero, and what is common to all energies does not matter. Of
the exponential function no more is used than that it is positive, and one at zero.

* `partitionFunction`, `erroneousWeight`, `erroneousProbability_eq_div` : a share of weights.
* `exactWith`, `IsExponential` : exact arithmetic with any exponential function.
* `weight_of_pos`, `weight_zero`, `weight_nonneg` : the weight of a state.
* `one_le_partitionFunction` : the weight of all states.
* `erroneousWeight_add_erroneousWeight_invert` : right and wrong exchanged.
* `erroneousProbability_of_pos` : the probability in Boltzmann factors.
* `erroneousProbability_isProbability` : the probability and its symmetries.
-/
import Mathlib
import DanglingBonds.Proofs.ExcitedStates

namespace DanglingBonds

/-! ## A share of weights -/

section Shares

variable {α : Type} [Scalar α]

/-- The weight of all states, relative to an energy. -/
def partitionFunction (states : List (StateEnergy α)) (ground t : α) : α :=
  states.foldl (fun z s => z + boltzmannFactor (s.energy - ground) t) 0

/-- The weight of the states that do not show the expected outputs. -/
def erroneousWeight (states : List (StateEnergy α)) (ground t : α) : α :=
  states.foldl
    (fun z s => if s.transparent then z else z + boltzmannFactor (s.energy - ground) t) 0

/-- The probability is a share of the weight of all states. -/
theorem erroneousProbability_eq_div {states : List (StateEnergy α)} {ground t : α}
    (ht : checkTemperature t = .ok ()) (hground : leastEnergy? states = some ground) :
    erroneousProbability states t
      = .ok (erroneousWeight states ground t / partitionFunction states ground t) := by
  rw [erroneousProbability, ht, hground]
  rfl

/-- A state that is read the other way. -/
def StateEnergy.invert (s : StateEnergy α) : StateEnergy α :=
  { s with transparent := !s.transparent }

/-- A state with more energy. -/
def StateEnergy.raise (c : α) (s : StateEnergy α) : StateEnergy α :=
  { s with energy := s.energy + c }

end Shares

/-! ## Exponential functions -/

/-- Exact arithmetic with an exponential function of its own. -/
@[reducible] noncomputable def exactWith (exp : ℝ → ℝ) : Scalar ℝ :=
  { instScalarReal with exp }

/-- What an exponential function has to be like. -/
structure IsExponential (E : ℝ → ℝ) : Prop where
  pos : ∀ x, 0 < E x
  strictMono : StrictMono E
  map_zero : E 0 = 1

theorem isExponential_exp : IsExponential Real.exp :=
  ⟨Real.exp_pos, Real.exp_strictMono, Real.exp_zero⟩

/-- The weight of a state with so much energy above the least. -/
noncomputable def weight (E : ℝ → ℝ) (t excitation : ℝ) : ℝ :=
  @boltzmannFactor ℝ (exactWith E) excitation t

section Weights

variable {E : ℝ → ℝ} {t ground : ℝ} {states : List (StateEnergy ℝ)} {s : StateEnergy ℝ}

/-- The weight in closed form. -/
theorem weight_eq (E : ℝ → ℝ) (t excitation : ℝ) : weight E t excitation =
    if t = 0 then if 0 < excitation then 0 else 1
    else E (-excitation / (boltzmannConstant * t)) := by
  have hzero : ((t == 0) = true) = (t = 0) := by rw [beq_iff_eq]
  simp only [← hzero]
  rfl

/-- **The Boltzmann factor.** Above zero kelvin the weight is the exponential of minus the
excitation over the thermal energy. -/
theorem weight_of_pos (ht : 0 < t) (excitation : ℝ) :
    weight E t excitation = E (-excitation / (boltzmannConstant * t)) := by
  rw [weight_eq, if_neg ht.ne']

/-- The weights, added up. -/
theorem partitionFunction_eq_sum (states : List (StateEnergy ℝ)) (ground t : ℝ) :
    @partitionFunction ℝ (exactWith E) states ground t
      = (states.map fun s => weight E t (s.energy - ground)).sum := by
  rw [List.sum_eq_foldl, List.foldl_map]
  rfl

theorem erroneousWeight_eq_sum (states : List (StateEnergy ℝ)) (ground t : ℝ) :
    @erroneousWeight ℝ (exactWith E) states ground t
      = (states.map fun s => if s.transparent then 0 else weight E t (s.energy - ground)).sum := by
  have hstep : (fun (z : ℝ) (s : StateEnergy ℝ) =>
      if s.transparent then z else z + weight E t (s.energy - ground))
        = fun z s => z + if s.transparent then 0 else weight E t (s.energy - ground) := by
    funext z s
    split
    · rw [add_zero]
    · rfl
  rw [List.sum_eq_foldl, List.foldl_map, ← hstep]
  rfl

variable (hE : IsExponential E)

include hE

/-- **A state of least energy** has weight one. -/
theorem weight_zero (t : ℝ) : weight E t 0 = 1 := by
  rw [weight_eq]
  split
  · rw [if_neg (lt_irrefl 0)]
  · rw [neg_zero, zero_div, hE.map_zero]

theorem weight_nonneg (t excitation : ℝ) : 0 ≤ weight E t excitation := by
  rw [weight_eq]
  split
  · split
    · exact le_rfl
    · exact zero_le_one
  · exact (hE.pos _).le

/-- **The partition function** is at least one. -/
theorem one_le_partitionFunction (hs : IsLeastState states s) (t : ℝ) :
    1 ≤ @partitionFunction ℝ (exactWith E) states s.energy t := by
  rw [partitionFunction_eq_sum]
  -- one of the weights is one, and none of the others is negative
  have hmem : (1 : ℝ) ∈ states.map fun s' => weight E t (s'.energy - s.energy) := by
    refine List.mem_map.2 ⟨s, hs.1, ?_⟩
    rw [sub_self, weight_zero hE]
  refine List.single_le_sum (fun w hw => ?_) 1 hmem
  obtain ⟨s', -, rfl⟩ := List.mem_map.1 hw
  exact weight_nonneg hE t _

theorem erroneousWeight_nonneg (states : List (StateEnergy ℝ)) (ground t : ℝ) :
    0 ≤ @erroneousWeight ℝ (exactWith E) states ground t := by
  rw [erroneousWeight_eq_sum]
  refine List.sum_nonneg fun w hw => ?_
  obtain ⟨s, -, rfl⟩ := List.mem_map.1 hw
  split
  · exact le_rfl
  · exact weight_nonneg hE t _

omit hE

/-- **Right and wrong exchanged**, the weights are those of all states. -/
theorem erroneousWeight_add_erroneousWeight_invert (states : List (StateEnergy ℝ))
    (ground t : ℝ) :
    @erroneousWeight ℝ (exactWith E) states ground t
        + @erroneousWeight ℝ (exactWith E) (states.map .invert) ground t
      = @partitionFunction ℝ (exactWith E) states ground t := by
  rw [erroneousWeight_eq_sum, erroneousWeight_eq_sum, partitionFunction_eq_sum, List.map_map,
    ← List.sum_map_add]
  congr 1
  refine List.map_congr_left fun s _ => ?_
  cases htransparent : s.transparent with
  | true => simp [StateEnergy.invert, htransparent]
  | false => simp [StateEnergy.invert, htransparent]

theorem partitionFunction_invert (states : List (StateEnergy ℝ)) (ground t : ℝ) :
    @partitionFunction ℝ (exactWith E) (states.map .invert) ground t
      = @partitionFunction ℝ (exactWith E) states ground t := by
  rw [partitionFunction_eq_sum, partitionFunction_eq_sum, List.map_map]
  rfl

/-- The order of the states does not matter. -/
theorem weights_perm {states' : List (StateEnergy ℝ)} (h : states'.Perm states) (ground t : ℝ) :
    @partitionFunction ℝ (exactWith E) states' ground t
        = @partitionFunction ℝ (exactWith E) states ground t ∧
      @erroneousWeight ℝ (exactWith E) states' ground t
        = @erroneousWeight ℝ (exactWith E) states ground t := by
  simp only [partitionFunction_eq_sum, erroneousWeight_eq_sum]
  exact ⟨(h.map _).sum_eq, (h.map _).sum_eq⟩

/-- What is common to all energies does not matter. -/
theorem weights_raise (states : List (StateEnergy ℝ)) (c ground t : ℝ) :
    @partitionFunction ℝ (exactWith E) (states.map (.raise c)) (ground + c) t
        = @partitionFunction ℝ (exactWith E) states ground t ∧
      @erroneousWeight ℝ (exactWith E) (states.map (.raise c)) (ground + c) t
        = @erroneousWeight ℝ (exactWith E) states ground t := by
  simp only [partitionFunction_eq_sum, erroneousWeight_eq_sum, List.map_map, Function.comp_def,
    StateEnergy.raise, add_sub_add_right_eq_sub, and_self]

end Weights

/-! ## The probability -/

section Probabilities

variable {E : ℝ → ℝ} {t : ℝ} {states : List (StateEnergy ℝ)} {s : StateEnergy ℝ}

/-- A state of least energy stays one when all energies change alike. -/
theorem IsLeastState.map {f : StateEnergy ℝ → StateEnergy ℝ} {c : ℝ}
    (hs : IsLeastState states s) (hf : ∀ s, (f s).energy = s.energy + c) :
    IsLeastState (states.map f) (f s) := by
  refine ⟨List.mem_map_of_mem hs.1, fun s' hs' => ?_⟩
  obtain ⟨s'', hs'', rfl⟩ := List.mem_map.1 hs'
  rw [hf, hf]
  exact add_le_add (hs.2 s'' hs'') le_rfl

theorem IsLeastState.perm {states' : List (StateEnergy ℝ)} (hs : IsLeastState states s)
    (h : states'.Perm states) : IsLeastState states' s :=
  ⟨h.mem_iff.2 hs.1, fun s' hs' => hs.2 s' (h.mem_iff.1 hs')⟩

/-- The probability at a temperature that is not negative. -/
theorem erroneousProbability_of_isLeastState (ht : 0 ≤ t) (hs : IsLeastState states s) :
    @erroneousProbability ℝ (exactWith E) states t
      = .ok (@erroneousWeight ℝ (exactWith E) states s.energy t
        / @partitionFunction ℝ (exactWith E) states s.energy t) :=
  @erroneousProbability_eq_div ℝ (exactWith E) states s.energy t (if_pos (decide_eq_true ht))
    (leastEnergy?_eq_some hs)

/-- The probability above zero kelvin, in Boltzmann factors. -/
theorem erroneousProbability_of_pos (ht : 0 < t) (hs : IsLeastState states s) :
    @erroneousProbability ℝ (exactWith E) states t = .ok
      ((states.map fun s' => if s'.transparent then 0
          else E (-(s'.energy - s.energy) / (boltzmannConstant * t))).sum
        / (states.map fun s' => E (-(s'.energy - s.energy) / (boltzmannConstant * t))).sum) := by
  rw [erroneousProbability_of_isLeastState ht.le hs, erroneousWeight_eq_sum,
    partitionFunction_eq_sum]
  simp only [weight_of_pos ht]

/-- **Occupation is a probability.** For any exponential function, any states and any temperature
that is not negative, the weight of all states is one at least, and the share of the states that are
read wrongly is a number from zero to one. With right and wrong exchanged it is the rest, and
neither the order of the states nor what is added to all energies changes it. -/
theorem erroneousProbability_isProbability (hE : IsExponential E) (hstates : states ≠ [])
    (ht : 0 ≤ t) :
    letI := exactWith E
    ∃ ground p, leastEnergy? states = some ground ∧ 1 ≤ partitionFunction states ground t ∧
      erroneousProbability states t = .ok p ∧
      p = erroneousWeight states ground t / partitionFunction states ground t ∧
      0 ≤ p ∧ p ≤ 1 ∧
      erroneousProbability (states.map .invert) t = .ok (1 - p) ∧
      (∀ states', states'.Perm states → erroneousProbability states' t = .ok p) ∧
      ∀ c, erroneousProbability (states.map (.raise c)) t = .ok p := by
  obtain ⟨s, hs⟩ := exists_isLeastState hstates
  have hone := one_le_partitionFunction hE hs t
  have hpos := zero_lt_one.trans_le hone
  have hwrong := erroneousWeight_nonneg hE states s.energy t
  have hright := erroneousWeight_nonneg hE (states.map .invert) s.energy t
  have hsplit := erroneousWeight_add_erroneousWeight_invert (E := E) states s.energy t
  refine ⟨s.energy, _, leastEnergy?_eq_some hs, hone,
    erroneousProbability_of_isLeastState ht hs, rfl, div_nonneg hwrong hpos.le, ?_, ?_,
    fun states' hperm => ?_, fun c => ?_⟩
  · exact (div_le_one hpos).2 (by linarith)
  · have hinvert : IsLeastState (states.map .invert) s.invert := hs.map fun s => (add_zero _).symm
    refine (erroneousProbability_of_isLeastState ht hinvert).trans (congrArg Except.ok ?_)
    have henergy : s.invert.energy = s.energy := rfl
    rw [henergy, partitionFunction_invert, eq_sub_iff_add_eq', ← add_div, hsplit,
      div_self hpos.ne']
  · obtain ⟨hpartition, herroneous⟩ := weights_perm (E := E) hperm s.energy t
    rw [erroneousProbability_of_isLeastState ht (hs.perm hperm), hpartition, herroneous]
  · obtain ⟨hpartition, herroneous⟩ := weights_raise (E := E) states c s.energy t
    have hraise : IsLeastState (states.map (.raise c)) (s.raise c) := hs.map fun s => rfl
    refine (erroneousProbability_of_isLeastState ht hraise).trans (congrArg Except.ok ?_)
    have henergy : (s.raise c).energy = s.energy + c := rfl
    rw [henergy]
    exact congrArg₂ _ herroneous hpartition

/-- States that come in pairs of one energy, one read right and one wrong, are read wrongly half of
the time. -/
theorem erroneousProbability_isProbability_mirrored :
    let states : List (StateEnergy ℝ) := [⟨0, true⟩, ⟨0.01, false⟩, ⟨0.01, true⟩, ⟨0, false⟩]
    IsExponential Real.exp ∧ states ≠ [] ∧ (0 : ℝ) ≤ 300 ∧
      erroneousProbability states 300 = .ok (1 / 2) := by
  intro states
  have ht : (0 : ℝ) ≤ 300 := by norm_num
  have hstates : states ≠ [] := List.cons_ne_nil _ _
  refine ⟨isExponential_exp, hstates, ht, ?_⟩
  obtain ⟨-, p, -, -, hp, -, -, -, hinvert, hperm, -⟩ :=
    erroneousProbability_isProbability isExponential_exp hstates ht
  have hreverse : states.map .invert = states.reverse := rfl
  have hsame := hperm _ (List.reverse_perm states)
  rw [hreverse, hsame] at hinvert
  have hhalf : p = 1 / 2 := by
    have hrest := Except.ok.inj hinvert
    linarith
  exact hhalf ▸ hp

end Probabilities

end DanglingBonds
