/-
# Accepted inputs

An analysis checks its inputs one after the other and ends at the first that is refused. What the
checks accept, and that whatever returns a result has accepted its inputs.

* `bind_eq_ok_iff`, `mapError_eq_ok_iff`, `map_eq_ok_iff` : steps that may be refused.
* `forM_eq_ok_iff`, `exists_first_error` : checks in a row.
* `Parameters.check_eq_ok_iff`, `checkDefects_eq_ok_iff` : the parameters and defects that are
  accepted.
* `accepted_of_simulate_eq_ok` : a simulation has accepted parameters and defects.
* `exists_simulate_eq_ok`, `simulate_of_checkDefects_eq_error` : a simulation returns a result or
  reports a refused defect.
-/
import Mathlib
import DanglingBonds.Enumeration
import DanglingBonds.Proofs.ExactScalar

namespace DanglingBonds

/-! ## Steps that may be refused -/

section Steps

variable {ε ε' β γ : Type}

/-- Two steps are accepted when each is. -/
theorem bind_eq_ok_iff {x : Except ε β} {f : β → Except ε γ} {c : γ} :
    x >>= f = .ok c ↔ ∃ b, x = .ok b ∧ f b = .ok c := by
  cases x with
  | error e =>
    constructor
    · intro h
      cases h
    · rintro ⟨_, h, -⟩
      cases h
  | ok b =>
    constructor
    · intro h
      exact ⟨b, rfl, h⟩
    · rintro ⟨b', hb', hc⟩
      cases hb'
      exact hc

/-- Renaming errors accepts nothing more. -/
theorem mapError_eq_ok_iff {x : Except ε β} {f : ε → ε'} {b : β} :
    x.mapError f = .ok b ↔ x = .ok b := by
  cases x with
  | error e =>
    constructor
    · intro h
      cases h
    · intro h
      cases h
  | ok b' =>
    rw [Except.mapError, Except.ok.injEq, Except.ok.injEq]

/-- What follows on an accepted step is a result of it. -/
theorem map_eq_ok_iff {x : Except ε β} {f : β → γ} {c : γ} :
    x.map f = .ok c ↔ ∃ b, x = .ok b ∧ f b = c := by
  cases x with
  | error e =>
    constructor
    · intro h
      cases h
    · rintro ⟨_, h, -⟩
      cases h
  | ok b =>
    constructor
    · intro h
      cases h
      exact ⟨b, rfl, rfl⟩
    · rintro ⟨b', hb', rfl⟩
      cases hb'
      rfl

/-- Steps that go on alike from what is accepted are alike. -/
theorem bind_congr_of_ok {x : Except ε β} {f g : β → Except ε γ}
    (h : ∀ b, x = .ok b → f b = g b) : x >>= f = x >>= g := by
  cases x with
  | error e => rfl
  | ok b => exact h b rfl

/-- Checks in a row are accepted when each is. -/
theorem forM_eq_ok_iff {f : β → Except ε Unit} {xs : List β} :
    xs.forM f = .ok () ↔ ∀ x ∈ xs, f x = .ok () := by
  induction xs with
  | nil => exact iff_of_true rfl (by simp)
  | cons x xs ih =>
    have hstep : (x :: xs).forM f = f x >>= fun _ => xs.forM f := rfl
    rw [hstep, bind_eq_ok_iff, List.forall_mem_cons, ← ih]
    simp only [exists_and_right]
    exact and_congr_left fun _ => ⟨fun ⟨_, h⟩ => h, fun h => ⟨(), h⟩⟩

/-- Checks in a row, of which one is not passed, report the first that is not. -/
theorem exists_first_error {f : β → Except ε Unit} {xs : List β} (h : ∃ x ∈ xs, f x ≠ .ok ()) :
    ∃ before x after e, xs = before ++ x :: after ∧ (∀ y ∈ before, f y = .ok ()) ∧
      f x = .error e ∧ xs.forM f = .error e := by
  induction xs with
  | nil => simp at h
  | cons y ys ih =>
    have hstep : (y :: ys).forM f = f y >>= fun _ => ys.forM f := rfl
    rw [hstep]
    cases hy : f y with
    | error e => exact ⟨[], y, ys, e, rfl, by simp, hy, rfl⟩
    | ok u =>
      obtain ⟨x, hx, hne⟩ := h
      have hrest : ∃ x ∈ ys, f x ≠ .ok () := by
        rcases List.mem_cons.1 hx with rfl | hx
        · exact absurd hy hne
        · exact ⟨x, hx, hne⟩
      obtain ⟨before, x, after, e, rfl, hbefore, he, hforM⟩ := ih hrest
      exact ⟨y :: before, x, after, e, rfl, List.forall_mem_cons.2 ⟨hy, hbefore⟩, he, hforM⟩

end Steps

/-! ## Parameters -/

/-- Screening parameters are accepted when both are positive. -/
theorem checkScreening_eq_ok_iff {epsilonR lambdaTF : ℝ} :
    checkScreening epsilonR lambdaTF = .ok () ↔ 0 < epsilonR ∧ 0 < lambdaTF := by
  unfold checkScreening
  split
  · rename_i h
    exact ⟨fun h' => by simp at h', fun h' => absurd h'.1 h⟩
  · rename_i h
    split
    · rename_i h'
      exact ⟨fun h'' => by simp at h'', fun h'' => absurd h''.2 h'⟩
    · rename_i h'
      exact ⟨fun _ => ⟨not_not.1 h, not_not.1 h'⟩, fun _ => rfl⟩

/-- Parameters are accepted when the base is 2 or 3 and permittivity and screening length are
positive; every level is finite. -/
theorem Parameters.check_eq_ok_iff {p : Parameters ℝ} :
    p.check = .ok () ↔ (p.base = 2 ∨ p.base = 3) ∧ 0 < p.epsilonR ∧ 0 < p.lambdaTF := by
  rw [← checkScreening_eq_ok_iff]
  have hfin : Scalar.isFinite p.muMinus = true := rfl
  by_cases hb : p.base ≠ 2 ∧ p.base ≠ 3
  · simp only [Parameters.check, if_pos hb]
    constructor
    · intro h
      cases h
    · intro h
      omega
  · have hb' : p.base = 2 ∨ p.base = 3 := by omega
    simp only [Parameters.check, if_neg hb, hfin]
    cases hs : checkScreening p.epsilonR p.lambdaTF with
    | error e =>
      constructor
      · intro h
        cases h
      · intro h
        cases h.2
    | ok u => exact ⟨fun _ => ⟨hb', rfl⟩, fun _ => rfl⟩

/-! ## Parameters and defects -/

/-- A layout that is not empty has cells. -/
theorem size_pos {α : Type} [Scalar α] {l : Layout α} (h : l.isEmpty = false) : 0 < l.size :=
  List.length_pos_iff.2 (List.isEmpty_eq_false_iff.1 h)

variable {l : Layout ℝ} {p : Parameters ℝ}

/-- Defects are accepted when each is. -/
theorem checkDefects_eq_ok_iff :
    l.checkDefects = .ok () ↔ ∀ e ∈ l.defects.entries, e.2.check = .ok () := by
  rw [Layout.checkDefects, forM_eq_ok_iff, Table.values, List.forall_mem_map]

/-- An enumeration accepts its inputs when it accepts the parameters and the defects. -/
theorem checkInputs_eq_ok_iff :
    checkInputs l p = .ok () ↔ p.check = .ok () ∧ l.checkDefects = .ok () := by
  rw [checkInputs, bind_eq_ok_iff]
  simp only [mapError_eq_ok_iff]
  constructor
  · rintro ⟨u, hp, hl⟩
    exact ⟨hp, hl⟩
  · rintro ⟨hp, hl⟩
    exact ⟨(), hp, hl⟩

/-- An enumeration with a result has accepted its inputs. -/
theorem accepted_of_simulate_eq_ok {e : Engine} {r : Simulation ℝ l.size}
    (h : l.simulate e p = .ok r) : p.check = .ok () ∧ l.checkDefects = .ok () := by
  cases e with
  | quickExact =>
    obtain ⟨u, hu, -⟩ := bind_eq_ok_iff.1 (show l.enumeratePruned p .off = .ok r from h)
    exact checkInputs_eq_ok_iff.1 hu
  | exhaustive =>
    obtain ⟨u, hu, -⟩ := bind_eq_ok_iff.1 (show l.enumerateAll p = .ok r from h)
    exact checkInputs_eq_ok_iff.1 hu

/-- With accepted parameters and defects, the pruned enumeration returns a result. -/
theorem exists_enumeratePruned_eq_ok (hp : p.check = .ok ()) (hl : l.checkDefects = .ok ())
    (d : BaseDetection) : ∃ r, l.enumeratePruned p d = .ok r := by
  rw [Layout.enumeratePruned, checkInputs_eq_ok_iff.2 ⟨hp, hl⟩]
  cases l.isEmpty with
  | true => exact ⟨_, rfl⟩
  | false => exact ⟨_, rfl⟩

/-- With accepted parameters and defects, either engine returns a result. -/
theorem exists_simulate_eq_ok (hp : p.check = .ok ()) (hl : l.checkDefects = .ok ()) (e : Engine) :
    ∃ r, l.simulate e p = .ok r := by
  cases e with
  | quickExact => exact exists_enumeratePruned_eq_ok hp hl .off
  | exhaustive =>
    rw [Layout.simulate, Layout.enumerateAll, checkInputs_eq_ok_iff.2 ⟨hp, hl⟩]
    exact ⟨_, rfl⟩

/-- With accepted parameters, either engine reports the first defect that is refused. -/
theorem simulate_of_checkDefects_eq_error {α : Type} [Scalar α] {l : Layout α} {p : Parameters α}
    {cause : ParameterError α} (hp : p.check = .ok ()) (hl : l.checkDefects = .error cause)
    (e : Engine) : l.simulate e p = .error (.parameters cause) := by
  have hinputs : checkInputs l p = .error (.parameters cause) := by
    rw [checkInputs, hp, hl]
    rfl
  cases e with
  | quickExact =>
    rw [Layout.simulate, Layout.enumeratePruned, hinputs]
    rfl
  | exhaustive =>
    rw [Layout.simulate, Layout.enumerateAll, hinputs]
    rfl

end DanglingBonds
