/-
# The number of draws

Several random layouts are found by rounds of draws. Both the rounds and the draws of a round are
bounded by the number of attempts. So the draws of a whole run are bounded by its square, and not by
the number itself: a run keeps to it unless the first draws are partly accepted and partly refused
and do not yield enough new layouts.

* `drawsMade` : the number of draws of a run.
* `drawsMade_eq_zero`, `isLeast_drawsMade` : when a run ends.
* `drawsMade_le_mul_self` : the bound by the square.
* `drawsMade_le_attempts_of_check`, `drawsMade_bounds` : when a run keeps to the number of attempts.
* `drawsMade_nearAndFar` : a run that reaches the square.
-/
import Mathlib
import DanglingBonds.Proofs.RandomLayouts

namespace DanglingBonds

namespace RandomLayoutOptions

section Budget

variable {α : Type} [Scalar α] {o : RandomLayoutOptions α} {draws : DrawSource} {count : ℕ}

/-- The number of draws that are made for so many layouts, whether they are found or not. -/
def drawsMade (o : RandomLayoutOptions α) (draws : DrawSource) (count : ℕ) : ℕ :=
  match (o.nextMany draws count).run 0 with
  | .ok _ n => n
  | .error _ n => n

/-! ## The last draw -/

/-- Options that are refused make no draw. -/
theorem drawsMade_eq_zero {e : AnalysisError α} (hcheck : o.check = .error e) :
    o.drawsMade draws count = 0 := by
  rcases run_nextMany_of_check_eq_error hcheck draws count with ⟨-, hrun⟩ | ⟨e', hrun⟩
  · rw [drawsMade, hrun]
  · rw [drawsMade, hrun]

/-- **The last draw** is the first after which drawing ends. -/
theorem isLeast_drawsMade (hcheck : o.check = .ok ()) :
    IsLeast {n | o.IsFinished draws count n} (o.drawsMade draws count) := by
  obtain ⟨made, hmade, hrun⟩ := exists_run_nextMany hcheck draws count
  have hdraws : o.drawsMade draws count = made := by
    rw [drawsMade, hrun]
    by_cases hnew : count ≤ Nat.count (o.IsNew draws) made
    · rw [if_pos hnew]
    · rw [if_neg hnew]
  rw [hdraws]
  exact hmade

theorem drawsMade_le_iff (hcheck : o.check = .ok ()) {n : ℕ} :
    o.drawsMade draws count ≤ n ↔ ∃ m ≤ n, o.IsFinished draws count m :=
  ⟨fun h => ⟨_, h, (isLeast_drawsMade hcheck).1⟩,
    fun ⟨_, hm, hfinished⟩ => ((isLeast_drawsMade hcheck).2 hfinished).trans hm⟩

/-! ## The bound by the square -/

/-- As long as drawing goes on, one draw of so many is accepted in each round. -/
theorem le_count_accepts {rounds : ℕ}
    (h : ∀ n ≤ o.attempts * rounds, ¬ o.IsFinished draws count n) :
    rounds ≤ Nat.count (o.Accepts draws) (o.attempts * rounds) := by
  induction rounds with
  | zero => exact Nat.zero_le _
  | succ rounds ih =>
    rw [Nat.mul_succ] at h ⊢
    have hbefore := ih fun n hn => h n (hn.trans (Nat.le_add_right _ _))
    obtain ⟨k, hk, hle, haccepts⟩ : ∃ k < o.attempts * rounds + o.attempts,
        o.attempts * rounds + o.attempts ≤ k + o.attempts ∧ o.Accepts draws k := by
      by_contra hnone
      push Not at hnone
      exact h _ le_rfl (.inr (.inr ⟨Nat.le_add_left _ _, hnone⟩))
    calc rounds + 1 ≤ Nat.count (o.Accepts draws) k + 1 :=
          Nat.succ_le_succ (hbefore.trans (Nat.count_monotone _ (Nat.add_le_add_iff_right.1 hle)))
      _ = Nat.count (o.Accepts draws) (k + 1) := by rw [Nat.count_succ, if_pos haccepts]
      _ ≤ _ := Nat.count_monotone _ hk

/-- **A run is bounded** by the square of the number of attempts. -/
theorem drawsMade_le_mul_self (o : RandomLayoutOptions α) (draws : DrawSource) (count : ℕ) :
    o.drawsMade draws count ≤ o.attempts * o.attempts := by
  cases hcheck : o.check with
  | error e => exact (drawsMade_eq_zero hcheck).trans_le (Nat.zero_le _)
  | ok u =>
    rw [drawsMade_le_iff hcheck]
    by_contra hgoes
    push Not at hgoes
    exact hgoes _ le_rfl (.inr (.inl (le_count_accepts hgoes)))

/-! ## The bound by the attempts -/

/-- Drawing ends within the number of attempts if it does so after exactly that number. -/
theorem exists_isFinished_iff : (∃ n ≤ o.attempts, o.IsFinished draws count n) ↔
    count ≤ Nat.count (o.IsNew draws) o.attempts ∨ (∀ k < o.attempts, o.Accepts draws k) ∨
      ∀ k < o.attempts, ¬ o.Accepts draws k := by
  constructor
  · rintro ⟨n, hn, hnew | haccepted | ⟨hattempts, hrow⟩⟩
    · exact .inl (hnew.trans (Nat.count_monotone _ hn))
    · obtain rfl : n = o.attempts := le_antisymm hn (haccepted.trans (Nat.count_le _))
      exact .inr (.inl fun k => Nat.count_iff_forall.1 (le_antisymm (Nat.count_le _) haccepted) k)
    · obtain rfl : n = o.attempts := le_antisymm hn hattempts
      exact .inr (.inr fun k hk => hrow k hk (Nat.le_add_left _ _))
  · rintro (hnew | hall | hnone)
    · exact ⟨_, le_rfl, .inl hnew⟩
    · exact ⟨_, le_rfl, .inr (.inl (Nat.count_iff_forall.2 fun k hk => hall k hk).ge)⟩
    · exact ⟨_, le_rfl, .inr (.inr ⟨le_rfl, fun k hk _ => hnone k hk⟩)⟩

/-- A run of accepted options keeps to the number of attempts if the draws up to it yield the
requested number of new layouts, or are all accepted, or are all refused. -/
theorem drawsMade_le_attempts_of_check (hcheck : o.check = .ok ()) :
    o.drawsMade draws count ≤ o.attempts ↔
      count ≤ Nat.count (o.IsNew draws) o.attempts ∨ (∀ k < o.attempts, o.Accepts draws k) ∨
        ∀ k < o.attempts, ¬ o.Accepts draws k := by
  rw [drawsMade_le_iff hcheck, exists_isFinished_iff]

/-- Where positive charges are allowed every run does. -/
theorem drawsMade_le_attempts_of_allowed (h : o.positiveCharges = .allowed) :
    o.drawsMade draws count ≤ o.attempts := by
  cases hcheck : o.check with
  | error e => exact (drawsMade_eq_zero hcheck).trans_le (Nat.zero_le _)
  | ok u =>
    refine (drawsMade_le_attempts_of_check hcheck).2 (.inr (.inl fun k _ => accepts_iff.2 ?_))
    rw [h]
    exact fun hforbidden => by cases hforbidden

/-- **The number of draws** of a run is at most the square of the number of attempts. It is at most
that number itself exactly if the options are refused, or if so many draws yield the requested
number of new layouts, or are all accepted, or are all refused; so it is where positive charges are
allowed. -/
theorem drawsMade_bounds (o : RandomLayoutOptions α) (draws : DrawSource) (count : ℕ) :
    o.drawsMade draws count ≤ o.attempts * o.attempts ∧
    (o.drawsMade draws count ≤ o.attempts ↔
      (∃ e, o.check = .error e) ∨ count ≤ Nat.count (o.IsNew draws) o.attempts ∨
        (∀ k < o.attempts, o.Accepts draws k) ∨ ∀ k < o.attempts, ¬ o.Accepts draws k) ∧
    (o.positiveCharges = .allowed → o.drawsMade draws count ≤ o.attempts) := by
  refine ⟨o.drawsMade_le_mul_self draws count, ?_, drawsMade_le_attempts_of_allowed⟩
  cases hcheck : o.check with
  | error e =>
    exact iff_of_true ((drawsMade_eq_zero hcheck).trans_le (Nat.zero_le _)) (.inl ⟨e, rfl⟩)
  | ok u =>
    have haccepted : ¬ ∃ e, (Except.ok u : Except (AnalysisError α) Unit) = .error e := by
      rintro ⟨e, he⟩
      cases he
    rw [drawsMade_le_attempts_of_check hcheck, or_iff_right haccepted]

end Budget

end RandomLayoutOptions

/-- A run for two layouts with two attempts makes four draws: the square is reached. -/
theorem drawsMade_nearAndFar :
    elevenSites.check = .ok () ∧
      (∀ call, nearAndFar.IsComplete call elevenSites.sites) ∧
      elevenSites.drawsMade nearAndFar 2 = elevenSites.attempts * elevenSites.attempts ∧
      ¬ elevenSites.drawsMade nearAndFar 2 ≤ elevenSites.attempts := by
  have hsquare : elevenSites.drawsMade nearAndFar 2 = 2 * 2 :=
    (RandomLayoutOptions.isLeast_drawsMade check_elevenSites).unique isLeast_isFinished_nearAndFar
  refine ⟨check_elevenSites, fun call => DrawSource.isComplete_ofLists _ call _, hsquare, ?_⟩
  rw [hsquare]
  show ¬ 2 * 2 ≤ 2
  decide

end DanglingBonds
