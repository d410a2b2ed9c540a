/-
# Layouts of draws in turn

A random layout is that of the next draw that is acceptable; several are those of the next draws
that are acceptable and have sites that no earlier one had. Drawing goes on until one of three
things has happened: as many new layouts have been found as are asked for, as many draws have been
accepted as there are attempts, or as many draws in a row have been refused. The first draw after
which one of them holds is the last, and what has been found by then is the result.

* `RandomLayoutOptions.Accepts`, `IsNew`, `newLayouts` : draws that are accepted, and new ones.
* `run_firstAccepted` : the next acceptable layout.
* `IsFinished` : when drawing ends.
* `run_collect_of_isStart`, `exists_run_collect` : one round of the loop, and a run of it from any
  draw behind an accepted one.
* `exists_run_nextMany` : a whole run.
-/
import Mathlib
import DanglingBonds.RandomLayout

namespace DanglingBonds

namespace RandomLayoutOptions

variable {α : Type} [Scalar α] (o : RandomLayoutOptions α) (draws : DrawSource)

/-! ## Draws that are accepted -/

/-- Whether the layout of a draw is acceptable. -/
def Accepts (call : ℕ) : Prop :=
  o.accepts (o.layoutOfDraw draws call) = true

instance (call : ℕ) : Decidable (o.Accepts draws call) :=
  inferInstanceAs (Decidable (_ = true))

/-- Whether it is, and has other sites than all acceptable ones before it. -/
def IsNew (call : ℕ) : Prop :=
  o.Accepts draws call ∧ ∀ j < call, o.Accepts draws j →
    (o.layoutOfDraw draws j).sites ≠ (o.layoutOfDraw draws call).sites

instance (call : ℕ) : Decidable (o.IsNew draws call) :=
  inferInstanceAs (Decidable (_ ∧ ∀ j < call, _ → _))

/-- The new layouts among the first draws, in order. -/
def newLayouts (calls : ℕ) : List (Layout α) :=
  ((List.range calls).filter fun call => o.IsNew draws call).map (o.layoutOfDraw draws)

variable {o draws} {call calls : ℕ}

theorem newLayouts_succ_of_isNew (h : o.IsNew draws calls) :
    o.newLayouts draws (calls + 1) = o.newLayouts draws calls ++ [o.layoutOfDraw draws calls] := by
  rw [newLayouts, List.range_succ, List.filter_append, List.map_append,
    List.filter_singleton, decide_eq_true h]
  rfl

theorem newLayouts_succ_of_not_isNew (h : ¬ o.IsNew draws calls) :
    o.newLayouts draws (calls + 1) = o.newLayouts draws calls := by
  rw [newLayouts, List.range_succ, List.filter_append, List.map_append,
    List.filter_singleton, decide_eq_false h]
  exact List.append_nil _

/-- The number of new layouts. -/
theorem length_newLayouts (calls : ℕ) :
    (o.newLayouts draws calls).length = Nat.count (o.IsNew draws) calls := by
  rw [newLayouts, List.length_map, ← List.countP_eq_length_filter]
  rfl

/-- Behind every draw that is accepted there is a new one with its sites. -/
theorem exists_isNew_sites_eq (h : o.Accepts draws call) :
    ∃ j ≤ call, o.IsNew draws j ∧
      (o.layoutOfDraw draws j).sites = (o.layoutOfDraw draws call).sites := by
  induction call using Nat.strong_induction_on with
  | _ call ih =>
    by_cases hnew : o.IsNew draws call
    · exact ⟨call, le_rfl, hnew, rfl⟩
    · rw [IsNew, and_iff_right h] at hnew
      push Not at hnew
      obtain ⟨j, hj, haccepts, hsites⟩ := hnew
      obtain ⟨i, hi, hinew, hisites⟩ := ih j hj haccepts
      exact ⟨i, hi.trans hj.le, hinew, hisites.trans hsites⟩

/-- A draw that is accepted is new if none of the new layouts before it has its sites. -/
theorem any_newLayouts_iff (h : o.Accepts draws calls) :
    (o.newLayouts draws calls).reverse.any
        (fun m => m.sites == (o.layoutOfDraw draws calls).sites) = true ↔
      ¬ o.IsNew draws calls := by
  rw [List.any_reverse, List.any_eq_true]
  simp only [beq_iff_eq]
  constructor
  · rintro ⟨m, hm, hsites⟩ hnew
    obtain ⟨j, hj, rfl⟩ := List.mem_map.1 hm
    obtain ⟨hlt, hjnew⟩ := List.mem_filter.1 hj
    exact hnew.2 j (List.mem_range.1 hlt) (of_decide_eq_true hjnew).1 hsites
  · intro hnew
    obtain ⟨j, hj, hjnew, hsites⟩ := exists_isNew_sites_eq h
    have hlt : j < calls := lt_of_le_of_ne hj fun heq => hnew (heq ▸ hjnew)
    refine ⟨_, List.mem_map_of_mem (List.mem_filter.2 ⟨List.mem_range.2 hlt, ?_⟩), hsites⟩
    exact decide_eq_true hjnew

/-- One more draw that is accepted extends the new layouts, unless its sites are known. -/
theorem reverse_newLayouts_succ (h : o.Accepts draws calls) :
    (if (o.newLayouts draws calls).reverse.any
        (fun m => m.sites == (o.layoutOfDraw draws calls).sites) then
      (o.newLayouts draws calls).reverse
    else o.layoutOfDraw draws calls :: (o.newLayouts draws calls).reverse)
      = (o.newLayouts draws (calls + 1)).reverse := by
  have hany := any_newLayouts_iff h
  by_cases hnew : o.IsNew draws calls
  · rw [if_neg (hany.not.2 (not_not.2 hnew)), newLayouts_succ_of_isNew hnew, List.reverse_append]
    rfl
  · rw [if_pos (hany.2 hnew), newLayouts_succ_of_not_isNew hnew]

section Refused

variable (hle : call ≤ calls) (h : ∀ j, call ≤ j → j < calls → ¬ o.Accepts draws j)

include hle h

/-- Draws that are refused add nothing. -/
theorem newLayouts_of_refused : o.newLayouts draws calls = o.newLayouts draws call := by
  induction calls, hle using Nat.le_induction with
  | base => rfl
  | succ calls hle ih =>
    rw [newLayouts_succ_of_not_isNew fun hnew => h calls hle calls.lt_succ_self hnew.1]
    exact ih fun j hj hlt => h j hj (hlt.trans calls.lt_succ_self)

theorem count_isNew_of_refused :
    Nat.count (o.IsNew draws) calls = Nat.count (o.IsNew draws) call := by
  rw [← length_newLayouts, ← length_newLayouts, newLayouts_of_refused hle h]

theorem count_accepts_of_refused :
    Nat.count (o.Accepts draws) calls = Nat.count (o.Accepts draws) call := by
  induction calls, hle using Nat.le_induction with
  | base => rfl
  | succ calls hle ih =>
    rw [Nat.count_succ_eq_count_iff.2 (h calls hle calls.lt_succ_self)]
    exact ih fun j hj hlt => h j hj (hlt.trans calls.lt_succ_self)

end Refused

/-! ## The next acceptable layout -/

/-- One draw. -/
theorem run_firstAccepted_succ (attempts call : ℕ) :
    (o.firstAccepted draws (attempts + 1)).run call =
      if o.Accepts draws call then .ok (o.layoutOfDraw draws call) (call + 1)
      else (o.firstAccepted draws attempts).run (call + 1) := by
  by_cases h : o.Accepts draws call
  · rw [if_pos h]
    exact congrFun (if_pos h) (call + 1)
  · rw [if_neg h]
    exact congrFun (if_neg h) (call + 1)

/-- **The next acceptable layout** is the first of so many draws that is accepted, and the draws up
to it are made; if none is accepted, all of them are. -/
theorem run_firstAccepted (o : RandomLayoutOptions α) (draws : DrawSource) (attempts call : ℕ) :
    (∃ k, call ≤ k ∧ k < call + attempts ∧ o.Accepts draws k ∧
      (∀ j, call ≤ j → j < k → ¬ o.Accepts draws j) ∧
      (o.firstAccepted draws attempts).run call = .ok (o.layoutOfDraw draws k) (k + 1)) ∨
    ((∀ j, call ≤ j → j < call + attempts → ¬ o.Accepts draws j) ∧
      (o.firstAccepted draws attempts).run call
        = .error (.exhausted o.attempts) (call + attempts)) := by
  induction attempts generalizing call with
  | zero => exact .inr ⟨fun j hj hlt => absurd hj hlt.not_ge, rfl⟩
  | succ attempts ih =>
    rw [run_firstAccepted_succ]
    by_cases h : o.Accepts draws call
    · exact .inl ⟨call, le_rfl, by omega, h, fun j hj hlt => absurd hj hlt.not_ge, if_pos h⟩
    · have hrefused : ∀ {n}, (∀ j, call + 1 ≤ j → j < n → ¬ o.Accepts draws j) →
          ∀ j, call ≤ j → j < n → ¬ o.Accepts draws j := by
        intro n hn j hj hlt
        rcases hj.eq_or_lt with rfl | hj
        · exact h
        · exact hn j hj hlt
      rw [if_neg h, ← add_assoc, Nat.add_right_comm]
      rcases ih (call + 1) with ⟨k, hk, hlt, haccepts, hbefore, hrun⟩ | ⟨hnone, hrun⟩
      · exact .inl ⟨k, Nat.le_of_succ_le hk, hlt, haccepts, hrefused hbefore, hrun⟩
      · exact .inr ⟨hrefused hnone, hrun⟩

/-! ## When drawing ends -/

/-- Drawing ends when the requested number of new layouts has been found, when as many draws have
been accepted as there are attempts, or when as many in a row have been refused. -/
def IsFinished (o : RandomLayoutOptions α) (draws : DrawSource) (count calls : ℕ) : Prop :=
  count ≤ Nat.count (o.IsNew draws) calls ∨ o.attempts ≤ Nat.count (o.Accepts draws) calls ∨
    (o.attempts ≤ calls ∧ ∀ k < calls, calls ≤ k + o.attempts → ¬ o.Accepts draws k)

/-- A draw with which a further layout is begun: it is the first, or follows on one that is
accepted, drawing has not ended before, and neither the new nor the accepted layouts are enough. -/
structure IsStart (o : RandomLayoutOptions α) (draws : DrawSource) (count call : ℕ) : Prop where
  eq_zero_or_accepts : call = 0 ∨ ∃ k, k + 1 = call ∧ o.Accepts draws k
  not_isFinished_of_lt : ∀ n < call, ¬ o.IsFinished draws count n
  new_lt : Nat.count (o.IsNew draws) call < count
  accepted_lt : Nat.count (o.Accepts draws) call < o.attempts

/-- Drawing goes on while draws are refused, as long as there are attempts. -/
theorem IsStart.not_isFinished {count : ℕ} (hstart : o.IsStart draws count call)
    (hlt : calls < call + o.attempts) (h : ∀ j, call ≤ j → j < calls → ¬ o.Accepts draws j) :
    ¬ o.IsFinished draws count calls := by
  rcases lt_or_ge calls call with hcall | hle
  · exact hstart.not_isFinished_of_lt calls hcall
  · rintro (hnew | haccepted | ⟨hattempts, hrow⟩)
    · rw [count_isNew_of_refused hle h] at hnew
      exact hstart.new_lt.not_ge hnew
    · rw [count_accepts_of_refused hle h] at haccepted
      exact hstart.accepted_lt.not_ge haccepted
    · -- a row of so many refused draws would reach back to the accepted one
      rcases hstart.eq_zero_or_accepts with rfl | ⟨k, rfl, hk⟩
      · omega
      · exact hrow k (by omega) (by omega) hk

/-! ## A run -/

section Runs

variable {count : ℕ}

/-- What is accepted is drawn from. -/
theorem next_eq (hcheck : o.check = .ok ()) : o.next draws = o.firstAccepted draws o.attempts := by
  rw [next, hcheck]

/-- What is refused is not. -/
theorem run_next_of_check_eq_error {e : AnalysisError α} (hcheck : o.check = .error e)
    (call : ℕ) : (o.next draws).run call = .error e call := by
  rw [next, hcheck]
  rfl

/-- One layout more. -/
theorem run_collect_succ (found : List (Layout α)) (attempts call : ℕ) :
    (o.collect draws count found (attempts + 1)).run call =
      if found.length = count then .ok found call
      else match (o.next draws).run call with
        | .ok l next =>
          let found := if found.any (fun m => m.sites == l.sites) then found else l :: found
          (o.collect draws count found attempts).run next
        | .error e next => .error e next := by
  rw [collect]
  by_cases hfull : found.length = count
  · rw [if_pos hfull, if_pos hfull]
    rfl
  · rw [if_neg hfull, if_neg hfull, EStateM.run_bind]
    cases (o.next draws).run call with
    | error e next => rfl
    | ok l next => rfl

/-- As long as drawing has not ended before, no more new layouts have been found than are asked
for. -/
theorem count_isNew_le (h : ∀ n < calls, ¬ o.IsFinished draws count n) :
    Nat.count (o.IsNew draws) calls ≤ count := by
  cases calls with
  | zero => exact (Nat.count_zero _).trans_le (Nat.zero_le count)
  | succ calls =>
    have hlt : Nat.count (o.IsNew draws) calls < count :=
      not_le.1 fun hle => h calls calls.lt_succ_self (.inl hle)
    rw [Nat.count_succ]
    split <;> omega

/-- **One round of the loop** goes on behind the next draw that is accepted, with the new layouts up
to there, or gives up when all attempts of the round are refused. -/
theorem run_collect_of_isStart (hcheck : o.check = .ok ()) (hstart : o.IsStart draws count call)
    (attempts : ℕ) :
    (∃ k, call ≤ k ∧ k < call + o.attempts ∧ o.Accepts draws k ∧
      (∀ j, call ≤ j → j < k → ¬ o.Accepts draws j) ∧
      (o.collect draws count (o.newLayouts draws call).reverse (attempts + 1)).run call
        = (o.collect draws count (o.newLayouts draws (k + 1)).reverse attempts).run (k + 1)) ∨
    ((∀ j, call ≤ j → j < call + o.attempts → ¬ o.Accepts draws j) ∧
      (o.collect draws count (o.newLayouts draws call).reverse (attempts + 1)).run call
        = .error (.exhausted o.attempts) (call + o.attempts)) := by
  rw [run_collect_succ, List.length_reverse, length_newLayouts, if_neg hstart.new_lt.ne,
    next_eq hcheck]
  rcases o.run_firstAccepted draws o.attempts call with
    ⟨k, hk, hlt, haccepts, hrefused, hrun⟩ | ⟨hrefused, hrun⟩
  · refine .inl ⟨k, hk, hlt, haccepts, hrefused, ?_⟩
    rw [hrun, ← newLayouts_of_refused hk hrefused]
    dsimp only
    rw [reverse_newLayouts_succ haccepts]
  · exact .inr ⟨hrefused, by rw [hrun]⟩

/-- **A run of the loop** from a draw with which a layout is begun goes on to the first draw after
which drawing ends, and has found the new layouts up to there. -/
theorem exists_run_collect (hcheck : o.check = .ok ()) (draws : DrawSource) (count : ℕ)
    {attempts call : ℕ}
    (hstart : call = 0 ∨ ∃ k, k + 1 = call ∧ o.Accepts draws k)
    (hbefore : ∀ n < call, ¬ o.IsFinished draws count n)
    (hattempts : attempts + Nat.count (o.Accepts draws) call = o.attempts) :
    ∃ made, IsLeast {n | o.IsFinished draws count n} made ∧
      (o.collect draws count (o.newLayouts draws call).reverse attempts).run call =
        if count ≤ Nat.count (o.IsNew draws) made ∨
            o.attempts ≤ Nat.count (o.Accepts draws) made then
          .ok (o.newLayouts draws made).reverse made
        else .error (.exhausted o.attempts) made := by
  have hleast : ∀ {n}, o.IsFinished draws count n → (∀ m < n, ¬ o.IsFinished draws count m) →
      IsLeast {n | o.IsFinished draws count n} n :=
    fun hn hlt => ⟨hn, fun m hm => not_lt.1 fun hmn => hlt m hmn hm⟩
  induction attempts generalizing call with
  | zero =>
    have haccepted : o.attempts ≤ Nat.count (o.Accepts draws) call := by omega
    exact ⟨call, hleast (.inr (.inl haccepted)) hbefore, (if_pos (.inr haccepted)).symm⟩
  | succ attempts ih =>
    by_cases hfull : Nat.count (o.IsNew draws) call = count
    · refine ⟨call, hleast (.inl hfull.ge) hbefore, ?_⟩
      rw [run_collect_succ, List.length_reverse, length_newLayouts, if_pos hfull,
        if_pos (.inl hfull.ge)]
    · have hbegun : o.IsStart draws count call :=
        ⟨hstart, hbefore, lt_of_le_of_ne (count_isNew_le hbefore) hfull, by omega⟩
      rcases run_collect_of_isStart hcheck hbegun attempts with
        ⟨k, hk, hlt, haccepts, hrefused, hrun⟩ | ⟨hrefused, hrun⟩
      · have hgoes : ∀ n < k + 1, ¬ o.IsFinished draws count n := fun n hn =>
          hbegun.not_isFinished (by omega) fun j hj hjn => hrefused j hj (by omega)
        have hcount : attempts + Nat.count (o.Accepts draws) (k + 1) = o.attempts := by
          rw [Nat.count_succ, if_pos haccepts, count_accepts_of_refused hk hrefused]
          omega
        rw [hrun]
        exact ih (.inr ⟨k, rfl, haccepts⟩) hgoes hcount
      · have hgoes : ∀ n < call + o.attempts, ¬ o.IsFinished draws count n := fun n hn =>
          hbegun.not_isFinished hn fun j hj hjn => hrefused j hj (hjn.trans hn)
        refine ⟨call + o.attempts, hleast (.inr (.inr ⟨Nat.le_add_left _ _, ?_⟩)) hgoes, ?_⟩
        · exact fun j hj hle => hrefused j (Nat.add_le_add_iff_right.1 hle) hj
        · rw [hrun, count_isNew_of_refused (Nat.le_add_right _ _) hrefused,
            count_accepts_of_refused (Nat.le_add_right _ _) hrefused, if_neg]
          exact not_or.2 ⟨hbegun.new_lt.not_ge, hbegun.accepted_lt.not_ge⟩

/-- What the loop finds is returned if it is enough. -/
theorem run_nextMany (call : ℕ) :
    (o.nextMany draws count).run call =
      match (o.collect draws count [] o.attempts).run call with
      | .ok found next =>
        if found.length < count then .error (.exhausted o.attempts) next
        else .ok found.reverse next
      | .error e next => .error e next := by
  rw [nextMany, EStateM.run_bind]
  cases (o.collect draws count [] o.attempts).run call with
  | error e next => rfl
  | ok found next =>
    dsimp only
    by_cases hfew : found.length < count
    · rw [if_pos hfew, if_pos hfew]
      rfl
    · rw [if_neg hfew, if_neg hfew]
      rfl

/-- Options that are refused make no draw, and no layout is returned unless none is asked for. -/
theorem run_nextMany_of_check_eq_error {e : AnalysisError α} (hcheck : o.check = .error e)
    (draws : DrawSource) (count : ℕ) :
    (count = 0 ∧ (o.nextMany draws count).run 0 = .ok [] 0) ∨
      ∃ e', (o.nextMany draws count).run 0 = .error e' 0 := by
  have hcollect : (o.collect draws count [] o.attempts).run 0 = .ok [] 0 ∨
      (o.collect draws count [] o.attempts).run 0 = .error e 0 := by
    cases o.attempts with
    | zero => exact .inl rfl
    | succ attempts =>
      rw [run_collect_succ, run_next_of_check_eq_error hcheck]
      by_cases hnone : ([] : List (Layout α)).length = count
      · exact .inl (if_pos hnone)
      · exact .inr (if_neg hnone)
  rw [run_nextMany]
  rcases hcollect with hrun | hrun
  · rw [hrun]
    rcases Nat.eq_zero_or_pos count with rfl | hpos
    · exact .inl ⟨rfl, rfl⟩
    · exact .inr ⟨_, if_pos hpos⟩
  · rw [hrun]
    exact .inr ⟨e, rfl⟩

/-- **A whole run** makes the draws up to the first after which drawing ends. It returns the new
layouts among them if these are as many as are asked for. -/
theorem exists_run_nextMany (hcheck : o.check = .ok ()) (draws : DrawSource) (count : ℕ) :
    ∃ made, IsLeast {n | o.IsFinished draws count n} made ∧
      (o.nextMany draws count).run 0 =
        if count ≤ Nat.count (o.IsNew draws) made then .ok (o.newLayouts draws made) made
        else .error (.exhausted o.attempts) made := by
  obtain ⟨made, hmade, hrun⟩ := exists_run_collect hcheck draws count (.inl rfl)
    (fun n hn => absurd hn n.not_lt_zero) (add_zero o.attempts)
  refine ⟨made, hmade, ?_⟩
  have hempty : (o.newLayouts draws 0).reverse = [] := rfl
  rw [run_nextMany, ← hempty, hrun]
  by_cases hnew : count ≤ Nat.count (o.IsNew draws) made
  · rw [if_pos hnew, if_pos (.inl hnew)]
    dsimp only
    rw [List.length_reverse, length_newLayouts, if_neg hnew.not_gt, List.reverse_reverse]
  · rw [if_neg hnew]
    have hfew : (o.newLayouts draws made).reverse.length < count := by
      rw [List.length_reverse, length_newLayouts]
      exact not_le.1 hnew
    by_cases haccepted : o.attempts ≤ Nat.count (o.Accepts draws) made
    · rw [if_pos (.inr haccepted)]
      dsimp only
      rw [if_pos hfew]
    · rw [if_neg (not_or.2 ⟨hnew, haccepted⟩)]

end Runs

end RandomLayoutOptions

end DanglingBonds
