import Stylesheet.Proofs.Inlining
import Stylesheet.Proofs.Truncation

/-!
Terms that find too few values. How many values stand on the stack before each term can be counted
from the terms alone, whatever they compute, so the first term that finds too few is known before
anything is evaluated. The terms before it are run; it is the one to be blamed unless one of these
fails; and neither it nor any term behind it is carried out. Where the count goes through, no term
of the expression ever finds too few.

All of this holds however calls are carried out, and so at every depth of calls.
-/

namespace Stylesheet

namespace Term

/-- Counted from a stack of `height` values, the terms first run short at `t`, which finds only
`available` values behind the terms before it. -/
structure RunsShort (height : Nat) (terms before : List Term) (t : Term) (available : Nat) :
    Prop where
  split : ∃ after, terms = before ++ t :: after
  count : height? height before = some available
  few : available < t.takes

theorem height?_append (first second : List Term) (height : Nat) :
    height? height (first ++ second) =
      (height? height first).bind fun next => height? next second := by
  induction first generalizing height with
  | nil => rfl
  | cons t rest ih =>
      rw [List.cons_append, height?, height?]
      split
      · exact ih _
      · rfl

/-- The count fails exactly where it first runs short at some term. -/
theorem height?_eq_none_iff {terms : List Term} {height : Nat} :
    height? height terms = none ↔
      ∃ before t available, RunsShort height terms before t available := by
  refine ⟨fun h => ?_, ?_⟩
  · induction terms generalizing height with
    | nil => cases h
    | cons t rest ih =>
        rw [height?] at h
        split at h
        · next htakes =>
            obtain ⟨before, short, available, ⟨after, rfl⟩, hcount, hfew⟩ := ih h
            refine ⟨t :: before, short, available, ⟨after, rfl⟩, ?_, hfew⟩
            rw [height?, if_pos htakes, hcount]
        · next htakes => exact ⟨[], t, height, ⟨rest, rfl⟩, rfl, by omega⟩
  · rintro ⟨before, t, available, ⟨after, rfl⟩, hcount, hfew⟩
    rw [height?_append, hcount, Option.bind_some, height?, if_neg (by omega)]

/-- A count that goes through has gone through the terms before any one, which finds its values. -/
theorem exists_height?_of_split {before after : List Term} {t : Term} {height : Nat}
    (h : (height? height (before ++ t :: after)).isSome) :
    ∃ available, height? height before = some available ∧ t.takes ≤ available := by
  rw [height?_append] at h
  cases hcount : height? height before with
  | none => simp [hcount] at h
  | some available =>
      refine ⟨available, rfl, ?_⟩
      by_contra hfew
      simp [hcount, height?, hfew] at h

end Term

namespace Eval

variable {host : Host} {invoke : Invoke} {scope : Nat}

/-- What a term makes of the values that it takes. -/
def act (host : Host) (invoke : Invoke) (scope : Nat) :
    Term → List (Option Value) → Eval (Option Value)
  | .operator op line, operands => ofExcept (op.apply operands line)
  | .call name _ line, given => invoke name given line
  | t, _ => term host invoke scope t

theorem run_cons (t : Term) (rest : List Term) (stack : Stack) :
    run host invoke scope stack (t :: rest) =
      onTop stack t.takes t.line (act host invoke scope t) >>= fun next =>
        run host invoke scope next rest := by
  cases t with
  | operator op line => rw [run]; rfl
  | call name argc line => rw [run]; rfl
  | _ =>
      rw [run]
      · simp [onTop, Term.takes, act]
      all_goals simp

theorem run_append (first second : List Term) (stack : Stack) :
    run host invoke scope stack (first ++ second) =
      run host invoke scope stack first >>= fun next => run host invoke scope next second := by
  induction first generalizing stack with
  | nil => simp [run]
  | cons t rest ih => simp [run_cons, ih]

section OnTop

variable {stack next : Stack} {count line : Nat}
  {compute : List (Option Value) → Eval (Option Value)}

theorem onTop_of_le (h : count ≤ stack.length) :
    onTop stack count line compute = do
      let result ← compute (stack.take count).reverse
      return result :: stack.drop count := by
  rw [onTop, if_neg (by omega)]

theorem length_of_onTop {scopes last : Scopes}
    (h : onTop stack count line compute scopes = .ok next last) :
    next.length = stack.length - count + 1 := by
  unfold onTop at h
  split at h
  · cases h
  · obtain ⟨result, middle, -, hpush⟩ := Render.ok_of_bind h
    cases hpush
    simp

end OnTop

/-- A run that succeeds leaves as many values as the terms count. -/
theorem length_of_run {terms : List Term} {stack next : Stack} {height : Nat}
    {scopes last : Scopes} (hrun : run host invoke scope stack terms scopes = .ok next last)
    (hheight : Term.height? stack.length terms = some height) : next.length = height := by
  induction terms generalizing stack scopes with
  | nil =>
      cases hheight
      cases hrun
      rfl
  | cons t rest ih =>
      obtain ⟨-, hrest⟩ := Term.height?_cons hheight
      rw [run_cons] at hrun
      obtain ⟨middle, between, hfirst, hothers⟩ := Render.ok_of_bind hrun
      rw [← length_of_onTop hfirst] at hrest
      exact ih hothers hrest

/-- Where the count goes through, a run fails because a term does on the values that it takes. -/
theorem error_of_run {terms : List Term} {stack : Stack} {scopes last : Scopes} {error : Error}
    (hrun : run host invoke scope stack terms scopes = .error error last)
    (hcounted : (Term.height? stack.length terms).isSome) :
    ∃ before t after found middle, terms = before ++ t :: after ∧
      run host invoke scope stack before scopes = .ok found middle ∧
      act host invoke scope t (found.take t.takes).reverse middle = .error error last := by
  induction terms generalizing stack scopes with
  | nil => cases hrun
  | cons t rest ih =>
      obtain ⟨height, hheight⟩ := Option.isSome_iff_exists.mp hcounted
      obtain ⟨htakes, hrest⟩ := Term.height?_cons hheight
      rw [run_cons] at hrun
      rcases Render.error_of_bind hrun with hstep | ⟨next, middle, hstep, hothers⟩
      · rw [onTop_of_le htakes] at hstep
        rcases Render.error_of_bind hstep with hact | ⟨result, middle, -, hpush⟩
        · exact ⟨[], t, rest, stack, scopes, rfl, rfl, hact⟩
        · cases hpush
      · rw [← length_of_onTop hstep] at hrest
        obtain ⟨before, later, after, found, at_, rfl, hbefore, hact⟩ :=
          ih hothers (Option.isSome_of_eq_some hrest)
        refine ⟨t :: before, later, after, found, at_, rfl, ?_, hact⟩
        rw [run_cons, Render.bind_of_ok hstep, hbefore]

theorem error_of_act_operator {op : Operator} {line : Nat} {operands : List (Option Value)}
    {scopes last : Scopes} {error : Error}
    (h : act host invoke scope (.operator op line) operands scopes = .error error last) :
    error = .invalidOperands op line := by
  change ofExcept (op.apply operands line) scopes = .error error last at h
  cases happly : op.apply operands line with
  | ok value =>
      rw [happly] at h
      cases h
  | error refused =>
      rw [happly] at h
      cases h
      exact Operator.error_of_apply happly

theorem expr_of_split {e : Expr} {before after : List Term} (h : e.terms = before ++ after) :
    expr host invoke scope e = run host invoke scope [] before >>= fun stack => do
      return bottom (← run host invoke scope stack after) := by
  rw [expr, h, run_append, bind_assoc]

/-- An expression that runs short: its terms up to that point are run, and nothing else. -/
theorem expr_of_runsShort {e : Expr} {before : List Term} {t : Term} {available : Nat}
    (h : Term.RunsShort 0 e.terms before t available) (scopes : Scopes) :
    expr host invoke scope e scopes =
      (run host invoke scope [] before >>= fun _ =>
        fail (.argumentCount available t.takes t.line)) scopes := by
  obtain ⟨⟨after, hsplit⟩, hcount, hfew⟩ := h
  rw [expr_of_split hsplit]
  cases hrun : run host invoke scope [] before scopes with
  | error error last => rw [Render.bind_of_error hrun, Render.bind_of_error hrun]
  | ok stack last =>
      have hlength : stack.length = available := length_of_run hrun hcount
      rw [Render.bind_of_ok hrun, Render.bind_of_ok hrun, run_cons, onTop, hlength, if_pos hfew]
      rfl

end Eval

/-- Whether a term of an expression finds too few values is told by counting, and so is what happens
then. If the count first runs short at a term, the expression fails: with the error of a term before
it if there is one, and else because of the values that are missing, as they were counted. Scopes
and error are those of the terms before; the term itself and those behind it have no part in it. If
the count goes through, every term finds as many values as were counted, and a failure is one of a
term that had the values it takes: never of an operator or a call for want of them. -/
theorem Expr.shortage_is_counted (host : Host) (invoke : Invoke) (scope : Nat) (e : Expr) :
    (Term.height? 0 e.terms = none ↔
      ∃ before t available, Term.RunsShort 0 e.terms before t available) ∧
    (∀ before t available, Term.RunsShort 0 e.terms before t available → ∀ scopes,
      (∃ error last, Eval.run host invoke scope [] before scopes = .error error last ∧
        Eval.expr host invoke scope e scopes = .error error last) ∨
      ∃ stack last, Eval.run host invoke scope [] before scopes = .ok stack last ∧
        stack.length = available ∧
        Eval.expr host invoke scope e scopes =
          .error (.argumentCount available t.takes t.line) last) ∧
    ((Term.height? 0 e.terms).isSome →
      (∀ before t after, e.terms = before ++ t :: after →
        ∃ height, Term.height? 0 before = some height ∧ t.takes ≤ height ∧
          ∀ scopes stack last, Eval.run host invoke scope [] before scopes = .ok stack last →
            stack.length = height) ∧
      ∀ scopes error last, Eval.expr host invoke scope e scopes = .error error last →
        ∃ before t after stack middle, e.terms = before ++ t :: after ∧
          Eval.run host invoke scope [] before scopes = .ok stack middle ∧
          Eval.act host invoke scope t (stack.take t.takes).reverse middle = .error error last ∧
          ∀ op line, t = .operator op line → error = .invalidOperands op line) := by
  refine ⟨Term.height?_eq_none_iff, ?_, fun hcounted => ⟨?_, ?_⟩⟩
  · intro before t available hshort scopes
    rw [Eval.expr_of_runsShort hshort]
    cases hrun : Eval.run host invoke scope [] before scopes with
    | error error last => exact .inl ⟨error, last, rfl, Render.bind_of_error hrun⟩
    | ok stack last =>
        have hlength : stack.length = available := Eval.length_of_run hrun hshort.count
        exact .inr ⟨stack, last, rfl, hlength, Render.bind_of_ok hrun⟩
  · intro before t after hsplit
    rw [hsplit] at hcounted
    obtain ⟨height, hcount, htakes⟩ := Term.exists_height?_of_split hcounted
    exact ⟨height, hcount, htakes, fun _ _ _ hrun => Eval.length_of_run hrun hcount⟩
  · intro scopes error last hfails
    rcases Render.error_of_bind hfails with hrun | ⟨_, _, -, hpure⟩
    · obtain ⟨before, t, after, stack, middle, hsplit, hbefore, hact⟩ :=
        Eval.error_of_run hrun hcounted
      refine ⟨before, t, after, stack, middle, hsplit, hbefore, hact, ?_⟩
      rintro op line rfl
      exact Eval.error_of_act_operator hact
    · cases hpure

/-- A call that takes two values and finds one, behind a term that fails if `x` is no number. The
operator after it is never reached. -/
def callWithoutArgument : Expr :=
  ⟨[.reference "x" 1, .operator .neg 1, .call "f" 2 2, .operator .add 3], 1⟩

theorem runsShort_callWithoutArgument :
    Term.RunsShort 0 callWithoutArgument.terms [.reference "x" 1, .operator .neg 1]
      (.call "f" 2 2) 1 :=
  ⟨⟨_, rfl⟩, rfl, by decide⟩

/-- With an absent `x` the call is to blame, and with a text the operator before it. -/
theorem shortage_is_counted_callWithoutArgument :
    Term.RunsShort 0 callWithoutArgument.terms [.reference "x" 1, .operator .neg 1]
      (.call "f" 2 2) 1 ∧
    Eval.expr .nothing (Eval.invoke .nothing 0 0) 0 callWithoutArgument .initial =
      .error (.argumentCount 1 2 2) .initial ∧
    Eval.expr .nothing (Eval.invoke .nothing 0 0) 0 callWithoutArgument
        (Scopes.initial.setVariable 0 "x" (some (.str "a"))) =
      .error (.invalidOperands .neg 1) (Scopes.initial.setVariable 0 "x" (some (.str "a"))) := by
  have hshort := runsShort_callWithoutArgument
  have houtcome := (Expr.shortage_is_counted .nothing (Eval.invoke .nothing 0 0) 0
    callWithoutArgument).2.1 _ _ _ hshort
  refine ⟨hshort, ?_, ?_⟩
  · rcases houtcome .initial with ⟨error, last, hbefore, -⟩ | ⟨stack, last, hbefore, -, hfails⟩
    · cases hbefore
    · cases hbefore
      exact hfails
  · rcases houtcome (Scopes.initial.setVariable 0 "x" (some (.str "a"))) with
      ⟨error, last, hbefore, hfails⟩ | ⟨stack, last, hbefore, -, -⟩
    · cases hbefore
      exact hfails
    · cases hbefore

end Stylesheet
