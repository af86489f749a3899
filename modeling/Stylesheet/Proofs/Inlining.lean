import Stylesheet.Proofs.ErrorCauses

/-!
Nested expressions and the flat programs they stand for. A nested expression runs on a stack of its
own. Its terms may as well run on top of the stack around them, as long as they never reach below
their own values and leave exactly one: this can be counted from the kinds of the terms. The value
of an expression is the bottom of its stack, so a nested expression that leaves more than one value
drops what inlining it would keep.
-/

namespace Stylesheet

namespace Term

/-- How many values stand on the stack after the terms, if `height` stood there before, counted by
what each term takes and pushes. There is no answer where a term finds too few. -/
def height? : Nat → List Term → Option Nat
  | height, [] => some height
  | height, t :: rest =>
      if t.takes ≤ height then height? (height - t.takes + 1) rest else none

mutual

/-- The term with every nested expression replaced by its terms. -/
def flat : Term → List Term
  | .group terms _ => flatAll terms
  | t => [t]

def flatAll : List Term → List Term
  | [] => []
  | first :: rest => first.flat ++ flatAll rest

end

theorem height?_cons {height last : Nat} {t : Term} {rest : List Term}
    (h : height? height (t :: rest) = some last) :
    t.takes ≤ height ∧ height? (height - t.takes + 1) rest = some last := by
  rw [height?] at h
  split at h
  · next htakes => exact ⟨htakes, h⟩
  · cases h

end Term

namespace Env

variable {call : Call} {env : Env}

/-- What a term makes of the values that it takes. -/
def act (call : Call) (env : Env) : Term → List (Option Value) → Except Error (Option Value)
  | .operator op line, operands => op.apply operands line
  | .call name _ line, given => call env name given line
  | t, _ => term call env t

theorem run_cons (t : Term) (rest : List Term) (stack : Stack) :
    run call env stack (t :: rest) =
      reduce stack t.takes t.line (act call env t) >>= fun next => run call env next rest := by
  cases t with
  | operator op line => rfl
  | call name argc line => rfl
  | _ =>
      rw [run]
      · simp [reduce, Term.takes, act]
      all_goals simp

theorem run_append (first second : List Term) (stack : Stack) :
    run call env stack (first ++ second) =
      run call env stack first >>= fun next => run call env next second := by
  induction first generalizing stack with
  | nil => rfl
  | cons t rest ih => simp [run_cons, ih]

/-- Values below those that are taken stay where they are. -/
theorem reduce_append {stack : Stack} {count : Nat} (h : count ≤ stack.length) (below : Stack)
    (line : Nat) (compute : List (Option Value) → Except Error (Option Value)) :
    reduce (stack ++ below) count line compute =
      (· ++ below) <$> reduce stack count line compute := by
  have hfew : ¬ stack.length < count := by omega
  have hfew' : ¬ (stack ++ below).length < count := by
    rw [List.length_append]
    omega
  rw [reduce, reduce, if_neg hfew, if_neg hfew', List.take_append_of_le_length h,
    List.drop_append_of_le_length h]
  simp

/-- A run that never takes more than it finds leaves the values below it alone. -/
theorem run_append_below {terms : List Term} {stack : Stack} {height : Nat}
    (h : Term.height? stack.length terms = some height) (below : Stack) :
    run call env (stack ++ below) terms = (· ++ below) <$> run call env stack terms := by
  induction terms generalizing stack with
  | nil => rfl
  | cons t rest ih =>
      obtain ⟨htakes, hrest⟩ := Term.height?_cons h
      rw [run_cons, run_cons, reduce_append htakes]
      cases hone : reduce stack t.takes t.line (act call env t) with
      | error error => rfl
      | ok next =>
          rw [← length_of_reduce hone] at hrest
          exact ih hrest

/-- The number of values that a successful run leaves is the one counted. -/
theorem length_of_run {terms : List Term} {stack next : Stack} {height : Nat}
    (hrun : run call env stack terms = .ok next)
    (hheight : Term.height? stack.length terms = some height) : next.length = height := by
  induction terms generalizing stack with
  | nil =>
      cases hheight
      cases hrun
      rfl
  | cons t rest ih =>
      obtain ⟨-, hrest⟩ := Term.height?_cons hheight
      rw [run_cons] at hrun
      cases hone : reduce stack t.takes t.line (act call env t) with
      | error error =>
          rw [hone] at hrun
          cases hrun
      | ok middle =>
          rw [hone] at hrun
          rw [← length_of_reduce hone] at hrest
          exact ih hrun hrest

/-- A nested expression that leaves one value may give way to its terms. -/
theorem run_group {inner : List Term} (h : Term.height? 0 inner = some 1) (line : Nat)
    (rest : List Term) (stack : Stack) :
    run call env stack (.group inner line :: rest) = run call env stack (inner ++ rest) := by
  have hgroup : run call env stack (.group inner line :: rest) =
      run call env [] inner >>= fun left => run call env (Eval.bottom left :: stack) rest := by
    rw [run, term, bind_assoc]
    · rfl
    all_goals simp
  have hempty : Term.height? ([] : Stack).length inner = some 1 := h
  have hinner : run call env stack inner = (· ++ stack) <$> run call env [] inner :=
    run_append_below hempty stack
  rw [hgroup, run_append, hinner]
  cases hrun : run call env [] inner with
  | error error => rfl
  | ok left =>
      have hone : left.length = 1 := length_of_run hrun h
      obtain ⟨value, rfl⟩ := List.length_eq_one_iff.mp hone
      rfl

theorem run_flatAll : ∀ (terms : List Term) (stack : Stack),
    (∀ inner ∈ Term.groups terms, Term.height? 0 inner = some 1) →
    run call env stack terms = run call env stack (Term.flatAll terms)
  | [], _, _ => rfl
  | first :: rest, stack, h => by
      have hrest (next : Stack) : run call env next rest = run call env next (Term.flatAll rest) :=
        run_flatAll rest next fun inner hinner =>
          h inner (Term.groups_mono (Term.nestedAll_behind first rest) hinner)
      cases first with
      | group inner line =>
          have hself : Term.height? 0 inner = some 1 :=
            h inner (Term.mem_groups_inside List.mem_cons_self)
          have hinner : run call env stack inner = run call env stack (Term.flatAll inner) :=
            run_flatAll inner stack fun deeper hdeeper =>
              h deeper (Term.mem_groups_inside (List.mem_cons_of_mem _ hdeeper))
          rw [run_group hself, Term.flatAll, Term.flat, run_append, run_append, hinner]
          exact bind_congr hrest
      | _ =>
          rw [Term.flatAll, Term.flat, ← List.singleton_append, run_append, run_append]
          · exact bind_congr hrest
          all_goals simp

theorem expr_of_run_eq {terms others : List Term} (line other : Nat)
    (h : run call env [] terms = run call env [] others) :
    expr call env ⟨terms, line⟩ = expr call env ⟨others, other⟩ := by
  rw [expr, expr, h]

end Env

/-- Expressions that the environment of a live scope values alike are evaluated alike in it. -/
theorem Eval.expr_eq_of_env {host : Host} {scopes : Scopes} {scope depth : Nat}
    (hlive : scope < scopes.count) {e other : Expr}
    (h : Env.expr (Env.invoke depth) (scopes.env host scope) e =
      Env.expr (Env.invoke depth) (scopes.env host scope) other) :
    Eval.expr host (Eval.invoke host scope depth) scope e scopes =
      Eval.expr host (Eval.invoke host scope depth) scope other scopes := by
  have hyields (e : Expr) := Eval.expr_yields (Scopes.valueOf_eq_env_value hlive host)
    (Eval.invoke_yields host hlive depth) e
  rw [hyields e, hyields other, h]

/-- A nested expression that never takes more than it has pushed and leaves exactly one value gives
way to its terms, wherever it stands: the whole has the same value or the same error, and at every
depth of calls, so that neither ends where the other does not. Done at every place, this turns an
expression that is nested in this way throughout into a flat one. -/
theorem nested_expression_inlined (host : Host) (scopes : Scopes) (scope depth : Nat)
    (hlive : scope < scopes.count) :
    (∀ (before after : List Term) (e : Expr) (line : Nat), Term.height? 0 e.terms = some 1 →
      Eval.expr host (Eval.invoke host scope depth) scope
          ⟨before ++ [.group e.terms e.line] ++ after, line⟩ scopes =
        Eval.expr host (Eval.invoke host scope depth) scope
          ⟨before ++ e.terms ++ after, line⟩ scopes) ∧
    (∀ e : Expr, (∀ inner ∈ Term.groups e.terms, Term.height? 0 inner = some 1) →
      Eval.expr host (Eval.invoke host scope depth) scope e scopes =
        Eval.expr host (Eval.invoke host scope depth) scope
          ⟨Term.flatAll e.terms, e.line⟩ scopes) := by
  refine ⟨?_, ?_⟩
  · intro before after e line hone
    apply Eval.expr_eq_of_env hlive
    apply Env.expr_of_run_eq
    rw [List.append_assoc, List.append_assoc, Env.run_append, Env.run_append]
    exact bind_congr fun stack => Env.run_group hone e.line after stack
  · intro e hnested
    apply Eval.expr_eq_of_env hlive
    exact Env.expr_of_run_eq e.line e.line (Env.run_flatAll e.terms [] hnested)

/-- An expression without terms pushes an absent value, and its terms push nothing. -/
example :
    Eval.expr .nothing (Eval.invoke .nothing 0 0) 0
        ⟨[.group [] 1, .constant (.bool true) 1], 1⟩ .initial = .ok none .initial ∧
      Eval.expr .nothing (Eval.invoke .nothing 0 0) 0
        ⟨[.constant (.bool true) 1], 1⟩ .initial = .ok (some (.bool true)) .initial :=
  ⟨rfl, rfl⟩

/-- A scope that calls the function of its parent, which joins its two arguments. -/
def scopesOfJoin : Scopes :=
  let joined : Expr := ⟨[.reference "a" 1, .reference "b" 1, .operator .concat 1], 1⟩
  ⟨[{ parent := some 0, values := .ofList [("x", some (.str "x"))] },
    { functions := .ofList [("join", ⟨"join", [⟨"a", none⟩, ⟨"b", none⟩], joined, 1⟩)] }]⟩

/-- A call whose second argument is a call within a nested expression. -/
def joinOfJoin : Expr :=
  ⟨[.constant (.str "a") 2, .group [.reference "x" 2, .group [.constant (.str "c") 2] 2,
    .call "join" 2 2] 2, .call "join" 2 2], 2⟩

theorem nested_expression_inlined_in_argument :
    1 < scopesOfJoin.count ∧
      Term.height? 0 [.reference "x" 2, .constant (.str "c") 2, .call "join" 2 2] = some 1 ∧
      (∀ inner ∈ Term.groups joinOfJoin.terms, Term.height? 0 inner = some 1) ∧
      Eval.expr .nothing (Eval.invoke .nothing 1 1) 1
        ⟨[.constant (.str "a") 2] ++ [.group [.reference "x" 2, .constant (.str "c") 2,
          .call "join" 2 2] 2] ++ [.call "join" 2 2], 2⟩ scopesOfJoin =
        .ok (some (.str "axc")) scopesOfJoin ∧
      Eval.expr .nothing (Eval.invoke .nothing 1 1) 1 joinOfJoin scopesOfJoin =
        .ok (some (.str "axc")) scopesOfJoin := by
  have hlive : 1 < scopesOfJoin.count := by decide
  have hone : Term.height? 0 [.reference "x" 2, .constant (.str "c") 2, .call "join" 2 2] =
      some 1 := rfl
  have hnested : ∀ inner ∈ Term.groups joinOfJoin.terms, Term.height? 0 inner = some 1 := by
    decide
  obtain ⟨hplace, hflat⟩ := nested_expression_inlined .nothing scopesOfJoin 1 1 hlive
  have hfirst := hplace [.constant (.str "a") 2] [.call "join" 2 2]
    ⟨[.reference "x" 2, .constant (.str "c") 2, .call "join" 2 2], 2⟩ 2 hone
  exact ⟨hlive, hone, hnested, hfirst.trans rfl, (hflat joinOfJoin hnested).trans rfl⟩

end Stylesheet
