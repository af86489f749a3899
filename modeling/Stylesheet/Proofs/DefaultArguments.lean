import Stylesheet.Proofs.CallGraph
import Stylesheet.Proofs.Inlining

/-!
Missing arguments and their defaults. A call that leaves out arguments computes the defaults of the
parameters they belong to, in the surroundings of the caller; the same call may be written with
these defaults as further arguments, each a nested expression.

The two are not alike at each depth of calls: defaults inside a call are one level deeper than
defaults in front of it. They are alike in how they end, if they end. Depth only ever matters to a
computation that is given up, so from some depth on the answer is always the same.
-/

namespace Stylesheet

/-- Unless the first computation was given up for its depth, the second ends as it does. -/
def Extends {α : Type} (outcome further : Except Error α) : Prop :=
  outcome ≠ .error .callDepth → further = outcome

section Extends

variable {α β : Type}

theorem Extends.refl (outcome : Except Error α) : Extends outcome outcome := fun _ => rfl

theorem Extends.trans {outcome further last : Except Error α} (h : Extends outcome further)
    (hlast : Extends further last) : Extends outcome last := by
  intro hended
  have hsame := h hended
  rw [← hsame] at hended ⊢
  exact hlast hended

theorem Extends.bind_ok {outcome further : Except Error α} {next furtherNext : α → Except Error β}
    (h : Extends outcome further)
    (hnext : ∀ a, outcome = .ok a → Extends (next a) (furtherNext a)) :
    Extends (outcome >>= next) (further >>= furtherNext) := by
  intro hended
  cases outcome with
  | ok a =>
      rw [h (by simp)]
      exact hnext a rfl hended
  | error error =>
      have herror : Except.error (ε := Error) (α := α) error ≠ .error .callDepth := by
        intro hgiven
        cases hgiven
        exact hended rfl
      rw [h herror]
      rfl

theorem Extends.bind {outcome further : Except Error α} {next furtherNext : α → Except Error β}
    (h : Extends outcome further) (hnext : ∀ a, Extends (next a) (furtherNext a)) :
    Extends (outcome >>= next) (further >>= furtherNext) :=
  h.bind_ok fun a _ => hnext a

theorem Extends.mapM {ι : Type} {items : List ι} {f g : ι → Except Error α}
    (h : ∀ i, Extends (f i) (g i)) : Extends (items.mapM f) (items.mapM g) := by
  induction items with
  | nil => exact .refl _
  | cons i rest ih =>
      rw [List.mapM_cons, List.mapM_cons]
      exact (h i).bind fun _ => ih.bind fun _ => .refl _

end Extends

namespace Env

variable {call further : Call} {env : Env}

theorem reduce_extends {compute other : List (Option Value) → Except Error (Option Value)}
    (h : ∀ values, Extends (compute values) (other values)) (stack : Stack) (count line : Nat) :
    Extends (reduce stack count line compute) (reduce stack count line other) := by
  unfold reduce
  split
  · exact .refl _
  · exact (h _).bind fun _ => .refl _

theorem run_extends (h : ∀ name given line, Extends (call env name given line)
    (further env name given line)) : ∀ (terms : List Term) (stack : Stack),
    Extends (run call env stack terms) (run further env stack terms)
  | [], _ => .refl _
  | first :: rest, stack => by
      rw [run_cons, run_cons]
      refine (reduce_extends ?_ stack _ _).bind fun next => run_extends h rest next
      intro values
      cases first with
      | call name argc line => exact h name values line
      | group inner line =>
          have hinner := run_extends h inner []
          exact hinner.bind fun _ => .refl _
      | _ => exact .refl _

theorem expr_extends (h : ∀ name given line, Extends (call env name given line)
    (further env name given line)) (e : Expr) : Extends (expr call env e) (expr further env e) :=
  (run_extends h e.terms []).bind fun _ => .refl _

/-- Programs that begin alike, if what follows does so on every stack of the height that the
beginning leaves. -/
theorem expr_extends_after (h : ∀ name given line, Extends (call env name given line)
    (further env name given line)) {before rest others : List Term} {height : Nat}
    (hbefore : Term.height? 0 before = some height) (line : Nat)
    (hrest : ∀ stack : Stack, stack.length = height →
      Extends (run call env stack rest) (run further env stack others)) :
    Extends (expr call env ⟨before ++ rest, line⟩) (expr further env ⟨before ++ others, line⟩) := by
  unfold expr
  rw [run_append, run_append]
  refine Extends.bind ?_ fun _ => .refl _
  refine (run_extends h before []).bind_ok fun stack hstack => hrest stack ?_
  exact length_of_run hstack hbefore

/-- The value of a parameter without argument. -/
def missing (default : Expr → Except Error (Option Value)) (param : Param) :
    Except Error (Option Value) :=
  (param.default?.map default).getD (.ok none)

theorem missing_extends {default other : Expr → Except Error (Option Value)}
    (h : ∀ e, Extends (default e) (other e)) (param : Param) :
    Extends (missing default param) (missing other param) := by
  unfold missing
  cases param.default? with
  | none => exact .refl _
  | some e => exact h e

/-- Missing arguments may be computed first and given then. -/
theorem arguments_missing (default : Expr → Except Error (Option Value)) (params : List Param)
    {given : List (Option Value)} (h : given.length ≤ params.length) :
    arguments default params given =
      (params.drop given.length).mapM (missing default) >>= fun values =>
        arguments default params (given ++ values) := by
  induction params generalizing given with
  | nil =>
      obtain rfl : given = [] := List.eq_nil_of_length_eq_zero (Nat.le_zero.mp h)
      rfl
  | cons param params ih =>
      cases given with
      | nil =>
          have hrest := @ih [] (Nat.zero_le _)
          rw [List.length_nil, List.drop_zero] at hrest ⊢
          rw [List.mapM_cons, arguments, hrest]
          simp only [bind_assoc, pure_bind, List.nil_append, arguments]
          rfl
      | cons argument given =>
          have hrest := @ih given (Nat.le_of_succ_le_succ h)
          rw [arguments, hrest, List.length_cons, List.drop_succ_cons]
          simp only [bind_assoc, List.cons_append, arguments]

theorem callFunction_missing (f : FunctionDef) {given : List (Option Value)}
    (h : given.length ≤ f.params.length) :
    callFunction call env f given =
      (f.params.drop given.length).mapM (missing (expr call env)) >>= fun values =>
        callFunction call env f (given ++ values) := by
  unfold callFunction
  rw [arguments_missing _ _ h, bind_assoc]

theorem arguments_extends {default other : Expr → Except Error (Option Value)}
    (h : ∀ e, Extends (default e) (other e)) (params : List Param) (given : List (Option Value)) :
    Extends (arguments default params given) (arguments other params given) := by
  induction params generalizing given with
  | nil => exact .refl _
  | cons param params ih =>
      cases given with
      | nil => exact (missing_extends h param).bind fun _ => (ih []).bind fun _ => .refl _
      | cons argument given => exact (ih given).bind fun _ => .refl _

theorem callFunction_extends (h : ∀ place name given line,
    Extends (call place name given line) (further place name given line)) (f : FunctionDef)
    (given : List (Option Value)) :
    Extends (callFunction call env f given) (callFunction further env f given) :=
  (arguments_extends (expr_extends (h env)) f.params given).bind fun bound =>
    expr_extends (h (env.withFrame (.ofList bound))) f.body

/-- A call that was not given up at one depth ends alike at every greater one. -/
theorem invoke_extends {depth deeper : Nat} (h : depth ≤ deeper) (env : Env) (name : String)
    (given : List (Option Value)) (line : Nat) :
    Extends (invoke depth env name given line) (invoke deeper env name given line) := by
  induction depth generalizing deeper env name given line with
  | zero =>
      cases hf : env.function? name with
      | none =>
          rw [invoke_of_none hf, invoke_of_none hf]
          exact .refl _
      | some f =>
          intro hended
          exact absurd (by simp [invoke, dispatch, hf]) hended
  | succ depth ih =>
      obtain ⟨lower, rfl⟩ : ∃ lower, deeper = lower + 1 := ⟨deeper - 1, by omega⟩
      cases hf : env.function? name with
      | none =>
          rw [invoke_of_none hf, invoke_of_none hf]
          exact .refl _
      | some f =>
          rw [invoke_of_some hf, invoke_of_some hf]
          exact callFunction_extends (fun place => ih (Nat.le_of_succ_le_succ h) place) f given

end Env

/-- The default of a parameter as a term of the caller; `blank` is the line of the empty expression
that stands for a default where there is none. -/
def Param.standIn (blank : Nat) (param : Param) : Term :=
  .group (param.default?.getD ⟨[], blank⟩).terms (param.default?.getD ⟨[], blank⟩).line

namespace Env

variable {call : Call} {env : Env}

theorem term_standIn (blank : Nat) (param : Param) :
    term call env (param.standIn blank) = missing (expr call env) param := by
  unfold Param.standIn missing
  cases param.default? with
  | none => rfl
  | some e => rfl

/-- Terms that stand in for parameters push their values in order. -/
theorem run_standIns (blank : Nat) (params : List Param) (stack : Stack) :
    run call env stack (params.map (Param.standIn blank)) =
      params.mapM (missing (expr call env)) >>= fun values => .ok (values.reverse ++ stack) := by
  induction params generalizing stack with
  | nil => rfl
  | cons param params ih =>
      have hfirst : run call env stack [param.standIn blank] =
          missing (expr call env) param >>= fun value => .ok (value :: stack) := by
        rw [← term_standIn blank]
        rfl
      rw [List.map_cons, ← List.singleton_append, run_append, hfirst, List.mapM_cons]
      simp only [bind_assoc, pure_bind]
      refine bind_congr fun value => ?_
      change run call env (value :: stack) _ = _
      rw [ih]
      exact bind_congr fun values => by simp

/-- Values pushed last are the last of those taken. -/
theorem reduce_pushed {stack : Stack} {count : Nat} (h : count ≤ stack.length)
    (values : List (Option Value)) (line : Nat)
    (compute : List (Option Value) → Except Error (Option Value)) :
    reduce (values.reverse ++ stack) (count + values.length) line compute =
      reduce stack count line fun given => compute (given ++ values) := by
  have hfew : ¬ stack.length < count := by omega
  have hfew' : ¬ (values.reverse ++ stack).length < count + values.length := by
    rw [List.length_append, List.length_reverse]
    omega
  have htake : (values.reverse ++ stack).take (count + values.length) =
      values.reverse ++ stack.take count := by
    rw [Nat.add_comm, ← List.length_reverse, List.take_length_add_append]
  have hdrop : (values.reverse ++ stack).drop (count + values.length) = stack.drop count := by
    rw [Nat.add_comm, ← List.length_reverse, List.drop_length_add_append]
  rw [reduce, reduce, if_neg hfew, if_neg hfew', htake, hdrop, List.reverse_append,
    List.reverse_reverse]

theorem length_of_mapM {params : List Param} {value : Param → Except Error (Option Value)}
    {values : List (Option Value)} (h : params.mapM value = .ok values) :
    values.length = params.length := by
  induction params generalizing values with
  | nil =>
      cases h
      rfl
  | cons param params ih =>
      rw [List.mapM_cons] at h
      cases hfirst : value param with
      | error error =>
          rw [hfirst] at h
          cases h
      | ok first =>
          cases hrest : params.mapM value with
          | error error =>
              rw [hfirst, hrest] at h
              cases h
          | ok rest =>
              rw [hfirst, hrest] at h
              cases h
              simp [ih hrest]

section Missing

variable {name : String} {f : FunctionDef} {stack : Stack} {count : Nat}

/-- A call with the defaults in front of it computes them first. -/
theorem run_call_standIns (h : count ≤ stack.length) (params : List Param) (blank line : Nat)
    (rest : List Term) :
    run call env stack (params.map (Param.standIn blank) ++
        (.call name (count + params.length) line :: rest)) =
      params.mapM (missing (expr call env)) >>= fun values =>
        reduce stack count line (fun given => call env name (given ++ values) line) >>= fun next =>
          run call env next rest := by
  rw [run_append, run_standIns]
  cases hvalues : params.mapM (missing (expr call env)) with
  | error error => rfl
  | ok values =>
      change run call env (values.reverse ++ stack) _ = _
      rw [run, ← length_of_mapM hvalues, reduce_pushed h]
      rfl

/-- So does a call without them, one level deeper. -/
theorem run_call_missing (hf : env.function? name = some f) (h : count ≤ stack.length)
    (hcount : count ≤ f.params.length) (depth line : Nat) (rest : List Term) :
    run (invoke (depth + 1)) env stack (.call name count line :: rest) =
      (f.params.drop count).mapM (missing (expr (invoke depth) env)) >>= fun values =>
        reduce stack count line (fun given => invoke (depth + 1) env name (given ++ values) line) >>=
          fun next => run (invoke (depth + 1)) env next rest := by
  have hfew : ¬ stack.length < count := by omega
  have hgiven : (stack.take count).reverse.length = count := by
    rw [List.length_reverse, List.length_take, Nat.min_eq_left h]
  have hmissing : callFunction (invoke depth) env f (stack.take count).reverse = _ :=
    callFunction_missing f (by rw [hgiven]; exact hcount)
  rw [hgiven] at hmissing
  simp only [run, reduce, if_neg hfew, invoke_of_some hf, hmissing, bind_assoc]

/-- Defaults in front of the call make no difference to a call that ends: within a depth that is
enough for the call without them. -/
theorem run_standIns_extends (hf : env.function? name = some f) (h : count ≤ stack.length)
    (hcount : count ≤ f.params.length) (depth blank line : Nat) (rest : List Term) :
    Extends (run (invoke (depth + 1)) env stack (.call name count line :: rest))
      (run (invoke (depth + 1)) env stack ((f.params.drop count).map (Param.standIn blank) ++
        (.call name f.params.length line :: rest))) := by
  have hlength : f.params.length = count + (f.params.drop count).length := by
    rw [List.length_drop]
    omega
  rw [run_call_missing hf h hcount, hlength, run_call_standIns h]
  refine Extends.bind (.mapM ?_) fun values => .refl _
  exact missing_extends (expr_extends (invoke_extends (Nat.le_succ depth) env))

/-- Nor do they the other way round, with one level more. -/
theorem run_missing_extends (hf : env.function? name = some f) (h : count ≤ stack.length)
    (hcount : count ≤ f.params.length) (depth blank line : Nat) (rest : List Term) :
    Extends
      (run (invoke depth) env stack ((f.params.drop count).map (Param.standIn blank) ++
        (.call name f.params.length line :: rest)))
      (run (invoke (depth + 1)) env stack (.call name count line :: rest)) := by
  have hlength : f.params.length = count + (f.params.drop count).length := by
    rw [List.length_drop]
    omega
  have hdeeper := invoke_extends (Nat.le_succ depth) env
  rw [run_call_missing hf h hcount, hlength, run_call_standIns h]
  refine Extends.bind (.refl _) fun values => ?_
  refine Extends.bind ?_ (run_extends hdeeper rest)
  exact reduce_extends (fun given => hdeeper name (given ++ values) line) stack count line

end Missing

end Env

namespace Scopes

/-- Evaluation of the expression in the scope ends with this result: it is not given up, and from
some depth of calls on the depth makes no difference. -/
def Ends (scopes : Scopes) (host : Host) (scope : Nat) (e : Expr)
    (result : EStateM.Result Error Scopes (Option Value)) : Prop :=
  (∀ after, result ≠ .error .callDepth after) ∧
    ∃ enough, ∀ depth, enough ≤ depth →
      Eval.expr host (Eval.invoke host scope depth) scope e scopes = result

/-- Evaluation of the expression in the scope is given up at every depth of calls. -/
def Diverges (scopes : Scopes) (host : Host) (scope : Nat) (e : Expr) : Prop :=
  ∀ depth, ∃ after,
    Eval.expr host (Eval.invoke host scope depth) scope e scopes = .error .callDepth after

variable {scopes : Scopes} {host : Host} {scope : Nat} {e : Expr}
  {result other : EStateM.Result Error Scopes (Option Value)}

theorem Ends.unique (h : scopes.Ends host scope e result) (hother : scopes.Ends host scope e other) :
    result = other := by
  obtain ⟨-, enough, hresult⟩ := h
  obtain ⟨-, enough', hresult'⟩ := hother
  rw [← hresult _ (Nat.le_max_left enough enough'), hresult' _ (Nat.le_max_right enough enough')]

theorem expr_eq_ofExcept (hlive : scope < scopes.count) (depth : Nat) (e : Expr) :
    Eval.expr host (Eval.invoke host scope depth) scope e scopes =
      Eval.ofExcept (Env.expr (Env.invoke depth) (scopes.env host scope) e) scopes :=
  Eval.expr_yields (valueOf_eq_env_value hlive host) (Eval.invoke_yields host hlive depth) e

theorem ofExcept_eq_callDepth_iff {outcome : Except Error (Option Value)} :
    (∃ after, Eval.ofExcept outcome scopes = .error .callDepth after) ↔
      outcome = .error .callDepth := by
  refine ⟨?_, ?_⟩
  · rintro ⟨after, h⟩
    cases outcome with
    | ok value => cases h
    | error error =>
        cases h
        rfl
  · rintro rfl
    exact ⟨scopes, rfl⟩

/-- One depth at which the evaluation is not given up tells its end. -/
theorem ends_of_env (hlive : scope < scopes.count) {depth : Nat}
    (h : Env.expr (Env.invoke depth) (scopes.env host scope) e ≠ .error .callDepth) :
    scopes.Ends host scope e
      (Eval.ofExcept (Env.expr (Env.invoke depth) (scopes.env host scope) e) scopes) := by
  refine ⟨fun after hgiven => h (ofExcept_eq_callDepth_iff.mp ⟨after, hgiven⟩), depth, ?_⟩
  intro deeper hdeeper
  have hsame := Env.expr_extends (Env.invoke_extends hdeeper (scopes.env host scope)) e h
  rw [expr_eq_ofExcept hlive, hsame]

theorem Ends.exists_env (hlive : scope < scopes.count) (h : scopes.Ends host scope e result) :
    ∃ enough, ∀ depth, enough ≤ depth →
      Env.expr (Env.invoke depth) (scopes.env host scope) e ≠ .error .callDepth ∧
      result = Eval.ofExcept (Env.expr (Env.invoke depth) (scopes.env host scope) e) scopes := by
  obtain ⟨hended, enough, hresult⟩ := h
  refine ⟨enough, fun depth hdepth => ?_⟩
  have hsame := hresult depth hdepth
  rw [expr_eq_ofExcept hlive] at hsame
  refine ⟨fun hgiven => ?_, hsame.symm⟩
  obtain ⟨after, hafter⟩ := ofExcept_eq_callDepth_iff.mpr hgiven
  exact hended after (hsame.symm.trans hafter)

/-- An evaluation that never ends is one that is always given up. -/
theorem diverges_iff (hlive : scope < scopes.count) :
    scopes.Diverges host scope e ↔ ∀ result, ¬ scopes.Ends host scope e result := by
  refine ⟨?_, ?_⟩
  · rintro hdiverges result ⟨hended, enough, hresult⟩
    obtain ⟨after, hafter⟩ := hdiverges enough
    exact hended after ((hresult enough (Nat.le_refl _)).symm.trans hafter)
  · intro hnever depth
    rw [expr_eq_ofExcept hlive, ofExcept_eq_callDepth_iff]
    by_contra hended
    exact hnever _ (ends_of_env hlive hended)

/-- Where no circle of calls is in sight, evaluation ends as it is carried out. -/
theorem ends_evaluate (hlive : scope < scopes.count) (h : Acyclic (scopes.Calls scope)) (e : Expr) :
    scopes.Ends host scope e (scopes.evaluate host scope e) := by
  have hallowed : scopes.functionCount ≤ callAllowance scopes.functionCount :=
    Nat.le_add_right _ 500
  refine ⟨(expr_of_acyclic hlive h host hallowed hallowed e).2, scopes.functionCount, ?_⟩
  exact fun depth hdepth => (expr_of_acyclic hlive h host hallowed hdepth e).1

/-- If each of two expressions, where it is not given up, has the outcome of the other at the next
depth, both end alike. -/
theorem ends_iff_of_extends (hlive : scope < scopes.count) {e other : Expr}
    (h : ∀ depth, Extends (Env.expr (Env.invoke depth) (scopes.env host scope) e)
      (Env.expr (Env.invoke (depth + 1)) (scopes.env host scope) other))
    (hback : ∀ depth, Extends (Env.expr (Env.invoke depth) (scopes.env host scope) other)
      (Env.expr (Env.invoke (depth + 1)) (scopes.env host scope) e)) :
    scopes.Ends host scope e result ↔ scopes.Ends host scope other result := by
  have hends {e other : Expr}
      (h : ∀ depth, Extends (Env.expr (Env.invoke depth) (scopes.env host scope) e)
        (Env.expr (Env.invoke (depth + 1)) (scopes.env host scope) other))
      (he : scopes.Ends host scope e result) : scopes.Ends host scope other result := by
    obtain ⟨enough, houtcome⟩ := he.exists_env hlive
    obtain ⟨hended, rfl⟩ := houtcome enough (Nat.le_refl _)
    have hsame := h enough hended
    rw [← hsame] at hended ⊢
    exact ends_of_env hlive hended
  exact ⟨hends h, hends hback⟩

end Scopes

/-- A call that leaves out the last arguments of a sheet function ends like the call with the
defaults of their parameters written in front of it, an empty expression where there is no default:
with the same value or the same error, or not at all. The terms before must leave the arguments that
are given, and whatever follows may use the result. Without recursion both are carried out alike. -/
theorem defaults_as_arguments (host : Host) (scopes : Scopes) (scope : Nat)
    (hlive : scope < scopes.count) {name : String} {f : FunctionDef}
    (hf : scopes.function? scope name = some f) {count : Nat} (hcount : count < f.params.length)
    {before : List Term} {height : Nat} (hbefore : Term.height? 0 before = some height)
    (hgiven : count ≤ height) (after : List Term) (line outer blank : Nat) :
    let short : Expr := ⟨before ++ [.call name count line] ++ after, outer⟩
    let full : Expr := ⟨before ++ (f.params.drop count).map (Param.standIn blank) ++
      [.call name f.params.length line] ++ after, outer⟩
    (∀ result, scopes.Ends host scope short result ↔ scopes.Ends host scope full result) ∧
      (scopes.Diverges host scope short ↔ scopes.Diverges host scope full) ∧
      (Acyclic (scopes.Calls scope) →
        scopes.evaluate host scope short = scopes.evaluate host scope full) := by
  intro short full
  have hends (result : EStateM.Result Error Scopes (Option Value)) :
      scopes.Ends host scope short result ↔ scopes.Ends host scope full result := by
    have henv : (scopes.env host scope).function? name = some f := hf
    apply Scopes.ends_iff_of_extends hlive
    · intro depth
      have hmore := Env.invoke_extends (Nat.le_succ depth) (scopes.env host scope)
      refine (Env.expr_extends hmore short).trans ?_
      simp only [short, full, List.append_assoc]
      refine Env.expr_extends_after (fun _ _ _ => .refl _) hbefore outer fun stack hstack => ?_
      exact Env.run_standIns_extends henv (hstack ▸ hgiven) hcount.le depth blank line after
    · intro depth
      have hmore := Env.invoke_extends (Nat.le_succ depth) (scopes.env host scope)
      simp only [short, full, List.append_assoc]
      refine Env.expr_extends_after hmore hbefore outer fun stack hstack => ?_
      exact Env.run_missing_extends henv (hstack ▸ hgiven) hcount.le depth blank line after
  refine ⟨hends, ?_, ?_⟩
  · rw [Scopes.diverges_iff hlive, Scopes.diverges_iff hlive]
    exact forall_congr' fun result => not_congr (hends result)
  · intro hacyclic
    exact ((hends _).mp (Scopes.ends_evaluate hlive hacyclic short)).unique
      (Scopes.ends_evaluate hlive hacyclic full)

/-- A call under way with the argument `c`. The function `f` takes `a`, which has no default, `b`,
which defaults to the caller's `c`, and `d`, which defaults to a call of `g`. -/
def scopesOfDefaults : Scopes :=
  let params : List Param := [⟨"a", none⟩, ⟨"b", some ⟨[.reference "c" 1], 1⟩⟩,
    ⟨"d", some ⟨[.call "g" 0 1], 1⟩⟩]
  let body : Expr := ⟨[.reference "a" 1, .reference "b" 1, .operator .concat 1, .reference "d" 1,
    .operator .concat 1], 1⟩
  let functions := [⟨"f", params, body, 1⟩, ⟨"g", [], ⟨[.constant (.str "g") 2], 2⟩, 2⟩]
  ⟨[{ frames := [.ofList [("c", some (.str "c"))]],
      functions := .ofList (functions.map fun f : FunctionDef => (f.name, f)) }]⟩

theorem acyclic_scopesOfDefaults : Acyclic (scopesOfDefaults.Calls 0) := by
  let rank (name : String) : Nat := if name = "f" then 1 else 0
  have hfalls : ∀ name ∈ scopesOfDefaults.functionNames, ∀ f ∈ scopesOfDefaults.function? 0 name,
      ∀ callee ∈ f.calls, rank callee < rank name := by
    decide
  apply Acyclic.of_rank rank
  rintro name callee ⟨f, hf, hcallee, -⟩
  have hname : name ∈ scopesOfDefaults.functionNames :=
    Scopes.mem_functionNames (Option.isSome_of_eq_some hf)
  exact hfalls name hname f hf callee hcallee

/-- Two arguments of `f` are left out, and its result is used on. -/
def callWithDefaults : Expr :=
  ⟨[.constant (.str "a") 3] ++ [.call "f" 1 3] ++
    [.constant (.str "!") 3, .operator .concat 3], 3⟩

/-- The same with all three arguments. -/
def callInFull : Expr :=
  ⟨[.constant (.str "a") 3] ++ [.group [.reference "c" 1] 1, .group [.call "g" 0 1] 1] ++
    [.call "f" 3 3] ++ [.constant (.str "!") 3, .operator .concat 3], 3⟩

theorem defaults_as_arguments_of_caller :
    0 < scopesOfDefaults.count ∧
      ((scopesOfDefaults.function? 0 "f").map fun f => f.params.length) = some 3 ∧
      Term.height? 0 [.constant (.str "a") 3] = some 1 ∧
      Acyclic (scopesOfDefaults.Calls 0) ∧
      (∀ result, scopesOfDefaults.Ends .nothing 0 callWithDefaults result ↔
        scopesOfDefaults.Ends .nothing 0 callInFull result) ∧
      scopesOfDefaults.evaluate .nothing 0 callWithDefaults =
        .ok (some (.str "acg!")) scopesOfDefaults ∧
      scopesOfDefaults.evaluate .nothing 0 callInFull =
        .ok (some (.str "acg!")) scopesOfDefaults := by
  have hlive : 0 < scopesOfDefaults.count := by decide
  have hheight : Term.height? 0 [.constant (.str "a") 3] = some 1 := rfl
  obtain ⟨hends, -, hevaluate⟩ := @defaults_as_arguments .nothing scopesOfDefaults 0 hlive "f" _ rfl
    1 (by decide) _ _ hheight (Nat.le_refl 1) [.constant (.str "!") 3, .operator .concat 3] 3 3 0
  have hsame : scopesOfDefaults.evaluate .nothing 0 callWithDefaults =
      scopesOfDefaults.evaluate .nothing 0 callInFull := hevaluate acyclic_scopesOfDefaults
  have hshallow : Eval.expr .nothing (Eval.invoke .nothing 0 2) 0 callInFull scopesOfDefaults =
      .ok (some (.str "acg!")) scopesOfDefaults := rfl
  have htwo : scopesOfDefaults.functionCount ≤ 2 := by decide
  have hfull : scopesOfDefaults.evaluate .nothing 0 callInFull =
      .ok (some (.str "acg!")) scopesOfDefaults :=
    (Scopes.expr_of_acyclic hlive acyclic_scopesOfDefaults .nothing htwo
      (Nat.le_add_right _ 500) callInFull).1.trans hshallow
  exact ⟨hlive, rfl, hheight, acyclic_scopesOfDefaults, hends, hsame.trans hfull, hfull⟩

end Stylesheet
