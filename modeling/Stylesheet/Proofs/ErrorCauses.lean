import Stylesheet.Proofs.Environment

/-!
Where the errors of an evaluation come from. What an expression takes off its stack and which names
it calls can be read off its terms, at every depth of nesting. An error of its evaluation is one of
three: a term found too few values, an operator refused its operands, or a call failed. Nothing else
about its place matters than the variables it refers to and how the names that it calls are carried
out, so two places that agree on these give the same value.
-/

namespace Stylesheet

namespace Term

/-- How many values the term takes off the stack. It pushes one. -/
def takes : Term → Nat
  | .operator op _ => op.arity
  | .call _ argc _ => argc
  | _ => 0

/-- Does every term find as many values as it takes, if the stack holds `depth` values first? -/
def balanced : Nat → List Term → Bool
  | _, [] => true
  | depth, t :: rest => decide (t.takes ≤ depth) && balanced (depth - t.takes + 1) rest

mutual

/-- The term and all terms inside it. -/
def nested : Term → List Term
  | .group terms line => .group terms line :: nestedAll terms
  | t => [t]

def nestedAll : List Term → List Term
  | [] => []
  | first :: rest => first.nested ++ nestedAll rest

end

def callee? : Term → Option String
  | .call name _ _ => some name
  | _ => none

def referent? : Term → Option String
  | .reference name _ => some name
  | _ => none

def inner? : Term → Option (List Term)
  | .group terms _ => some terms
  | _ => none

/-- The names that are called, in nested expressions too. -/
def callees (terms : List Term) : List String :=
  (nestedAll terms).filterMap callee?

/-- The variables that are referred to, in nested expressions too. -/
def references (terms : List Term) : List String :=
  (nestedAll terms).filterMap referent?

/-- The nested expressions, at any depth. -/
def groups (terms : List Term) : List (List Term) :=
  (nestedAll terms).filterMap inner?

theorem mem_nestedAll_self (t : Term) (rest : List Term) : t ∈ nestedAll (t :: rest) := by
  rw [nestedAll]
  cases t <;> simp [nested]

theorem nestedAll_behind (first : Term) (rest : List Term) :
    nestedAll rest ⊆ nestedAll (first :: rest) := by
  rw [nestedAll]
  exact List.subset_append_right _ _

/-- The terms of a group are nested in what the group stands among. -/
theorem nestedAll_inside (inner : List Term) (line : Nat) (rest : List Term) :
    nestedAll inner ⊆ nestedAll (.group inner line :: rest) := by
  rw [nestedAll, nested]
  exact List.subset_append_of_subset_left _ (List.subset_cons_self _ _)

theorem nestedAll_alone {t : Term} {terms : List Term} (h : t ∈ terms) :
    nestedAll [t] ⊆ nestedAll terms := by
  induction terms with
  | nil => cases h
  | cons first rest ih =>
      rcases List.mem_cons.mp h with rfl | hrest
      · rw [nestedAll, nestedAll, nestedAll, List.append_nil]
        exact List.subset_append_left _ _
      · exact List.Subset.trans (ih hrest) (nestedAll_behind first rest)

/-- A nested call is one of the callees. -/
theorem mem_callees {name : String} {argc line : Nat} {terms : List Term}
    (h : .call name argc line ∈ nestedAll terms) : name ∈ callees terms :=
  List.mem_filterMap.mpr ⟨_, h, rfl⟩

theorem mem_references {name : String} {line : Nat} {terms : List Term}
    (h : .reference name line ∈ nestedAll terms) : name ∈ references terms :=
  List.mem_filterMap.mpr ⟨_, h, rfl⟩

/-- Fewer nested terms call no more functions. -/
theorem callees_mono {terms others : List Term} (h : nestedAll terms ⊆ nestedAll others) :
    callees terms ⊆ callees others :=
  List.filterMap_subset callee? h

theorem references_mono {terms others : List Term} (h : nestedAll terms ⊆ nestedAll others) :
    references terms ⊆ references others :=
  List.filterMap_subset referent? h

theorem groups_mono {terms others : List Term} (h : nestedAll terms ⊆ nestedAll others) :
    groups terms ⊆ groups others :=
  List.filterMap_subset inner? h

theorem mem_groups_inside {program inner rest : List Term} {line : Nat}
    (h : program ∈ inner :: groups inner) : program ∈ groups (.group inner line :: rest) := by
  rcases List.mem_cons.mp h with rfl | hinner
  · exact List.mem_filterMap.mpr ⟨_, mem_nestedAll_self _ rest, rfl⟩
  · exact groups_mono (nestedAll_inside inner line rest) hinner

end Term

def Expr.calls (e : Expr) : List String := Term.callees e.terms

def Expr.references (e : Expr) : List String := Term.references e.terms

/-- The expression and those nested in it. -/
def Expr.programs (e : Expr) : List (List Term) := e.terms :: Term.groups e.terms

/-- The expressions of a function: its body, and the defaults of its parameters. -/
def FunctionDef.parts (f : FunctionDef) : List Expr :=
  f.body :: f.params.filterMap Param.default?

def FunctionDef.calls (f : FunctionDef) : List String := f.parts.flatMap Expr.calls

/-- A failure comes from the first outcome, or from what follows it. -/
theorem error_of_bind_except {α β : Type} {outcome : Except Error α} {next : α → Except Error β}
    {error : Error} (h : outcome >>= next = .error error) :
    outcome = .error error ∨ ∃ a, outcome = .ok a ∧ next a = .error error := by
  cases outcome with
  | error other =>
      cases h
      exact .inl rfl
  | ok a => exact .inr ⟨a, rfl, h⟩

theorem Operator.error_of_apply {op : Operator} {operands : List (Option Value)} {line : Nat}
    {error : Error} (h : op.apply operands line = .error error) :
    error = .invalidOperands op line := by
  unfold Operator.apply at h
  split at h
  · cases h
  · cases h
    rfl

namespace Env

/-- What can have led to an error of terms that are run on a stack of `depth` values. -/
inductive Cause (call : Call) (env : Env) (depth : Nat) (terms : List Term) : Error → Prop where
  /-- A term found too few values, as counting them would have told. -/
  | underflow {t : Term} {available : Nat} (hterm : t ∈ Term.nestedAll terms)
      (hfew : available < t.takes)
      (hcount : Term.balanced depth terms = false ∨
        ∃ inner ∈ Term.groups terms, Term.balanced 0 inner = false) :
      Cause call env depth terms (.argumentCount available t.takes t.line)
  | operands {op : Operator} {line : Nat} (hterm : .operator op line ∈ Term.nestedAll terms) :
      Cause call env depth terms (.invalidOperands op line)
  | call {name : String} {argc line : Nat} {given : List (Option Value)} {error : Error}
      (hterm : .call name argc line ∈ Term.nestedAll terms)
      (herror : call env name given line = .error error) :
      Cause call env depth terms error

variable {call other : Call} {env : Env}

/-- What went wrong in the terms behind the first went wrong in all of them. -/
theorem Cause.behind {depth : Nat} {first : Term} {rest : List Term} {error : Error}
    (h : Cause call env (depth - first.takes + 1) rest error) :
    Cause call env depth (first :: rest) error := by
  have hmem := Term.nestedAll_behind first rest
  cases h with
  | operands hterm => exact .operands (hmem hterm)
  | call hterm herror => exact .call (hmem hterm) herror
  | underflow hterm hfew hcount =>
      refine .underflow (hmem hterm) hfew ?_
      rcases hcount with hrest | ⟨inner, hinner, hcount⟩
      · left
        simp [Term.balanced, hrest]
      · exact .inr ⟨inner, Term.groups_mono hmem hinner, hcount⟩

/-- What went wrong in a nested expression went wrong in the terms it is one of. -/
theorem Cause.inside {depth line : Nat} {inner rest : List Term} {error : Error}
    (h : Cause call env 0 inner error) :
    Cause call env depth (.group inner line :: rest) error := by
  have hmem := Term.nestedAll_inside inner line rest
  cases h with
  | operands hterm => exact .operands (hmem hterm)
  | call hterm herror => exact .call (hmem hterm) herror
  | underflow hterm hfew hcount =>
      refine .underflow (hmem hterm) hfew (.inr ?_)
      rcases hcount with hinner | ⟨deeper, hdeeper, hcount⟩
      · exact ⟨inner, Term.mem_groups_inside List.mem_cons_self, hinner⟩
      · exact ⟨deeper, Term.mem_groups_inside (List.mem_cons_of_mem _ hdeeper), hcount⟩

/-- A reduction fails for want of values, or where its computation does. -/
theorem error_of_reduce {stack : Stack} {count line : Nat}
    {compute : List (Option Value) → Except Error (Option Value)} {error : Error}
    (h : reduce stack count line compute = .error error) :
    (stack.length < count ∧ error = .argumentCount stack.length count line) ∨
      ∃ values, compute values = .error error := by
  unfold reduce at h
  split at h
  · next hfew =>
      cases h
      exact .inl ⟨hfew, rfl⟩
  · rcases error_of_bind_except h with hcompute | ⟨result, -, hpure⟩
    · exact .inr ⟨_, hcompute⟩
    · cases hpure

/-- A reduction takes its values off and pushes one. -/
theorem length_of_reduce {stack next : Stack} {count line : Nat}
    {compute : List (Option Value) → Except Error (Option Value)}
    (h : reduce stack count line compute = .ok next) :
    next.length = stack.length - count + 1 := by
  unfold reduce at h
  split at h
  · cases h
  · cases hcompute : compute (stack.take count).reverse with
    | error error =>
        rw [hcompute] at h
        cases h
    | ok result =>
        rw [hcompute] at h
        cases h
        simp

/-- The step of a run that takes values off the stack. -/
theorem cause_of_reduce_error {stack : Stack} {first : Term} {rest : List Term}
    {compute : List (Option Value) → Except Error (Option Value)} {error : Error}
    (hcompute : ∀ values, compute values = .error error →
      Cause call env stack.length (first :: rest) error)
    (hrest : ∀ next : Stack, run call env next rest = .error error →
      Cause call env next.length rest error)
    (h : (do
      let next ← reduce stack first.takes first.line compute
      run call env next rest) = .error error) :
    Cause call env stack.length (first :: rest) error := by
  rcases error_of_bind_except h with hreduce | ⟨next, hreduce, hrun⟩
  · rcases error_of_reduce hreduce with ⟨hfew, rfl⟩ | ⟨values, herror⟩
    · have hcount : ¬ first.takes ≤ stack.length := by omega
      exact .underflow (Term.mem_nestedAll_self first rest) hfew
        (.inl (by simp [Term.balanced, hcount]))
    · exact hcompute values herror
  · have hlength := length_of_reduce hreduce
    have hcause := hrest next hrun
    rw [hlength] at hcause
    exact hcause.behind

/-- An error of a run has one of the three causes. -/
theorem cause_of_run_error : ∀ {terms : List Term} {stack : Stack} {error : Error},
    run call env stack terms = .error error → Cause call env stack.length terms error
  | [], _, _, h => by cases h
  | .constant value line :: rest, stack, error, h => by
      have hrest : run call env (some value :: stack) rest = .error error := h
      exact (cause_of_run_error hrest).behind
  | .reference name line :: rest, stack, error, h => by
      have hrest : run call env (env.value name :: stack) rest = .error error := h
      exact (cause_of_run_error hrest).behind
  | .operator op line :: rest, stack, error, h => by
      refine cause_of_reduce_error ?_ (fun next hrun => cause_of_run_error hrun) h
      intro values hrefused
      rw [Operator.error_of_apply hrefused]
      exact .operands (Term.mem_nestedAll_self _ rest)
  | .call name argc line :: rest, stack, error, h => by
      refine cause_of_reduce_error ?_ (fun next hrun => cause_of_run_error hrun) h
      exact fun given herror => .call (Term.mem_nestedAll_self _ rest) herror
  | .group inner line :: rest, stack, error, h => by
      rcases error_of_bind_except h with hgroup | ⟨value, -, hrun⟩
      · rcases error_of_bind_except hgroup with hinner | ⟨_, -, hpure⟩
        · exact (cause_of_run_error hinner).inside
        · cases hpure
      · exact (cause_of_run_error hrun).behind

/-- An expression that fails has a cause among its terms. -/
theorem cause_of_expr_error {e : Expr} {error : Error} (h : expr call env e = .error error) :
    Cause call env 0 e.terms error := by
  rcases error_of_bind_except h with hrun | ⟨stack, -, hpure⟩
  · exact cause_of_run_error hrun
  · cases hpure

/-- A run depends on its place for the variables that it refers to, and on how calls are carried out
for the names that it calls. -/
theorem run_congr {place : Env} : ∀ (terms : List Term) (stack : Stack),
    (∀ name ∈ Term.references terms, place.value name = env.value name) →
    (∀ name ∈ Term.callees terms, ∀ given line,
      other place name given line = call env name given line) →
    run other place stack terms = run call env stack terms
  | [], stack, _, _ => rfl
  | first :: rest, stack, hvalue, hcall => by
      have hbehind := Term.nestedAll_behind first rest
      have hrest (next : Stack) : run other place next rest = run call env next rest :=
        run_congr rest next (fun name hname => hvalue name (Term.references_mono hbehind hname))
          fun name hname => hcall name (Term.callees_mono hbehind hname)
      cases first with
      | constant value line => exact hrest _
      | operator op line => exact bind_congr hrest
      -- the two terms that look at the place
      | reference name line =>
          have hname : name ∈ Term.references (.reference name line :: rest) :=
            Term.mem_references (Term.mem_nestedAll_self _ rest)
          change run other place (place.value name :: stack) rest = _
          rw [hvalue name hname]
          exact hrest _
      | call name argc line =>
          have hname : name ∈ Term.callees (.call name argc line :: rest) :=
            Term.mem_callees (Term.mem_nestedAll_self _ rest)
          have hsame : (fun given => other place name given line) =
              fun given => call env name given line :=
            funext fun given => hcall name hname given line
          rw [run, run, hsame]
          exact bind_congr hrest
      | group inner line =>
          have hinside := Term.nestedAll_inside inner line rest
          have hinner := run_congr inner []
            (fun name hname => hvalue name (Term.references_mono hinside hname))
            fun name hname => hcall name (Term.callees_mono hinside hname)
          have hgroup : term other place (.group inner line) =
              term call env (.group inner line) := by
            rw [term, term, hinner]
          change (term other place (.group inner line) >>= fun value =>
            run other place (value :: stack) rest) = _
          rw [hgroup]
          exact bind_congr fun value => hrest (value :: stack)

/-- The value of an expression depends on its references and calls only. -/
theorem expr_congr {place : Env} {e : Expr}
    (hvalue : ∀ name ∈ e.references, place.value name = env.value name)
    (hcall : ∀ name ∈ e.calls, ∀ given line,
      other place name given line = call env name given line) :
    expr other place e = expr call env e := by
  rw [expr, expr, run_congr e.terms [] hvalue hcall]

/-- The same functions are in sight from both places. -/
structure SameFunctions (env place : Env) : Prop where
  sheet : place.function? = env.function?
  host : place.hostFunction? = env.hostFunction?

theorem SameFunctions.refl (env : Env) : SameFunctions env env := ⟨rfl, rfl⟩

theorem sameFunctions_withFrame (env : Env) (frame : Frame) :
    SameFunctions env (env.withFrame frame) := ⟨rfl, rfl⟩

/-- Binding arguments fails only where a default does. -/
theorem error_of_arguments {default : Expr → Except Error (Option Value)} {params : List Param}
    {given : List (Option Value)} {error : Error}
    (h : arguments default params given = .error error) :
    ∃ param ∈ params, ∃ e, param.default? = some e ∧ default e = .error error := by
  induction params generalizing given with
  | nil => cases h
  | cons param params ih =>
      have hlater {given : List (Option Value)}
          (hrest : arguments default params given = .error error) :
          ∃ later ∈ param :: params, ∃ e, later.default? = some e ∧ default e = .error error := by
        obtain ⟨later, hmem, hdefault⟩ := ih hrest
        exact ⟨later, List.mem_cons_of_mem _ hmem, hdefault⟩
      cases given with
      | cons argument given =>
          rcases error_of_bind_except h with hrest | ⟨bound, -, hpure⟩
          · exact hlater hrest
          · cases hpure
      | nil =>
          rcases error_of_bind_except h with hvalue | ⟨value, -, hnext⟩
          · cases hdefault : param.default? with
            | none =>
                rw [hdefault] at hvalue
                cases hvalue
            | some e =>
                rw [hdefault] at hvalue
                exact ⟨param, List.mem_cons_self, e, hdefault, hvalue⟩
          · rcases error_of_bind_except hnext with hrest | ⟨bound, -, hpure⟩
            · exact hlater hrest
            · cases hpure

/-- Arguments are the same where all defaults have the same values. -/
theorem arguments_congr {default elsewhere : Expr → Except Error (Option Value)}
    {params : List Param} (given : List (Option Value))
    (h : ∀ param ∈ params, ∀ e, param.default? = some e → elsewhere e = default e) :
    arguments elsewhere params given = arguments default params given := by
  induction params generalizing given with
  | nil => rfl
  | cons param params ih =>
      have hrest (given : List (Option Value)) :=
        ih given fun later hmem => h later (List.mem_cons_of_mem _ hmem)
      cases given with
      | cons argument given => rw [arguments, arguments, hrest]
      | nil =>
          have hvalue : (param.default?.map elsewhere).getD (.ok none) =
              (param.default?.map default).getD (.ok none) := by
            cases hdefault : param.default? with
            | none => rfl
            | some e => simp [h param List.mem_cons_self e hdefault]
          rw [arguments, arguments, hvalue, hrest]

theorem mem_parts_of_default {f : FunctionDef} {param : Param} {e : Expr}
    (hparam : param ∈ f.params) (h : param.default? = some e) : e ∈ f.parts :=
  List.mem_cons_of_mem _ (List.mem_filterMap.mpr ⟨param, hparam, h⟩)

/-- A call of a sheet function fails in one of its expressions, and the functions in sight there are
those of the caller. -/
theorem error_of_callFunction {f : FunctionDef} {given : List (Option Value)} {error : Error}
    (h : callFunction call env f given = .error error) :
    ∃ part ∈ f.parts, ∃ place, SameFunctions env place ∧ expr call place part = .error error := by
  rcases error_of_bind_except h with hbound | ⟨bound, -, hbody⟩
  · obtain ⟨param, hparam, e, hdefault, herror⟩ := error_of_arguments hbound
    exact ⟨e, mem_parts_of_default hparam hdefault, env, .refl env, herror⟩
  · exact ⟨f.body, List.mem_cons_self, _, sameFunctions_withFrame env _, hbody⟩

/-- A call depends on the values of its defaults and of its body. -/
theorem callFunction_congr {place : Env} {f : FunctionDef} (given : List (Option Value))
    (hdefault : ∀ param ∈ f.params, ∀ e, param.default? = some e →
      expr other place e = expr call env e)
    (hbody : ∀ frame, expr other (place.withFrame frame) f.body =
      expr call (env.withFrame frame) f.body) :
    callFunction other place f given = callFunction call env f given := by
  rw [callFunction, callFunction, arguments_congr given hdefault]
  exact bind_congr fun bound => hbody (.ofList bound)

/-- A call of a host function fails where there is none, and where it refuses. -/
theorem error_of_callHost {name : String} {given : List (Option Value)} {line : Nat} {error : Error}
    (h : callHost env name given line = .error error) :
    (env.hostFunction? name = none ∧ error = .functionNotFound name line) ∨
      ∃ f reason, env.hostFunction? name = some f ∧ f.call given = .error reason ∧
        error = .invocation f.name line reason := by
  unfold callHost at h
  cases hfunction : env.hostFunction? name with
  | none =>
      rw [hfunction] at h
      cases h
      exact .inl ⟨rfl, rfl⟩
  | some f =>
      rw [hfunction] at h
      dsimp only at h
      cases hcall : f.call given with
      | ok value =>
          rw [hcall] at h
          cases h
      | error reason =>
          rw [hcall] at h
          cases h
          exact .inr ⟨f, reason, rfl, hcall, rfl⟩

end Env

/-- Both computations end alike, and if with an error, then with one that is allowed. -/
def Matches {α : Type} (E : Error → Prop) (outcome other : Except Error α) : Prop :=
  other = outcome ∧ ∀ error, outcome = .error error → E error

section Matches

variable {α β : Type} {E : Error → Prop}

theorem Matches.ok (a : α) : Matches E (.ok a) (.ok a) :=
  ⟨rfl, fun _ h => by cases h⟩

/-- Outcomes that match step by step match as a whole. -/
theorem Matches.bind {outcome other : Except Error α} {next otherNext : α → Except Error β}
    (h : Matches E outcome other) (hnext : ∀ a, Matches E (next a) (otherNext a)) :
    Matches E (outcome >>= next) (other >>= otherNext) := by
  obtain ⟨rfl, herror⟩ := h
  cases other with
  | ok a => exact hnext a
  | error error =>
      refine ⟨rfl, fun e he => herror e ?_⟩
      cases he
      rfl

theorem Matches.mapM {terms : List Term} {f g : Term → Except Error β}
    (h : ∀ t ∈ terms, Matches E (f t) (g t)) : Matches E (terms.mapM f) (terms.mapM g) := by
  induction terms with
  | nil => exact .ok []
  | cons t rest ih =>
      have hrest := ih fun later hlater => h later (List.mem_cons_of_mem _ hlater)
      rw [List.mapM_cons, List.mapM_cons]
      exact (h t List.mem_cons_self).bind fun _ => hrest.bind fun _ => .ok _

end Matches

namespace Env

variable {E : Error → Prop} {call other : Call} {env : Env}

/-- The errors of an expression are those of its operators, those that counting its values
foretells, and those of its calls. -/
theorem expr_matches {e : Expr}
    (hcount : ∀ available required line, (∃ terms ∈ e.programs, Term.balanced 0 terms = false) →
      E (.argumentCount available required line))
    (hoperands : ∀ op line, E (.invalidOperands op line))
    (hcall : ∀ name ∈ e.calls, ∀ given line,
      Matches E (call env name given line) (other env name given line)) :
    Matches E (expr call env e) (expr other env e) := by
  refine ⟨expr_congr (fun _ _ => rfl) fun name hname given line =>
    (hcall name hname given line).1, ?_⟩
  intro error herror
  cases cause_of_expr_error herror with
  | operands hterm => exact hoperands _ _
  | call hterm hfail =>
      exact (hcall _ (Term.mem_callees hterm) _ _).2 error hfail
  | underflow hterm hfew hunbalanced =>
      apply hcount
      rcases hunbalanced with hself | ⟨inner, hinner, hunbalanced⟩
      · exact ⟨e.terms, List.mem_cons_self, hself⟩
      · exact ⟨inner, List.mem_cons_of_mem _ hinner, hunbalanced⟩

/-- The same for a term that stands alone. -/
theorem term_matches {t : Term}
    (hkind : t.kind = .operator ∨ t.kind = .functionCall → E (.unexpected t.kind t.line))
    (hcount : ∀ available required line,
      (∃ terms ∈ Term.groups [t], Term.balanced 0 terms = false) →
      E (.argumentCount available required line))
    (hoperands : ∀ op line, E (.invalidOperands op line))
    (hcall : ∀ name ∈ Term.callees [t], ∀ given line,
      Matches E (call env name given line) (other env name given line)) :
    Matches E (term call env t) (term other env t) := by
  have hrefused (h : t.kind = .operator ∨ t.kind = .functionCall) :
      Matches (α := Option Value) E (.error (.unexpected t.kind t.line))
        (.error (.unexpected t.kind t.line)) := by
    refine ⟨rfl, fun error herror => ?_⟩
    cases herror
    exact hkind h
  cases t with
  | constant value line => exact .ok _
  | reference name line => exact .ok _
  | operator op line => exact hrefused (.inl rfl)
  | call name argc line => exact hrefused (.inr rfl)
  | group inner line =>
      have hexpr : Matches E (expr call env ⟨inner, line⟩) (expr other env ⟨inner, line⟩) := by
        apply expr_matches _ hoperands
        · intro name hname
          exact hcall name (Term.callees_mono (Term.nestedAll_inside inner line []) hname)
        · rintro available required at_ ⟨terms, hterms, hunbalanced⟩
          exact hcount available required at_ ⟨terms, Term.mem_groups_inside hterms, hunbalanced⟩
      exact hexpr

theorem invoke_of_none {name : String} (h : env.function? name = none) (depth : Nat)
    (given : List (Option Value)) (line : Nat) :
    invoke depth env name given line = callHost env name given line := by
  cases depth <;> simp [invoke, dispatch, h]

/-- A call of a sheet function costs one level of depth. -/
theorem invoke_of_some {name : String} {f : FunctionDef} (h : env.function? name = some f)
    (depth : Nat) (given : List (Option Value)) (line : Nat) :
    invoke (depth + 1) env name given line = callFunction (invoke depth) env f given := by
  simp [invoke, dispatch, h]

/-- A call that no sheet function answers goes to the host, at every depth. -/
theorem invoke_matches_of_none {name : String} (h : env.function? name = none) (depth deeper : Nat)
    (given : List (Option Value)) {line : Nat}
    (hmissing : env.hostFunction? name = none → E (.functionNotFound name line))
    (hrefused : ∀ function reason, E (.invocation function line reason)) :
    Matches E (invoke depth env name given line) (invoke deeper env name given line) := by
  rw [invoke_of_none h, invoke_of_none h]
  refine ⟨rfl, fun error herror => ?_⟩
  rcases error_of_callHost herror with ⟨hnone, rfl⟩ | ⟨f, reason, -, -, rfl⟩
  · exact hmissing hnone
  · exact hrefused f.name reason

/-- A call matches if all parts of its function do in any frame. -/
theorem callFunction_matches {f : FunctionDef} (given : List (Option Value))
    (h : ∀ part ∈ f.parts, ∀ place, SameFunctions env place →
      Matches E (expr call place part) (expr other place part)) :
    Matches E (callFunction call env f given) (callFunction other env f given) := by
  have hsame : callFunction other env f given = callFunction call env f given := by
    apply callFunction_congr
    · exact fun param hparam e hdefault =>
        (h e (mem_parts_of_default hparam hdefault) env (.refl env)).1
    · exact fun frame => (h f.body List.mem_cons_self _ (sameFunctions_withFrame env frame)).1
  refine ⟨hsame, ?_⟩
  intro error herror
  obtain ⟨part, hpart, place, hplace, hfail⟩ := error_of_callFunction herror
  exact (h part hpart place hplace).2 error hfail

end Env

end Stylesheet
