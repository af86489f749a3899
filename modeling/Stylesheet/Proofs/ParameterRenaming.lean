import Stylesheet.Proofs.DefaultArguments
import Stylesheet.Proofs.ReadOverWrite

/-!
Renaming a parameter of a sheet function. The name of a parameter is known to the body of its
function, and to one place more: the frame of a call is in sight from the defaults of the functions
that the body calls. If neither these nor the body know the new name, and the defaults do not know
the old one, the choice between the two names has no effect on any evaluation.

Two environments that differ by such a choice are not alike on the two names themselves. What is
kept along all calls is that they are alike on every other name, and that a call by name ends
alike in both.
-/

namespace Stylesheet

/-- The name, with one name put in place of another. -/
def renamed (old new name : String) : String := if name = old then new else name

section Renamed

variable {old new name other : String}

theorem renamed_of_ne (h : name ≠ old) : renamed old new name = name := if_neg h

/-- Names are kept apart, unless one of them was the new name before. -/
theorem renamed_inj (hname : name ≠ new) (hother : other ≠ new)
    (h : renamed old new name = renamed old new other) : name = other := by
  unfold renamed at h
  split at h <;> split at h
  · next hold hold' => exact hold.trans hold'.symm
  · exact absurd h.symm hother
  · exact absurd h hname
  · exact h

end Renamed

namespace Term

mutual

/-- The term with every reference to one variable made a reference to another. Calls keep their
names. -/
def rename (old new : String) : Term → Term
  | .reference name line => .reference (renamed old new name) line
  | .group terms line => .group (renameAll old new terms) line
  | t => t

def renameAll (old new : String) : List Term → List Term
  | [] => []
  | first :: rest => first.rename old new :: renameAll old new rest

end

theorem takes_rename (old new : String) (t : Term) : (t.rename old new).takes = t.takes := by
  cases t <;> rfl

theorem line_rename (old new : String) (t : Term) : (t.rename old new).line = t.line := by
  cases t <;> rfl

end Term

/-- The parameter under another name, if it has the old one. -/
def Param.rename (old new : String) (param : Param) : Param :=
  { param with name := renamed old new param.name }

/-- The function with a parameter renamed, in its list and in its body. Defaults stay as they
are. -/
def FunctionDef.renameParam (old new : String) (f : FunctionDef) : FunctionDef :=
  { f with
    params := f.params.map (Param.rename old new)
    body := ⟨Term.renameAll old new f.body.terms, f.body.line⟩ }

/-- One name is that of a parameter and the other is not known to the function. -/
structure FunctionDef.CanRename (f : FunctionDef) (old new : String) : Prop where
  param : old ∈ f.params.map Param.name
  fresh : new ∉ f.params.map Param.name
  unused : new ∉ f.body.references

/-- No default of the function refers to the variable. -/
def FunctionDef.DefaultsAvoid (f : FunctionDef) (name : String) : Prop :=
  ∀ param ∈ f.params, ∀ e, param.default? = some e → name ∉ e.references

namespace Bindings

variable {α : Type}

/-- What was bound under each name is bound under its new name. -/
def RenamedTo (old new : String) (bindings others : Bindings α) : Prop :=
  ∀ name, name ≠ new → others.find? (renamed old new name) = bindings.find? name

variable {old new : String} {bindings others : Bindings α}

theorem RenamedTo.find?_of_ne (h : RenamedTo old new bindings others) {name : String}
    (hold : name ≠ old) (hnew : name ≠ new) : others.find? name = bindings.find? name := by
  have hname := h name hnew
  rwa [renamed_of_ne hold] at hname

theorem RenamedTo.insert (h : RenamedTo old new bindings others) {key : String} (hkey : key ≠ new)
    (a : α) :
    RenamedTo old new (bindings.insert key a) (others.insert (renamed old new key) a) := by
  intro name hname
  by_cases heq : name = key
  · subst heq
    rw [find?_insert_self, find?_insert_self]
  · have hne : renamed old new name ≠ renamed old new key :=
      fun hsame => heq (renamed_inj hname hkey hsame)
    rw [find?_insert_of_ne _ _ hne, find?_insert_of_ne _ _ heq, h name hname]

theorem RenamedTo.foldl (h : RenamedTo old new bindings others) {pairs : List (String × α)}
    (hfresh : new ∉ pairs.map Prod.fst) :
    RenamedTo old new (pairs.foldl (fun bindings (name, a) => bindings.insert name a) bindings)
      ((pairs.map (Prod.map (renamed old new) id)).foldl
        (fun bindings (name, a) => bindings.insert name a) others) := by
  induction pairs generalizing bindings others with
  | nil => exact h
  | cons pair rest ih =>
      rw [List.map_cons, List.mem_cons, not_or] at hfresh
      obtain ⟨hkey, hrest⟩ := hfresh
      exact ih (h.insert (Ne.symm hkey) pair.2) hrest

theorem renamedTo_ofList {pairs : List (String × α)} (hfresh : new ∉ pairs.map Prod.fst) :
    RenamedTo old new (.ofList pairs) (.ofList (pairs.map (Prod.map (renamed old new) id))) := by
  have hempty : RenamedTo old new (.empty : Bindings α) .empty := fun _ _ => rfl
  exact hempty.foldl hfresh

theorem contains_foldl (pairs : List (String × α)) {name : String}
    (h : name ∈ pairs.map Prod.fst ∨ bindings.contains name = true) :
    (pairs.foldl (fun bindings (key, a) => bindings.insert key a) bindings).contains name =
      true := by
  induction pairs generalizing bindings with
  | nil => simpa using h
  | cons pair rest ih =>
      apply ih
      by_cases heq : name = pair.1
      · subst heq
        right
        simp [contains]
      · rw [contains, find?_insert_of_ne _ _ heq]
        rwa [List.map_cons, List.mem_cons, or_iff_right heq] at h

theorem contains_ofList {pairs : List (String × α)} {name : String}
    (h : name ∈ pairs.map Prod.fst) : (ofList pairs).contains name = true :=
  contains_foldl pairs (.inl h)

end Bindings

namespace Env

variable {call : Call} {env place : Env} {old new : String}

/-- A run of renamed terms, in a place where each new name has the value that the old one had. -/
theorem run_renameAll (hcall : ∀ name given line,
    call place name given line = call env name given line) :
    ∀ (terms : List Term) (stack : Stack),
      (∀ name ∈ Term.references terms, place.value (renamed old new name) = env.value name) →
      run call place stack (Term.renameAll old new terms) = run call env stack terms
  | [], _, _ => rfl
  | first :: rest, stack, hvalue => by
      have hbehind := Term.nestedAll_behind first rest
      have hrest (next : Stack) :
          run call place next (Term.renameAll old new rest) = run call env next rest :=
        run_renameAll hcall rest next fun name hname =>
          hvalue name (Term.references_mono hbehind hname)
      have hfirst : act call place (first.rename old new) = act call env first := by
        funext values
        cases first with
        | constant value line => rfl
        | operator op line => rfl
        | call name argc line => exact hcall name values line
        | reference name line =>
            have hname : name ∈ Term.references (.reference name line :: rest) :=
              Term.mem_references (Term.mem_nestedAll_self _ rest)
            exact congrArg Except.ok (hvalue name hname)
        | group inner line =>
            have hinside := Term.nestedAll_inside inner line rest
            have hinner :
                run call place [] (Term.renameAll old new inner) = run call env [] inner :=
              run_renameAll hcall inner [] fun name hname =>
                hvalue name (Term.references_mono hinside hname)
            simp only [Term.rename, act, term, hinner]
      rw [Term.renameAll, run_cons, run_cons, hfirst, Term.takes_rename, Term.line_rename]
      exact bind_congr hrest

/-- The arguments under their new names, in front of variables that have kept theirs. The old name must
be that of an argument, or it would be looked up behind them. -/
theorem value_renamed {frame frame' : Frame} (hbase : place.base = env.base)
    (hframe : frame.RenamedTo old new frame') (hold : frame.contains old = true) {name : String}
    (hname : name ≠ new) :
    (place.withFrame frame').value (renamed old new name) = (env.withFrame frame).value name := by
  simp only [value, withFrame, Option.bind_some, hframe name hname]
  by_cases hsame : name = old
  · subst hsame
    obtain ⟨a, ha⟩ := Option.isSome_iff_exists.mp hold
    rw [ha, Option.getD_some, Option.getD_some]
  · rw [renamed_of_ne hsame, hbase]

theorem arguments_rename (default : Expr → Except Error (Option Value)) (params : List Param)
    (given : List (Option Value)) :
    arguments default (params.map (Param.rename old new)) given =
      List.map (Prod.map (renamed old new) id) <$> arguments default params given := by
  induction params generalizing given with
  | nil => rfl
  | cons param params ih =>
      cases given with
      | cons argument given =>
          rw [List.map_cons, arguments, arguments, ih]
          simp [Param.rename]
      | nil =>
          rw [List.map_cons, arguments, arguments, ih]
          simp [Param.rename]

theorem names_of_arguments {default : Expr → Except Error (Option Value)} {params : List Param}
    {given : List (Option Value)} {bound : List (String × Option Value)}
    (h : arguments default params given = .ok bound) :
    bound.map Prod.fst = params.map Param.name := by
  induction params generalizing given bound with
  | nil =>
      cases h
      rfl
  | cons param params ih =>
      have hcons {given : List (Option Value)} {value : Option Value}
          (hbound : (do
            return (param.name, value) :: (← arguments default params given)) = .ok bound) :
          bound.map Prod.fst = (param :: params).map Param.name := by
        cases hrest : arguments default params given with
        | error error =>
            rw [hrest] at hbound
            cases hbound
        | ok rest =>
            rw [hrest] at hbound
            cases hbound
            simp [ih hrest]
      cases given with
      | cons argument given => exact hcons h
      | nil =>
          rw [arguments] at h
          cases hvalue : (param.default?.map default).getD (.ok none) with
          | error error =>
              rw [hvalue] at h
              cases h
          | ok value =>
              rw [hvalue] at h
              exact hcons h

/-- The second place differs from the first in one function, of which a parameter is renamed, and in
what the two names mean in the call under way. -/
structure Renamed (name : String) (f : FunctionDef) (old new : String) (env place : Env) :
    Prop where
  value : ∀ other, other ≠ old → other ≠ new → place.value other = env.value other
  base : place.base = env.base
  host : place.hostFunction? = env.hostFunction?
  function : env.function? name = some f
  bound : ∀ other, place.function? other =
    if other = name then some (f.renameParam old new) else env.function? other
  defaults : ∀ other g, env.function? other = some g → g.DefaultsAvoid old ∧ g.DefaultsAvoid new

variable {name : String} {f : FunctionDef}

/-- A call under way puts frames in place of those before, and they may differ on the two names. -/
theorem Renamed.withFrame (h : Renamed name f old new env place) {frame frame' : Frame}
    (hframe : ∀ other, other ≠ old → other ≠ new → frame'.find? other = frame.find? other) :
    Renamed name f old new (env.withFrame frame) (place.withFrame frame') where
  value other hold hnew := by
    simp only [Env.value, Env.withFrame, Option.bind_some, hframe other hold hnew, h.base]
  base := h.base
  host := h.host
  function := h.function
  bound := h.bound
  defaults := h.defaults

/-- Calls by name end alike in all places that differ in this way. -/
def Call.Ignores (call : Call) (name : String) (f : FunctionDef) (old new : String) : Prop :=
  ∀ {env place : Env}, Renamed name f old new env place → ∀ other given line,
    call place other given line = call env other given line

theorem Renamed.expr_eq (h : Renamed name f old new env place)
    (hcall : call.Ignores name f old new) {e : Expr} (hold : old ∉ e.references)
    (hnew : new ∉ e.references) : expr call place e = expr call env e := by
  apply expr_congr
  · intro other hother
    exact h.value other (ne_of_mem_of_not_mem hother hold) (ne_of_mem_of_not_mem hother hnew)
  · exact fun other _ => hcall h other

/-- The defaults of the functions in sight do not know either name. -/
theorem Renamed.default_eq (h : Renamed name f old new env place)
    (hcall : call.Ignores name f old new) {other : String} {g : FunctionDef}
    (hg : env.function? other = some g) :
    ∀ param ∈ g.params, ∀ e, param.default? = some e → expr call place e = expr call env e := by
  intro param hparam e hdefault
  obtain ⟨hold, hnew⟩ := h.defaults other g hg
  exact h.expr_eq hcall (hold param hparam e hdefault) (hnew param hparam e hdefault)

/-- A call of the function itself: the body finds under the new name what it found under the old,
which is an argument, and everything else as before. -/
theorem Renamed.callFunction_renameParam (h : Renamed name f old new env place)
    (hf : f.CanRename old new) (hcall : call.Ignores name f old new)
    (given : List (Option Value)) :
    callFunction call place (f.renameParam old new) given = callFunction call env f given := by
  have hdefault := arguments_congr given (h.default_eq hcall h.function)
  have hrenamed : arguments (expr call place) (f.renameParam old new).params given = _ :=
    arguments_rename (expr call place) f.params given
  rw [callFunction, callFunction, hrenamed, hdefault]
  cases hbound : arguments (expr call env) f.params given with
  | error error => rfl
  | ok bound =>
      have hnames := names_of_arguments hbound
      have hfresh : new ∉ bound.map Prod.fst := hnames ▸ hf.fresh
      have hframe : Bindings.RenamedTo old new (.ofList bound) _ := Bindings.renamedTo_ofList hfresh
      have hinside := h.withFrame fun other hold hnew => hframe.find?_of_ne hold hnew
      have hparam : (Bindings.ofList bound).contains old = true :=
        Bindings.contains_ofList (hnames ▸ hf.param)
      exact congrArg (fun stack => do return Eval.bottom (← stack))
        (run_renameAll (hcall hinside) f.body.terms [] fun x hx =>
          value_renamed h.base hframe hparam (ne_of_mem_of_not_mem hx hf.unused))

theorem Renamed.dispatch_eq (h : Renamed name f old new env place)
    {act : Env → FunctionDef → List (Option Value) → Except Error (Option Value)}
    {given : List (Option Value)}
    (hself : act place (f.renameParam old new) given = act env f given)
    (hothers : ∀ other g, env.function? other = some g → act place g given = act env g given)
    (other : String) (line : Nat) :
    dispatch act place other given line = dispatch act env other given line := by
  unfold dispatch
  rw [h.bound other]
  by_cases hother : other = name
  · subst hother
    simp only [if_true, h.function, hself]
  · rw [if_neg hother]
    cases hg : env.function? other with
    | none => simp only [callHost, h.host]
    | some g => exact hothers other g hg

/-- The choice of the name makes no difference to a call at any depth. -/
theorem invoke_ignores (hf : f.CanRename old new) (depth : Nat) :
    Call.Ignores (invoke depth) name f old new := by
  induction depth with
  | zero =>
      intro env place h other given line
      exact h.dispatch_eq rfl (fun _ _ _ => rfl) other line
  | succ depth ih =>
      intro env place h other given line
      apply h.dispatch_eq
      · exact h.callFunction_renameParam hf ih given
      · intro other g hg
        apply callFunction_congr
        · exact h.default_eq ih hg
        · intro frame
          -- the body may refer to both names: it has a frame of its own, and the base is the same
          have hinside : Renamed name f old new (env.withFrame frame) (place.withFrame frame) :=
            h.withFrame fun _ _ _ => rfl
          have hvalue (x : String) :
              (place.withFrame frame).value x = (env.withFrame frame).value x := by
            simp only [Env.value, Env.withFrame, h.base]
          exact expr_congr (fun x _ => hvalue x) fun callee _ => ih hinside callee

end Env

namespace Scopes

variable {scopes : Scopes} {scope : Nat} {name : String} {f : FunctionDef} {host : Host}

/-- Binding a function changes what is seen under its name from the scope, and nothing else. -/
theorem env_bindFunction (hlive : scope < scopes.count) (host : Host) (name : String)
    (f : FunctionDef) :
    (scopes.bindFunction scope name f).env host scope =
      { scopes.env host scope with
        function? := fun other =>
          if other = name then some f else scopes.function? scope other } := by
  have hframe : (scopes.bindFunction scope name f).frame? scope = scopes.frame? scope :=
    frame?_modify (by intro; rfl) (by intro; rfl) _ _
  have hbase : ((scopes.bindFunction scope name f).env host scope).base =
      (scopes.env host scope).base :=
    funext fun other => base_modify (by intro; rfl) (by intro; rfl) (by intro; rfl) host _ _
  have hfunction : (scopes.bindFunction scope name f).function? scope =
      fun other => if other = name then some f else scopes.function? scope other :=
    funext fun other => function?_bindFunction hlive
  simp only [env] at hbase ⊢
  rw [hframe, hbase, hfunction]

theorem renamed_bindFunction (hlive : scope < scopes.count)
    (hf : scopes.function? scope name = some f) {old new : String}
    (hdefaults : ∀ other g, scopes.function? scope other = some g →
      g.DefaultsAvoid old ∧ g.DefaultsAvoid new) (host : Host) :
    Env.Renamed name f old new (scopes.env host scope)
      ((scopes.bindFunction scope name (f.renameParam old new)).env host scope) := by
  rw [env_bindFunction hlive]
  exact {
    value := fun _ _ _ => rfl
    base := rfl
    host := rfl
    function := hf
    bound := fun _ => rfl
    defaults := hdefaults }

theorem ofExcept_inj {outcome other : Except Error (Option Value)}
    (h : Eval.ofExcept outcome scopes = Eval.ofExcept other scopes) : outcome = other := by
  cases outcome <;> cases other <;> cases h <;> rfl

theorem ends_ofExcept_iff (hlive : scope < scopes.count) {e : Expr}
    {outcome : Except Error (Option Value)} :
    scopes.Ends host scope e (Eval.ofExcept outcome scopes) ↔
      outcome ≠ .error .callDepth ∧ ∃ enough, ∀ depth, enough ≤ depth →
        Env.expr (Env.invoke depth) (scopes.env host scope) e = outcome := by
  unfold Ends
  refine and_congr ?_ (exists_congr fun enough => forall₂_congr fun depth _ => ?_)
  · rw [Ne, ← ofExcept_eq_callDepth_iff, not_exists]
  · rw [expr_eq_ofExcept hlive]
    exact ⟨ofExcept_inj, congrArg (Eval.ofExcept · scopes)⟩

theorem diverges_iff_env (hlive : scope < scopes.count) {e : Expr} :
    scopes.Diverges host scope e ↔
      ∀ depth, Env.expr (Env.invoke depth) (scopes.env host scope) e = .error .callDepth := by
  unfold Diverges
  refine forall_congr' fun depth => ?_
  rw [expr_eq_ofExcept hlive, ofExcept_eq_callDepth_iff]

end Scopes

/-- Parameters can be renamed. A function that is seen from a live scope gets, in its list of
parameters and in its body, a new name for one of them. The new name is neither that of a parameter
nor in the body, and no default of a function in sight knows either name. Then every expression ends
in the scope as it did: with the same outcome at every depth of calls, so that it has the same value
or the same error if it ends, and otherwise still does not. -/
theorem parameter_name_ignored (host : Host) (scopes : Scopes) (scope : Nat)
    (hlive : scope < scopes.count) {name : String} {f : FunctionDef}
    (hf : scopes.function? scope name = some f) {old new : String} (hcan : f.CanRename old new)
    (hdefaults : ∀ other g, scopes.function? scope other = some g →
      g.DefaultsAvoid old ∧ g.DefaultsAvoid new) :
    let after := scopes.bindFunction scope name (f.renameParam old new)
    ∀ e : Expr,
      (∀ depth, ∃ outcome,
        (Eval.expr host (Eval.invoke host scope depth) scope e).Yields scopes outcome ∧
        (Eval.expr host (Eval.invoke host scope depth) scope e).Yields after outcome) ∧
      (∀ outcome, scopes.Ends host scope e (Eval.ofExcept outcome scopes) ↔
        after.Ends host scope e (Eval.ofExcept outcome after)) ∧
      (scopes.Diverges host scope e ↔ after.Diverges host scope e) := by
  intro after e
  have hafter : scope < after.count := by simpa [after, Scopes.bindFunction] using hlive
  have hrenamed := Scopes.renamed_bindFunction hlive hf hdefaults host
  have henv (depth : Nat) : Env.expr (Env.invoke depth) (after.env host scope) e =
      Env.expr (Env.invoke depth) (scopes.env host scope) e := by
    apply Env.expr_congr
    · intro x _
      rw [Scopes.env_bindFunction hlive]
      rfl
    · exact fun callee _ => Env.invoke_ignores hcan depth hrenamed callee
  refine ⟨fun depth => ?_, fun outcome => ?_, ?_⟩
  · refine ⟨_, Scopes.expr_eq_ofExcept hlive depth e, ?_⟩
    rw [← henv depth]
    exact Scopes.expr_eq_ofExcept hafter depth e
  · simp only [Scopes.ends_ofExcept_iff hlive, Scopes.ends_ofExcept_iff hafter, henv]
  · simp only [Scopes.diverges_iff_env hlive, Scopes.diverges_iff_env hafter, henv]

/-- Takes `x`, and `y` with the default `w`. The body passes `x` on to `g`, in a nested
expression. -/
def functionOfX : FunctionDef :=
  ⟨"f", [⟨"x", none⟩, ⟨"y", some ⟨[.reference "w" 1], 1⟩⟩],
    ⟨[.group [.reference "x" 1, .call "g" 1 1] 1, .reference "y" 1, .operator .concat 1], 1⟩, 1⟩

/-- A call under way with arguments `x` and `z`, inside a scope with variables `x` and `w`. There
`g` has a parameter `z` and refers to the variable `x`. -/
def scopesOfX : Scopes :=
  let g : FunctionDef := ⟨"g", [⟨"z", none⟩],
    ⟨[.reference "z" 2, .reference "x" 2, .operator .concat 2], 2⟩, 2⟩
  ⟨[{ parent := some 0, frames := [.ofList [("x", some (.str "p")), ("z", some (.str "q"))]] },
    { values := .ofList [("x", some (.str "o")), ("w", some (.str "w"))]
      functions := .ofList [("f", functionOfX), ("g", g)] }]⟩

/-- Calls `f` with the `z` of the call under way, and refers to its `x`. -/
def callOfX : Expr := ⟨[.reference "z" 3, .call "f" 1 3, .reference "x" 3, .operator .concat 3], 3⟩

/-- The `x` of the function becomes `z`, though the caller, the variables and `g` have their own. -/
theorem parameter_name_ignored_among_others :
    scopesOfX.function? 1 "f" = some functionOfX ∧ functionOfX.CanRename "x" "z" ∧
      (functionOfX.renameParam "x" "z").params.map Param.name = ["z", "y"] ∧
      (functionOfX.renameParam "x" "z").body.references = ["z", "y"] ∧
      (Eval.expr .nothing (Eval.invoke .nothing 1 2) 1 callOfX).Yields
        (scopesOfX.bindFunction 1 "f" (functionOfX.renameParam "x" "z"))
        (.ok (some (.str "qowp"))) := by
  have hlive : 1 < scopesOfX.count := by decide
  have hf : scopesOfX.function? 1 "f" = some functionOfX := rfl
  have hcan : functionOfX.CanRename "x" "z" := ⟨by decide, by decide, by decide⟩
  have hdefaults : ∀ name ∈ scopesOfX.functionNames, ∀ g ∈ scopesOfX.function? 1 name,
      ∀ param ∈ g.params, ∀ e ∈ param.default?, "x" ∉ e.references ∧ "z" ∉ e.references := by
    decide
  have hseen (name : String) (g : FunctionDef) (hg : scopesOfX.function? 1 name = some g) :
      g.DefaultsAvoid "x" ∧ g.DefaultsAvoid "z" := by
    have havoid := hdefaults name (Scopes.mem_functionNames (Option.isSome_of_eq_some hg)) g hg
    exact ⟨fun param hparam e he => (havoid param hparam e he).1,
      fun param hparam e he => (havoid param hparam e he).2⟩
  obtain ⟨halike, -⟩ := parameter_name_ignored .nothing scopesOfX 1 hlive hf hcan hseen callOfX
  obtain ⟨outcome, hbefore, hafter⟩ := halike 2
  have hvalue : (Eval.expr .nothing (Eval.invoke .nothing 1 2) 1 callOfX).Yields scopesOfX
      (.ok (some (.str "qowp"))) := rfl
  rw [← Scopes.ofExcept_inj (hvalue.symm.trans hbefore)] at hafter
  exact ⟨hf, hcan, rfl, rfl, hafter⟩

end Stylesheet
