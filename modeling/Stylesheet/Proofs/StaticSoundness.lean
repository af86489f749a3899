import Stylesheet.Proofs.Leaves

/-!
What can be seen of a sheet without evaluating it. Three of the errors depend on no value: that a
node stands where it has no meaning, that a term finds too few values, and that a call finds no
function. A sheet that is `Static` on a host has none of them, however its functions are defined
again in nested rules: a function that is defined at the top stays in sight, and each function that
can come to stand for it has been checked too.
-/

namespace Stylesheet

/-- Does the error depend on values, on the host, on the sink, or on how deep calls are followed? -/
def Error.dynamic : Error → Bool
  | .unexpected .. | .argumentCount .. | .functionNotFound .. => false
  | .invalidOperands .. | .invocation .. | .sink .. | .callDepth => true

def FunctionDef.programs (f : FunctionDef) : List (List Term) := f.parts.flatMap Expr.programs

/-- The expressions of a leaf, nested ones included. -/
def Node.programs : Node → List (List Term)
  | .rule .. => []
  | .declaration _ values _ => Term.groups values
  | .assignment _ e _ => e.programs
  | .function f => f.programs

def Node.values : Node → List Term
  | .declaration _ values _ => values
  | _ => []

/-- The functions that are defined by the nodes themselves, not inside of rules. -/
def Node.outerNames (nodes : List Node) : List String :=
  (nodes.filterMap Node.function?).map FunctionDef.name

theorem Node.outerNames_concat (nodes : List Node) (last : Node) :
    outerNames (nodes ++ [last]) =
      outerNames nodes ++ (last.function?.map FunctionDef.name).toList := by
  cases h : last.function? <;> simp [outerNames, h]

namespace Sheet

/-- A function of this name is defined at the top, before every child of the sheet with a call of
that name. -/
def DefinesFirst (sheet : Sheet) (name : String) : Prop :=
  ∃ before f after, sheet.children = before ++ .function f :: after ∧ f.name = name ∧
    ∀ child ∈ before ++ [.function f], name ∉ child.calls

/-- The conditions on a sheet under which it fails only because of values, the host or the sink. -/
structure Static (sheet : Sheet) (host : Host) : Prop where
  /-- Declarations stand in rules. -/
  children : ∀ child ∈ sheet.children, child.kind ≠ .declaration
  /-- The values of a declaration are not operators or calls by themselves. -/
  values : ∀ leaf ∈ sheet.leaves, ∀ t ∈ leaf.values, t.kind ≠ .operator ∧ t.kind ≠ .functionCall
  /-- Every expression finds the values that it takes. -/
  balanced : ∀ leaf ∈ sheet.leaves, ∀ terms ∈ leaf.programs, Term.balanced 0 terms = true
  /-- Every name that is called is one of the host or defined first. -/
  calls : ∀ child ∈ sheet.children, ∀ name ∈ child.calls,
    (host.function? name).isSome ∨ sheet.DefinesFirst name

end Sheet

namespace Env

/-- A call of the name finds a function. -/
def Knows (env : Env) (name : String) : Prop :=
  (env.function? name).isSome ∨ (env.hostFunction? name).isSome

/-- The functions in sight find the values that they take, and the functions that they call. -/
structure Closed (env : Env) : Prop where
  balanced : ∀ name f, env.function? name = some f → ∀ terms ∈ f.programs,
    Term.balanced 0 terms = true
  knows : ∀ name f, env.function? name = some f → ∀ callee ∈ f.calls, env.Knows callee

variable {env place : Env}

theorem SameFunctions.knows (h : SameFunctions env place) {name : String} (hname : env.Knows name) :
    place.Knows name := by
  rwa [Knows, h.sheet, h.host]

/-- Whether an environment is closed depends on its functions only. -/
theorem SameFunctions.closed (h : SameFunctions env place) (hclosed : env.Closed) :
    place.Closed where
  balanced := by
    rw [h.sheet]
    exact hclosed.balanced
  knows := by
    rw [h.sheet]
    exact fun name f hf callee hcallee => h.knows (hclosed.knows name f hf callee hcallee)

/-- A balanced expression whose calls fail only for dynamic reasons does so itself. -/
theorem expr_of_closed {call : Call} {e : Expr}
    (hbalanced : ∀ terms ∈ e.programs, Term.balanced 0 terms = true)
    (hcall : ∀ name ∈ e.calls, ∀ given line,
      Matches (·.dynamic) (call env name given line) (call env name given line)) :
    Matches (·.dynamic) (expr call env e) (expr call env e) := by
  apply expr_matches _ (fun _ _ => rfl) hcall
  rintro available required line ⟨terms, hterms, hunbalanced⟩
  rw [hbalanced terms hterms] at hunbalanced
  cases hunbalanced

theorem Knows.invoke_of_none {name : String} (h : env.Knows name) (hf : env.function? name = none)
    (depth : Nat) (given : List (Option Value)) (line : Nat) :
    Matches (·.dynamic) (invoke depth env name given line) (invoke depth env name given line) := by
  apply invoke_matches_of_none hf
  · intro hmissing
    simp [Knows, hf, hmissing] at h
  · exact fun _ _ => rfl

/-- A call of a known name fails dynamically only. -/
theorem invoke_of_closed (h : env.Closed) (depth : Nat) {name : String} (hname : env.Knows name)
    (given : List (Option Value)) (line : Nat) :
    Matches (·.dynamic) (invoke depth env name given line) (invoke depth env name given line) := by
  induction depth generalizing env name given line with
  | zero =>
      cases hf : env.function? name with
      | none => exact hname.invoke_of_none hf 0 given line
      | some f =>
          have hdeep : invoke 0 env name given line = .error .callDepth := by
            simp [invoke, dispatch, hf]
          rw [hdeep]
          refine ⟨rfl, fun error herror => ?_⟩
          cases herror
          rfl
  | succ depth ih =>
      cases hf : env.function? name with
      | none => exact hname.invoke_of_none hf (depth + 1) given line
      | some f =>
          rw [invoke_of_some hf]
          -- the functions in sight from the callee are those of the caller, so they are closed too
          apply callFunction_matches
          intro part hpart place hplace
          apply expr_of_closed
          · intro terms hterms
            exact h.balanced name f hf terms (List.mem_flatMap.mpr ⟨part, hpart, hterms⟩)
          · intro callee hcallee
            have hknown := h.knows name f hf callee (List.mem_flatMap.mpr ⟨part, hpart, hcallee⟩)
            exact ih (hplace.closed h) (hplace.knows hknown)

end Env

/-- The function finds the values that it takes, and calls the given names and those of the host. -/
structure FunctionDef.Within (f : FunctionDef) (host : Host) (known : List String) : Prop where
  balanced : ∀ terms ∈ f.programs, Term.balanced 0 terms = true
  calls : ∀ callee ∈ f.calls, callee ∈ known ∨ (host.function? callee).isSome

namespace Store

/-- The given names have functions, and all functions keep to those names and to the host. -/
structure Ready (host : Host) (known : List String) (store : Store) : Prop where
  found : ∀ name ∈ known, (store.functions.find? name).isSome
  within : store.EachFunction fun _ f => f.Within host known

variable {host : Host} {known : List String} {store : Store}

/-- A store that is ready knows the names that stand before, and those of the host. -/
theorem Ready.knows (h : store.Ready host known) {name : String}
    (hname : name ∈ known ∨ (host.function? name).isSome) : (store.env host).Knows name :=
  hname.imp (h.found name) id

theorem Ready.closed (h : store.Ready host known) : (store.env host).Closed where
  balanced := fun name f hf => (h.within name f hf).balanced
  knows := fun name f hf callee hcallee => h.knows ((h.within name f hf).calls callee hcallee)

theorem found_setFunction {name : String} {f : FunctionDef}
    (h : (store.functions.find? name).isSome ∨ name = f.name) :
    ((store.setFunction f).functions.find? name).isSome := by
  by_cases hname : name = f.name
  · simp [setFunction, hname]
  · rw [setFunction, Bindings.find?_insert_of_ne _ _ hname]
    exact h.resolve_right hname

/-- A function that keeps to the known names leaves the store ready. -/
theorem Ready.setFunction (h : store.Ready host known) {f : FunctionDef}
    (hf : f.Within host known) : (store.setFunction f).Ready host known where
  found := fun name hname => found_setFunction (.inl (h.found name hname))
  within := h.within.setFunction hf

/-- From the definition of a function on, its name is known. -/
theorem Ready.learn (h : store.Ready host known) {f : FunctionDef} (hf : f.Within host known) :
    (store.setFunction f).Ready host (known ++ [f.name]) where
  found := by
    intro name hname
    rcases List.mem_append.mp hname with hbefore | hself
    · exact found_setFunction (.inl (h.found name hbefore))
    · exact found_setFunction (.inr (List.mem_singleton.mp hself))
  within := by
    intro name g hg
    have hwithin := h.within.setFunction hf name g hg
    exact ⟨hwithin.balanced, fun callee hcallee =>
      (hwithin.calls callee hcallee).imp_left (List.mem_append_left _)⟩

/-- A store stays ready through all that rendering does to it. -/
theorem ready_invariant {σ : Type} [Sink σ] (host : Host) (known : List String) :
    FlatRender.Invariant σ (Ready host known) (·.dynamic) where
  sink := fun _ _ => rfl
  restrict := by
    intro before after hbefore hafter
    refine ⟨fun name hname => ?_, hafter.within.restrict _⟩
    have hdomain : name ∈ before.domain.functions :=
      Bindings.mem_names_iff.mpr (hbefore.found name hname)
    rw [Store.restrict, Bindings.find?_restrict, if_pos hdomain]
    exact hafter.found name hname

end Store

namespace Sheet

variable {sheet : Sheet} {host : Host}

/-- Where the sheet is `Static`, a call in one of its children is of a name defined by a child
before it. -/
theorem Static.known (h : sheet.Static host) {before after : List Node} {child : Node}
    (hchild : sheet.children = before ++ child :: after) {name : String}
    (hname : name ∈ child.calls) :
    name ∈ Node.outerNames before ∨ (host.function? name).isSome := by
  have hmem : child ∈ sheet.children := by simp [hchild]
  rcases h.calls child hmem name hname with hhost | ⟨earlier, f, later, hsplit, hf, hfirst⟩
  · exact .inr hhost
  · left
    rcases Node.order_of_splits (hchild.symm.trans hsplit) with hbefore | rfl | hdefined
    · exact absurd hname (hfirst child (by simp [hbefore]))
    · exact absurd hname (hfirst _ (by simp))
    · exact List.mem_map.mpr ⟨f, List.mem_filterMap.mpr ⟨_, hdefined, rfl⟩, hf⟩

/-- What is asked of a leaf in a child of the sheet, given what the children before it define. -/
theorem Static.leafAgrees {setting : Render.Setting} (h : sheet.Static setting.host)
    {before after : List Node} {child leaf : Node}
    (hchild : sheet.children = before ++ child :: after) (hleaf : leaf ∈ child.leaves) :
    FlatRender.LeafAgrees setting setting (Store.Ready setting.host (Node.outerNames before))
      (·.dynamic) leaf := by
  have hmem : leaf ∈ sheet.leaves := Node.mem_leavesOf.mpr ⟨child, by simp [hchild], hleaf⟩
  have hknown {name : String} (hname : name ∈ leaf.ownCalls) :=
    h.known hchild (List.mem_flatMap.mpr ⟨leaf, hleaf, hname⟩)
  have hcall {store : Store} (hstore : store.Ready setting.host (Node.outerNames before))
      {name : String} (hname : name ∈ leaf.ownCalls) :=
    Env.invoke_of_closed hstore.closed setting.depth (hstore.knows (hknown hname))
  cases leaf with
  | rule own children line => trivial
  | declaration property values line =>
      intro store hstore t ht
      obtain ⟨hoperator, hcalled⟩ := h.values _ hmem t ht
      apply Env.term_matches
      · rintro (hkind | hkind)
        · exact absurd hkind hoperator
        · exact absurd hkind hcalled
      · rintro available required at_ ⟨terms, hterms, hunbalanced⟩
        rw [h.balanced _ hmem terms (Term.groups_mono (Term.nestedAll_alone ht) hterms)] at hunbalanced
        cases hunbalanced
      · exact fun _ _ => rfl
      · exact fun name hname => hcall hstore (Term.callees_mono (Term.nestedAll_alone ht) hname)
  | assignment name e line =>
      intro store hstore
      refine ⟨?_, fun _ => ⟨hstore.found, hstore.within⟩⟩
      exact Env.expr_of_closed (h.balanced _ hmem) fun callee hcallee => hcall hstore hcallee
  | function f =>
      intro store hstore
      exact hstore.setFunction ⟨h.balanced _ hmem, fun callee hcallee => hknown hcallee⟩

/-- One child of the sheet, with the names defined before it known at its start. A function adds its
own name to them. -/
theorem Static.topNode_agrees {σ : Type} [Sink σ] {setting : Render.Setting}
    (h : sheet.Static setting.host) {before after : List Node} {child : Node}
    (hchild : sheet.children = before ++ child :: after) :
    FlatRender.Agrees (Store.Ready setting.host (Node.outerNames before))
      (Store.Ready setting.host (Node.outerNames (before ++ [child]))) (·.dynamic)
      (FlatRender.topNode setting child : FlatRender σ Unit)
      (FlatRender.topNode setting child) := by
  have hleaves (leaf : Node) (hleaf : leaf ∈ child.leaves) := h.leafAgrees hchild hleaf
  have hkind := h.children child (by simp [hchild])
  have hkeeps : FlatRender.Agrees _ _ _ (FlatRender.topNode setting child : FlatRender σ Unit)
      (FlatRender.topNode setting child) :=
    FlatRender.topNode_agrees (Store.ready_invariant setting.host (Node.outerNames before)) hleaves
      fun hdeclaration => absurd hdeclaration hkind
  rw [Node.outerNames_concat]
  -- what a rule defines is dropped at its end, so no other child adds to the names
  cases child with
  | function f =>
      have hself : Node.function f ∈ sheet.leaves :=
        Node.mem_leavesOf.mpr ⟨.function f, by simp [hchild], List.mem_cons_self⟩
      have hwithin : f.Within setting.host (Node.outerNames before) := by
        refine ⟨h.balanced _ hself, fun callee hcallee => h.known hchild ?_⟩
        exact List.mem_flatMap.mpr ⟨.function f, List.mem_cons_self, hcallee⟩
      have hlearn (store : Store) (hstore : store.Ready setting.host (Node.outerNames before)) :=
        hstore.learn hwithin
      exact FlatRender.changeStore_agrees hlearn
  | rule own children line => simpa [Node.function?] using hkeeps
  | declaration property values line => simpa [Node.function?] using hkeeps
  | assignment name e line => simpa [Node.function?] using hkeeps

/-- The nodes from any point on fail for dynamic reasons only. -/
theorem Static.topNodes_agrees {σ : Type} [Sink σ] {setting : Render.Setting}
    (h : sheet.Static setting.host) {before after : List Node}
    (hsplit : sheet.children = before ++ after) :
    FlatRender.Agrees (Store.Ready setting.host (Node.outerNames before))
      (Store.Ready setting.host (Node.outerNames sheet.children)) (·.dynamic)
      (FlatRender.topNodes setting after : FlatRender σ Unit)
      (FlatRender.topNodes setting after) := by
  induction after generalizing before with
  | nil =>
      rw [hsplit, List.append_nil]
      exact .pure ()
  | cons child rest ih =>
      have hrest : sheet.children = (before ++ [child]) ++ rest := by simp [hsplit]
      exact (h.topNode_agrees hsplit).bind fun _ => ih hrest

/-- A sheet that is `Static` on its host is rendered, to whatever sink, or fails because an operator
refuses its operands, because the host refuses a call or because the sink fails, provided that its
calls come to an end. -/
theorem renderIn_of_static (setting : Render.Setting) (h : sheet.Static setting.host)
    {σ : Type} [Sink σ] (sink : σ)
    (hends : (sheet.renderIn setting sink).result ≠ .error .callDepth) :
    ∀ error, (sheet.renderIn setting sink).result = .error error →
      (∃ op line, error = .invalidOperands op line) ∨
      (∃ function line reason, error = .invocation function line reason) ∨
      ∃ reason, error = .sink reason := by
  intro error hfails
  have hagrees : FlatRender.Agrees _ _ _
      (FlatRender.topNodes setting sheet.children : FlatRender σ Unit)
      (FlatRender.topNodes setting sheet.children) := h.topNodes_agrees (List.nil_append _).symm
  have hempty : Store.Ready setting.host (Node.outerNames []) {} :=
    ⟨by simp [Node.outerNames], .empty⟩
  have hdynamic := (renderIn_of_agrees hagrees hempty (fun _ _ => rfl) sink).2 error hfails
  cases error with
  | unexpected kind line => cases hdynamic
  | argumentCount available required line => cases hdynamic
  | functionNotFound name line => cases hdynamic
  | callDepth => exact absurd hfails hends
  | invalidOperands op line => exact .inl ⟨op, line, rfl⟩
  | invocation function line reason => exact .inr (.inl ⟨function, line, reason, rfl⟩)
  | sink reason => exact .inr (.inr ⟨reason, rfl⟩)

end Sheet

/-- A function calls one of the host for a default, and a rule defines it anew before calling it. -/
def sheetInOrder : Sheet :=
  ⟨[.function ⟨"f", [⟨"x", some ⟨[.call "g" 0 1], 1⟩⟩], ⟨[.reference "x" 1], 1⟩, 1⟩,
    .rule ["a"] [
      .declaration "color" [.group [.call "f" 0 3] 3] 3,
      .function ⟨"f", [],
        ⟨[.constant (.ident "red") 4, .group [.reference "x" 4] 4, .call "g" 2 4], 4⟩, 4⟩,
      .declaration "color" [.group [.call "f" 0 5] 5] 5] 2]⟩

/-- The host function refuses an absent argument in second place. -/
def refusingHost : Host :=
  .ofTables [HostTable.provide {} ⟨"g", 1, fun
    | [_, none] => .error "absent"
    | _ => .ok none⟩]

theorem static_sheetInOrder : sheetInOrder.Static refusingHost where
  children := by decide
  values := by decide
  balanced := by decide
  calls := by
    have hnames : ∀ child ∈ sheetInOrder.children, ∀ name ∈ child.calls,
        name = "g" ∨ name = "f" := by
      decide
    intro child hchild name hname
    rcases hnames child hchild name hname with rfl | rfl
    · exact .inl rfl
    · exact .inr ⟨[], _, _, rfl, rfl, by decide⟩

theorem renderIn_of_static_sheetInOrder :
    sheetInOrder.Static refusingHost ∧
      (sheetInOrder.renderIn ⟨refusingHost, 1⟩ ({} : Buffer)).result =
        .error (.invocation "g" 4 "absent") ∧
      ∀ error, (sheetInOrder.renderIn ⟨refusingHost, 1⟩ ({} : Buffer)).result = .error error →
        (∃ op line, error = .invalidOperands op line) ∨
        (∃ function line reason, error = .invocation function line reason) ∨
        ∃ reason, error = .sink reason := by
  have hrefused : (sheetInOrder.renderIn ⟨refusingHost, 1⟩ ({} : Buffer)).result =
      .error (.invocation "g" 4 "absent") := by
    decide +kernel
  refine ⟨static_sheetInOrder, hrefused, ?_⟩
  apply Sheet.renderIn_of_static ⟨refusingHost, 1⟩ static_sheetInOrder
  rw [hrefused]
  simp

end Stylesheet
