import Stylesheet.Proofs.Leaves

/-!
The names that a sheet mentions: the variables it refers to and the functions it calls. Nothing else
of what is in sight has any effect. Two places in which the same functions are found under the names
in use, and the same variables, give every expression that keeps to these names the same value or
the same error, however deep its calls go.
-/

namespace Stylesheet

/-- The names that terms mention, in nested expressions too. -/
def Term.mentions : NameKind → List Term → List String
  | .value, terms => references terms
  | .function, terms => callees terms

/-- Terms mention no more than those they stand among. -/
theorem Term.mentions_mono {terms others : List Term} (h : nestedAll terms ⊆ nestedAll others)
    (kind : NameKind) : mentions kind terms ⊆ mentions kind others := by
  cases kind with
  | value => exact references_mono h
  | function => exact callees_mono h

def Expr.mentions (kind : NameKind) (e : Expr) : List String := Term.mentions kind e.terms

def FunctionDef.mentions (kind : NameKind) (f : FunctionDef) : List String :=
  f.parts.flatMap (Expr.mentions kind)

namespace Node

/-- The names that a leaf mentions. A definition does not mention the name that it defines. -/
def ownMentions (kind : NameKind) : Node → List String
  | .rule .. => []
  | .declaration _ values _ => Term.mentions kind values
  | .assignment _ e _ => e.mentions kind
  | .function f => f.mentions kind

/-- The names that are mentioned anywhere in the node. -/
def mentions (kind : NameKind) (n : Node) : List String := n.leaves.flatMap (ownMentions kind)

/-- What a leaf mentions, the node around it mentions. -/
theorem mem_mentions_of_leaf {n leaf : Node} (hleaf : leaf ∈ n.leaves) {kind : NameKind}
    {name : String} (h : name ∈ leaf.ownMentions kind) : name ∈ n.mentions kind :=
  List.mem_flatMap.mpr ⟨leaf, hleaf, h⟩

end Node

/-- The terms mention names in use only. -/
def Term.KeepTo (used : NameKind → String → Prop) (terms : List Term) : Prop :=
  ∀ kind, ∀ name ∈ mentions kind terms, used kind name

def FunctionDef.KeepsTo (used : NameKind → String → Prop) (f : FunctionDef) : Prop :=
  ∀ kind, ∀ name ∈ f.mentions kind, used kind name

section KeepTo

variable {used : NameKind → String → Prop}

theorem Term.KeepTo.alone {terms : List Term} (h : KeepTo used terms) {t : Term} (ht : t ∈ terms) :
    KeepTo used [t] :=
  fun kind _ hname => h kind _ (mentions_mono (nestedAll_alone ht) kind hname)

theorem Term.KeepTo.inside {terms : List Term} {line : Nat} (h : KeepTo used [.group terms line]) :
    KeepTo used terms :=
  fun kind _ hname => h kind _ (mentions_mono (nestedAll_inside terms line []) kind hname)

/-- A function that keeps to some names does so in its body and in every default. -/
theorem FunctionDef.KeepsTo.part {f : FunctionDef} (h : f.KeepsTo used) {part : Expr}
    (hpart : part ∈ f.parts) : Term.KeepTo used part.terms :=
  fun kind name hname => h kind name (List.mem_flatMap.mpr ⟨part, hpart, hname⟩)

end KeepTo

namespace Env

/-- What is found under the names in use is the same in both places, and the functions found keep to
these names. The host counts only where the sheet has no function. -/
structure SameOn (used : NameKind → String → Prop) (env place : Env) : Prop where
  frame : place.frame? = env.frame?
  base : ∀ name, used .value name → place.base name = env.base name
  function : ∀ name, used .function name → place.function? name = env.function? name
  host : ∀ name, used .function name → env.function? name = none →
    place.hostFunction? name = env.hostFunction? name
  keeps : ∀ name f, used .function name → env.function? name = some f → f.KeepsTo used

variable {used : NameKind → String → Prop} {env place : Env}

theorem SameOn.value_eq (h : SameOn used env place) {name : String} (hname : used .value name) :
    place.value name = env.value name := by
  rw [value, value, h.frame, h.base name hname]

/-- Places that look the same keep doing so inside a call with the same arguments. -/
theorem SameOn.withFrame (h : SameOn used env place) (frame : Frame) :
    SameOn used (env.withFrame frame) (place.withFrame frame) where
  frame := rfl
  base := h.base
  function := h.function
  host := h.host
  keeps := h.keeps

/-- An expression of the names in use has the same value in both places, if its calls have. -/
theorem SameOn.expr_of_calls (h : SameOn used env place) {call : Call}
    (hcall : ∀ name, used .function name → ∀ given line,
      call place name given line = call env name given line) {e : Expr}
    (he : Term.KeepTo used e.terms) : expr call place e = expr call env e := by
  apply expr_congr
  · exact fun name hname => h.value_eq (he .value name hname)
  · exact fun name hname => hcall name (he .function name hname)

/-- A name that no sheet function has goes to the host, which is the same in both places. -/
theorem SameOn.invoke_eq_of_none (h : SameOn used env place) (depth : Nat) {name : String}
    (hname : used .function name) (hf : env.function? name = none) (given : List (Option Value))
    (line : Nat) : invoke depth place name given line = invoke depth env name given line := by
  have hplace : place.function? name = none := (h.function name hname).trans hf
  rw [invoke_of_none hf, invoke_of_none hplace, callHost, callHost, h.host name hname hf]

/-- A call has the same outcome in both places. The functions that both find are the same and keep
to the names in use, so this passes from one depth to the next. -/
theorem SameOn.invoke_eq (h : SameOn used env place) (depth : Nat) {name : String}
    (hname : used .function name) (given : List (Option Value)) (line : Nat) :
    invoke depth place name given line = invoke depth env name given line := by
  induction depth generalizing env place name given line with
  | zero =>
      cases hf : env.function? name with
      | none => exact h.invoke_eq_of_none 0 hname hf given line
      | some f => simp [invoke, dispatch, h.function name hname, hf]
  | succ depth ih =>
      cases hf : env.function? name with
      | none => exact h.invoke_eq_of_none (depth + 1) hname hf given line
      | some f =>
          have hplace : place.function? name = some f := (h.function name hname).trans hf
          have hkeeps := h.keeps name f hname hf
          rw [invoke_of_some hf, invoke_of_some hplace]
          apply callFunction_congr
          · intro param hparam e hdefault
            exact h.expr_of_calls (fun _ => ih h)
              (hkeeps.part (mem_parts_of_default hparam hdefault))
          · intro frame
            have hinside := h.withFrame frame
            exact hinside.expr_of_calls (fun _ => ih hinside) (hkeeps.part List.mem_cons_self)

/-- Nothing but the names in use matters to the value of an expression. -/
theorem SameOn.expr_eq (h : SameOn used env place) (depth : Nat) {e : Expr}
    (he : Term.KeepTo used e.terms) :
    expr (invoke depth) place e = expr (invoke depth) env e :=
  h.expr_of_calls (fun _ => h.invoke_eq depth) he

theorem SameOn.term_eq (h : SameOn used env place) (depth : Nat) {t : Term}
    (ht : Term.KeepTo used [t]) :
    term (invoke depth) place t = term (invoke depth) env t := by
  cases t with
  | constant value line => rfl
  | operator op line => rfl
  | call name argc line => rfl
  | reference name line =>
      have hname : used .value name :=
        ht .value name (Term.mem_references (Term.mem_nestedAll_self _ []))
      rw [term, term, h.value_eq hname]
  | group terms line =>
      have hgroup : expr (invoke depth) place ⟨terms, line⟩ =
          expr (invoke depth) env ⟨terms, line⟩ := h.expr_eq depth ht.inside
      exact hgroup

end Env

end Stylesheet
