import Stylesheet.Host.ColorFunctions
import Stylesheet.Proofs.CallGraph

/-!
Which node of a sheet an error points at. The line of an error is that of a term or of a declaration
in the sheet, and the rest of the error is true of it. The term may be far from the node that is
being rendered: in the body of a function, or in a default, that is reached through any number of
calls from another rule. What makes this hold is that every function in sight stands in the sheet.
-/

namespace Stylesheet

def Term.expr? : Term → Option Expr
  | .group terms line => some ⟨terms, line⟩
  | _ => none

/-- The expressions of a leaf. A value of a declaration is not in an expression by itself. -/
def Node.expressions : Node → List Expr
  | .rule .. => []
  | .declaration _ values _ => values.filterMap Term.expr?
  | .assignment _ e _ => [e]
  | .function f => f.parts

namespace HostTable

/-- The tables that are made by adding to the empty one. -/
inductive Built : HostTable → Prop where
  | empty : Built {}
  | define {table : HostTable} (h : Built table) (name : String) (value : Value) :
      Built (table.define name value)
  | provide {table : HostTable} (h : Built table) (f : HostFunction) : Built (table.provide f)

/-- A table that was built from definitions has every function under its own name. -/
theorem Built.name_eq {table : HostTable} (h : table.Built) {name : String} {f : HostFunction}
    (hf : table.functions.find? name = some f) : f.name = name := by
  induction h with
  | empty => cases hf
  | define _ _ _ ih => exact ih hf
  | provide _ g ih =>
      by_cases hname : name = g.name
      · subst hname
        simp only [HostTable.provide, Bindings.find?_insert_self] at hf
        cases hf
        rfl
      · simp only [HostTable.provide, Bindings.find?_insert_of_ne _ _ hname] at hf
        exact ih hf

end HostTable

theorem Host.name_eq_of_ofTables {tables : List HostTable} (h : ∀ table ∈ tables, table.Built)
    {name : String} {f : HostFunction} (hf : (Host.ofTables tables).function? name = some f) :
    f.name = name := by
  obtain ⟨table, hmem, hfind⟩ := List.exists_of_findSome?_eq_some hf
  exact (h table hmem).name_eq hfind

namespace Sheet

/-- The term stands in an expression of the sheet, at any depth. -/
def HasTerm (sheet : Sheet) (t : Term) : Prop :=
  ∃ leaf ∈ sheet.leaves, ∃ e ∈ leaf.expressions, t ∈ Term.nestedAll e.terms

/-- The errors that a sheet can lead to on a host, each with what it points at. -/
inductive Explains (sheet : Sheet) (host : Host) : Error → Prop where
  | operatorCount {op : Operator} {line available : Nat}
      (hterm : sheet.HasTerm (.operator op line)) (hfew : available < op.arity) :
      Explains sheet host (.argumentCount available op.arity line)
  | callCount {name : String} {argc line available : Nat}
      (hterm : sheet.HasTerm (.call name argc line)) (hfew : available < argc) :
      Explains sheet host (.argumentCount available argc line)
  | operands {op : Operator} {line : Nat} (hterm : sheet.HasTerm (.operator op line)) :
      Explains sheet host (.invalidOperands op line)
  | missing {name : String} {argc line : Nat} (hterm : sheet.HasTerm (.call name argc line))
      (hhost : host.function? name = none) : Explains sheet host (.functionNotFound name line)
  | refused {name : String} {argc line : Nat} {f : HostFunction} {given : List (Option Value)}
      {reason : String} (hterm : sheet.HasTerm (.call name argc line))
      (hhost : host.function? name = some f) (hcall : f.call given = .error reason) :
      Explains sheet host (.invocation name line reason)
  | outside {property : String} {values : List Term} {line : Nat}
      (hchild : .declaration property values line ∈ sheet.children) :
      Explains sheet host (.unexpected .declaration line)
  | bare {rule : Node} {property : String} {values : List Term} {t : Term} {line : Nat}
      (hrule : rule ∈ sheet.children) (hkind : rule.kind = .rule)
      (hleaf : .declaration property values line ∈ rule.leaves) (hvalue : t ∈ values)
      (hbare : t.kind = .operator ∨ t.kind = .functionCall) :
      Explains sheet host (.unexpected t.kind t.line)

def ExplainsOrDeep (sheet : Sheet) (host : Host) (error : Error) : Prop :=
  error = .callDepth ∨ sheet.Explains host error

/-- The functions of a sheet are the leaves that define one. -/
theorem mem_functions_iff {sheet : Sheet} {f : FunctionDef} :
    f ∈ sheet.functions ↔ .function f ∈ sheet.leaves := by
  constructor
  · intro hf
    obtain ⟨leaf, hleaf, hself⟩ := List.mem_filterMap.mp hf
    cases leaf with
    | function g =>
        cases hself
        exact hleaf
    | rule own children line => cases hself
    | declaration property values line => cases hself
    | assignment name e line => cases hself
  · intro hleaf
    exact List.mem_filterMap.mpr ⟨_, hleaf, rfl⟩

/-- Every term in a function of the sheet is one of the sheet. -/
theorem hasTerm_of_function {sheet : Sheet} {f : FunctionDef} (hf : f ∈ sheet.functions)
    {part : Expr} (hpart : part ∈ f.parts) {t : Term} (ht : t ∈ Term.nestedAll part.terms) :
    sheet.HasTerm t :=
  ⟨.function f, mem_functions_iff.mp hf, part, hpart, ht⟩

end Sheet

namespace Env

/-- All functions in sight are functions of the sheet and of the host. -/
structure Stems (sheet : Sheet) (host : Host) (env : Env) : Prop where
  sheet : ∀ name f, env.function? name = some f → f ∈ sheet.functions
  host : env.hostFunction? = host.function?

variable {sheet : Sheet} {host : Host} {env place : Env} {call : Call} {error : Error}

theorem SameFunctions.stems (hsame : SameFunctions env place) (h : env.Stems sheet host) :
    place.Stems sheet host where
  sheet := by
    rw [hsame.sheet]
    exact h.sheet
  host := hsame.host.trans h.host

/-- A term that finds too few values is an operator or a call, since no other takes any. -/
theorem explains_of_few {t : Term} {available : Nat} (ht : sheet.HasTerm t)
    (hfew : available < t.takes) :
    sheet.Explains host (.argumentCount available t.takes t.line) := by
  cases t with
  | operator op line => exact .operatorCount ht hfew
  | call name argc line => exact .callCount ht hfew
  | constant value line => simp [Term.takes] at hfew
  | reference name line => simp [Term.takes] at hfew
  | group terms line => simp [Term.takes] at hfew

/-- A term of the expression explains the error, or one of the calls that it makes. -/
theorem explains_of_expr_error {e : Expr} (he : ∀ t ∈ Term.nestedAll e.terms, sheet.HasTerm t)
    (hcall : ∀ name argc line given, sheet.HasTerm (.call name argc line) →
      call env name given line = .error error → sheet.ExplainsOrDeep host error)
    (h : expr call env e = .error error) : sheet.ExplainsOrDeep host error := by
  cases cause_of_expr_error h with
  | underflow hterm hfew _ => exact .inr (explains_of_few (he _ hterm) hfew)
  | operands hterm => exact .inr (.operands (he _ hterm))
  | call hterm herror => exact hcall _ _ _ _ (he _ hterm) herror

/-- A call that the host lacks or refuses is explained by the term that makes it. -/
theorem explains_of_callHost_error (hnames : ∀ name f, host.function? name = some f → f.name = name)
    (hhost : env.hostFunction? = host.function?) {name : String} {argc line : Nat}
    (hterm : sheet.HasTerm (.call name argc line)) {given : List (Option Value)}
    (h : callHost env name given line = .error error) : sheet.Explains host error := by
  rcases error_of_callHost h with ⟨hnone, rfl⟩ | ⟨f, reason, hsome, hrefused, rfl⟩
  · rw [hhost] at hnone
    exact .missing hterm hnone
  · rw [hhost] at hsome
    rw [hnames name f hsome]
    exact .refused hterm hsome hrefused

/-- What a call of the sheet leads to. The induction is on the depth: a function that is called
stands in the sheet, so the calls in its expressions are calls of the sheet too. -/
theorem explains_of_invoke_error
    (hnames : ∀ name f, host.function? name = some f → f.name = name) (depth : Nat)
    (henv : env.Stems sheet host) {name : String} {argc line : Nat}
    (hterm : sheet.HasTerm (.call name argc line)) {given : List (Option Value)}
    (h : invoke depth env name given line = .error error) : sheet.ExplainsOrDeep host error := by
  induction depth generalizing env name argc line given with
  | zero =>
      cases hf : env.function? name with
      | none =>
          rw [invoke_of_none hf] at h
          exact .inr (explains_of_callHost_error hnames henv.host hterm h)
      | some f =>
          have hdeep : invoke 0 env name given line = .error .callDepth := by
            simp [invoke, dispatch, hf]
          rw [hdeep] at h
          cases h
          exact .inl rfl
  | succ depth ih =>
      cases hf : env.function? name with
      | none =>
          rw [invoke_of_none hf] at h
          exact .inr (explains_of_callHost_error hnames henv.host hterm h)
      | some f =>
          rw [invoke_of_some hf] at h
          obtain ⟨part, hpart, place, hplace, hfail⟩ := error_of_callFunction h
          have hparts (t : Term) (ht : t ∈ Term.nestedAll part.terms) : sheet.HasTerm t :=
            Sheet.hasTerm_of_function (henv.sheet name f hf) hpart ht
          apply explains_of_expr_error hparts _ hfail
          intro callee count at_ arguments hcallee hfailed
          exact ih (hplace.stems henv) hcallee hfailed

end Env

namespace Sheet

variable {sheet : Sheet} {setting : Render.Setting}

theorem stems_of_functionsFrom {store : Store} (h : store.FunctionsFrom sheet.functions)
    (host : Host) : (store.env host).Stems sheet host where
  sheet := fun name f hf => (h name f hf).1
  host := rfl

/-- From a store that was filled by the sheet, every error of an expression is explained. -/
theorem matches_of_explains {store : Store} (h : store.FunctionsFrom sheet.functions)
    (hnames : ∀ name f, setting.host.function? name = some f → f.name = name) {e : Expr}
    (he : ∀ t ∈ Term.nestedAll e.terms, sheet.HasTerm t) :
    Matches (sheet.ExplainsOrDeep setting.host)
      (Env.expr (Env.invoke setting.depth) (store.env setting.host) e)
      (Env.expr (Env.invoke setting.depth) (store.env setting.host) e) := by
  have hstems := stems_of_functionsFrom h setting.host
  refine ⟨rfl, fun error herror => ?_⟩
  apply Env.explains_of_expr_error he _ herror
  intro name argc line given hterm hfailed
  exact Env.explains_of_invoke_error hnames setting.depth hstems hterm hfailed

/-- The leaves of one child, which is not a declaration of its own. -/
theorem leafAgrees_of_names
    (hnames : ∀ name f, setting.host.function? name = some f → f.name = name) {child leaf : Node}
    (hchild : child ∈ sheet.children) (hkind : child.kind ≠ .declaration)
    (hleaf : leaf ∈ child.leaves) :
    FlatRender.LeafAgrees setting setting (Store.FunctionsFrom sheet.functions)
      (sheet.ExplainsOrDeep setting.host) leaf := by
  have hmem : leaf ∈ sheet.leaves := Node.mem_leavesOf.mpr ⟨child, hchild, hleaf⟩
  have hterms {e : Expr} (he : e ∈ leaf.expressions) (t : Term)
      (ht : t ∈ Term.nestedAll e.terms) : sheet.HasTerm t := ⟨leaf, hmem, e, he, ht⟩
  cases leaf with
  | rule own children line => trivial
  | assignment name e line =>
      intro store hstore
      have hown := hterms (e := e) (by simp [Node.expressions])
      exact ⟨matches_of_explains hstore hnames hown, fun _ => hstore⟩
  | function f =>
      intro store hstore
      exact hstore.setFunction ⟨mem_functions_iff.mpr hmem, rfl⟩
  | declaration property values line =>
      intro store hstore t ht
      have hrule : child.kind = .rule := by
        cases child with
        | rule own children line => rfl
        | declaration property values line => exact absurd rfl hkind
        | assignment name e line => simp [Node.leaves] at hleaf
        | function f => simp [Node.leaves] at hleaf
      have hbare (h : t.kind = .operator ∨ t.kind = .functionCall) :
          sheet.ExplainsOrDeep setting.host (.unexpected t.kind t.line) :=
        .inr (.bare hchild hrule hleaf ht h)
      cases t with
      | constant value line => exact .ok _
      | reference name line => exact .ok _
      | operator op line =>
          refine ⟨rfl, fun error herror => ?_⟩
          cases herror
          exact hbare (.inl rfl)
      | call name argc line =>
          refine ⟨rfl, fun error herror => ?_⟩
          cases herror
          exact hbare (.inr rfl)
      | group terms line =>
          have hgroup : (⟨terms, line⟩ : Expr) ∈ values.filterMap Term.expr? :=
            List.mem_filterMap.mpr ⟨_, ht, rfl⟩
          exact matches_of_explains hstore hnames (hterms hgroup)

/-- So is every error of rendering, be it of a leaf or of the sink. -/
theorem topNodes_explained {σ : Type} [Sink σ]
    (hsink : ∀ reason, Sink.Refuses σ reason → sheet.ExplainsOrDeep setting.host (.sink reason))
    (hnames : ∀ name f, setting.host.function? name = some f → f.name = name)
    {children : List Node} (hchildren : children ⊆ sheet.children) :
    FlatRender.Agrees (Store.FunctionsFrom sheet.functions) (Store.FunctionsFrom sheet.functions)
      (sheet.ExplainsOrDeep setting.host)
      (FlatRender.topNodes setting children : FlatRender σ Unit)
      (FlatRender.topNodes setting children) := by
  induction children with
  | nil => exact .pure ()
  | cons first rest ih =>
      have hfirst : first ∈ sheet.children := hchildren List.mem_cons_self
      have hrest := ih fun n hn => hchildren (List.mem_cons_of_mem _ hn)
      refine FlatRender.Agrees.bind ?_ fun _ => hrest
      by_cases hkind : first.kind = .declaration
      · cases first with
        | declaration property values line => exact fun _ _ => ⟨rfl, .inr (.outside hfirst)⟩
        | rule own children line => cases hkind
        | assignment name e line => cases hkind
        | function f => cases hkind
      · apply FlatRender.topNode_agrees (Store.functionsFrom_invariant hsink sheet.functions)
        · exact fun leaf hleaf => leafAgrees_of_names hnames hfirst hkind hleaf
        · exact fun h => absurd h hkind

/-- Every error of a rendering that ends points at a node of the sheet, and names what is wrong with
it, provided that the sink does not fail. The host is any chain of tables, or none at all. -/
theorem error_points_at_node (sheet : Sheet) (tables : List HostTable)
    (htables : ∀ table ∈ tables, table.Built) (depth : Nat) {σ : Type} [Sink σ] (sink : σ)
    (hsink : Sink.Unfailing sink)
    (hends : (sheet.renderIn ⟨.ofTables tables, depth⟩ sink).result ≠ .error .callDepth) :
    ∀ error, (sheet.renderIn ⟨.ofTables tables, depth⟩ sink).result = .error error →
      sheet.Explains (.ofTables tables) error := by
  intro error herror
  rw [result_of_unfailing hsink] at hends herror
  have hnames (name : String) (f : HostFunction)
      (hf : (Host.ofTables tables).function? name = some f) : f.name = name :=
    Host.name_eq_of_ofTables htables hf
  have hnever (reason : String) (hrefuses : Sink.Refuses Record reason) :
      sheet.ExplainsOrDeep (.ofTables tables) (.sink reason) :=
    absurd hrefuses (Record.not_refuses reason)
  have hagrees : FlatRender.Agrees _ _ _
      (FlatRender.topNodes ⟨.ofTables tables, depth⟩ sheet.children : FlatRender Record Unit)
      (FlatRender.topNodes ⟨.ofTables tables, depth⟩ sheet.children) :=
    topNodes_explained hnever hnames (List.Subset.refl _)
  have hexplained := (renderIn_of_agrees hagrees Store.EachFunction.empty hnever {}).2 error herror
  rcases hexplained with rfl | hexplained
  · exact absurd herror hends
  · exact hexplained

end Sheet

/-- The default of a parameter has no value for what it calls. It is reached from a rule, through
the body of another function. -/
def sheetOfBadDefault : Sheet :=
  ⟨[.function ⟨"inner", [⟨"x", some ⟨[.call "percentage" 0 1], 1⟩⟩], ⟨[.reference "x" 2], 2⟩, 1⟩,
    .function ⟨"outer", [], ⟨[.call "inner" 0 3], 3⟩, 3⟩,
    .rule ["a"] [.declaration "width" [.group [.call "outer" 0 5] 5] 5] 4]⟩

/-- The second table is asked for what the first does not have. -/
def chainedTables : List HostTable :=
  [HostTable.define {} "x" (.number 1.0), ColorFunctions.table]

theorem built_of_mem_chainedTables : ∀ table ∈ chainedTables, table.Built := by
  intro table htable
  simp only [chainedTables, List.mem_cons, List.not_mem_nil, or_false] at htable
  rcases htable with rfl | rfl
  · exact .define .empty _ _
  · exact .provide (.provide (.provide (.provide (.provide .empty _) _) _) _) _

theorem error_points_at_node_in_default :
    (sheetOfBadDefault.renderIn ⟨.ofTables chainedTables, 2⟩ ({} : Buffer)).result =
        .error (.invocation "percentage" 1 "missing value") ∧
      sheetOfBadDefault.Explains (.ofTables chainedTables)
        (.invocation "percentage" 1 "missing value") := by
  have hfails : (sheetOfBadDefault.renderIn ⟨.ofTables chainedTables, 2⟩ ({} : Buffer)).result =
      .error (.invocation "percentage" 1 "missing value") := by
    decide +kernel
  have hends : (sheetOfBadDefault.renderIn ⟨.ofTables chainedTables, 2⟩ ({} : Buffer)).result ≠
      .error .callDepth := by
    rw [hfails]
    simp
  exact ⟨hfails, Sheet.error_points_at_node sheetOfBadDefault chainedTables
    built_of_mem_chainedTables 2 ({} : Buffer) (Buffer.unfailing rfl rfl) hends _ hfails⟩

end Stylesheet
