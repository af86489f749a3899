import Mathlib.Data.Finset.Card
import Mathlib.Logic.Relation
import Stylesheet.Proofs.Leaves

/-!
Which functions of a sheet can call which. If no chain of such calls leads back to where it began,
every call under way has a name of its own, so calls are never nested deeper than there are
functions, and following them any deeper changes nothing. The functions in sight change while a
sheet is rendered, but each of them stands in the sheet, and that is all the argument needs.
-/

namespace Stylesheet

/-- No chain of steps leads back to where it began. -/
def Acyclic (step : String → String → Prop) : Prop :=
  ∀ name, ¬ Relation.TransGen step name name

theorem Acyclic.of_rank {step : String → String → Prop} (rank : String → Nat)
    (h : ∀ f g, step f g → rank g < rank f) : Acyclic step := by
  have hchain {f g : String} (hstep : Relation.TransGen step f g) : rank g < rank f := by
    induction hstep with
    | single hfirst => exact h _ _ hfirst
    | tail _ hlast ih => exact (h _ _ hlast).trans ih
  exact fun name hcycle => Nat.lt_irrefl _ (hchain hcycle)

/-- Steps among finitely many names that have no cycle go down in rank, by how many of the names can
still be reached. -/
theorem Acyclic.exists_rank {step : String → String → Prop} (h : Acyclic step)
    {names : List String} (hnames : ∀ f g, step f g → g ∈ names) :
    ∃ rank : String → Nat, (∀ f g, step f g → rank g < rank f) ∧
      ∀ f ∈ names, rank f < names.length := by
  classical
  let reached (f : String) : Finset String :=
    names.toFinset.filter fun g => Relation.TransGen step f g
  have hself (f : String) : f ∉ reached f := fun hmem => h f (Finset.mem_filter.mp hmem).2
  refine ⟨fun f => (reached f).card, ?_, ?_⟩
  · -- all that `g` reaches `f` reaches too, and besides it reaches `g`, which `g` does not
    intro f g hstep
    apply Finset.card_lt_card
    rw [Finset.ssubset_iff_of_subset]
    · have hg : g ∈ reached f :=
        Finset.mem_filter.mpr ⟨List.mem_toFinset.mpr (hnames f g hstep), .single hstep⟩
      exact ⟨g, hg, hself g⟩
    · intro other hother
      obtain ⟨hlisted, hchain⟩ := Finset.mem_filter.mp hother
      exact Finset.mem_filter.mpr ⟨hlisted, .head hstep hchain⟩
  · intro f hf
    have hfewer : reached f ⊂ names.toFinset := by
      rw [Finset.ssubset_iff_of_subset (Finset.filter_subset _ _)]
      exact ⟨f, List.mem_toFinset.mpr hf, hself f⟩
    exact (Finset.card_lt_card hfewer).trans_le (List.toFinset_card_le names)

namespace Env

/-- Functions that call only functions of lower rank, with all ranks below `count`. -/
structure Ranked (functions : String → Option FunctionDef) (rank : String → Nat) (count : Nat) :
    Prop where
  falls : ∀ name f, functions name = some f → ∀ callee ∈ f.calls,
    (functions callee).isSome → rank callee < rank name
  bounded : ∀ name, (functions name).isSome → rank name < count

variable {functions : String → Option FunctionDef} {rank : String → Nat} {count : Nat}

/-- A call ends at any depth beyond its rank, and always in the same way. -/
theorem invoke_matches_of_rank (h : Ranked functions rank count) {depth deeper : Nat} {env : Env}
    (henv : env.function? = functions) {name : String}
    (hdepth : (functions name).isSome → rank name < depth ∧ rank name < deeper)
    (given : List (Option Value)) (line : Nat) :
    Matches (· ≠ .callDepth) (invoke depth env name given line)
      (invoke deeper env name given line) := by
  induction depth generalizing deeper env name given line with
  | zero =>
      cases hf : functions name with
      | none => apply invoke_matches_of_none (by rw [henv, hf]) <;> simp
      | some f =>
          have hbeyond := hdepth (by simp [hf])
          omega
  | succ depth ih =>
      cases hf : functions name with
      | none => apply invoke_matches_of_none (by rw [henv, hf]) <;> simp
      | some f =>
          have hbeyond := hdepth (by simp [hf])
          obtain ⟨lower, rfl⟩ : ∃ lower, deeper = lower + 1 := ⟨deeper - 1, by omega⟩
          have hsight : env.function? name = some f := by rw [henv, hf]
          rw [invoke_of_some hsight, invoke_of_some hsight]
          -- body and defaults have one level less, but all that they call is lower in rank
          apply callFunction_matches
          intro part hpart place hplace
          apply expr_matches (by simp) (by simp)
          intro callee hcallee
          apply ih (hplace.sheet.trans henv)
          intro hsome
          have hcalls : callee ∈ f.calls := List.mem_flatMap.mpr ⟨part, hpart, hcallee⟩
          have hlower := h.falls name f hf callee hcalls hsome
          omega

theorem invoke_matches_of_count (h : Ranked functions rank count) {depth deeper : Nat}
    (hdepth : count ≤ depth) (hdeeper : count ≤ deeper) {env : Env}
    (henv : env.function? = functions) (name : String) (given : List (Option Value)) (line : Nat) :
    Matches (· ≠ .callDepth) (invoke depth env name given line)
      (invoke deeper env name given line) := by
  apply invoke_matches_of_rank h henv
  intro hsome
  have hlow := h.bounded name hsome
  omega

end Env

namespace Sheet

/-- The functions that the sheet defines, at any depth. -/
def functions (sheet : Sheet) : List FunctionDef := sheet.leaves.filterMap Node.function?

/-- Some definition of the one name calls the other, in its body or in a default, and the other is
the name of a function of the sheet too. -/
def Calls (sheet : Sheet) (name callee : String) : Prop :=
  ∃ f ∈ sheet.functions, f.name = name ∧ callee ∈ f.calls ∧ ∃ g ∈ sheet.functions, g.name = callee

end Sheet

namespace Node

mutual

theorem length_functions_leaves (n : Node) :
    (n.leaves.filterMap Node.function?).length = n.functionCount := by
  cases n with
  | rule own children line =>
      rw [leaves, functionCount]
      exact length_functions_leavesOf children
  | declaration property values line => rfl
  | assignment name e line => rfl
  | function f => rfl

theorem length_functions_leavesOf (nodes : List Node) :
    ((leavesOf nodes).filterMap Node.function?).length = functionCounts nodes := by
  cases nodes with
  | nil => rfl
  | cons first rest =>
      rw [leavesOf, functionCounts, List.filterMap_append, List.length_append,
        length_functions_leaves first, length_functions_leavesOf rest]

end

end Node

namespace Store

/-- Every function of the store is one of the list, under its own name. -/
def FunctionsFrom (functions : List FunctionDef) : Store → Prop :=
  EachFunction fun name f => f ∈ functions ∧ f.name = name

theorem functionsFrom_invariant {σ : Type} [Sink σ] {E : Error → Prop}
    (hsink : ∀ reason, Sink.Refuses σ reason → E (.sink reason)) (functions : List FunctionDef) :
    FlatRender.Invariant σ (FunctionsFrom functions) E where
  sink := hsink
  restrict := fun _ hafter => hafter.restrict _

end Store

namespace Sheet

variable {sheet : Sheet} {rank : String → Nat}

theorem ranked_of_functionsFrom (hrank : ∀ f g, sheet.Calls f g → rank g < rank f)
    (hbound : ∀ f ∈ sheet.functions.map FunctionDef.name, rank f < sheet.functions.length)
    {store : Store} (h : Store.FunctionsFrom sheet.functions store) :
    Env.Ranked store.functions.find? rank sheet.functions.length where
  falls := by
    intro name f hf callee hcallee hsome
    obtain ⟨g, hg⟩ := Option.isSome_iff_exists.mp hsome
    obtain ⟨hmem, hname⟩ := h name f hf
    obtain ⟨hmem', hname'⟩ := h callee g hg
    exact hrank name callee ⟨f, hmem, hname, hcallee, g, hmem', hname'⟩
  bounded := by
    intro name hsome
    obtain ⟨f, hf⟩ := Option.isSome_iff_exists.mp hsome
    obtain ⟨hmem, hname⟩ := h name f hf
    exact hbound name (List.mem_map.mpr ⟨f, hmem, hname⟩)

/-- The leaves of a sheet whose functions do not call each other in a circle compute the same at all
depths from the number of functions on. -/
theorem leafAgrees_of_acyclic (h : Acyclic sheet.Calls) (host : Host) {depth deeper : Nat}
    (hdepth : sheet.functions.length ≤ depth) (hdeeper : sheet.functions.length ≤ deeper)
    {leaf : Node} (hleaf : leaf ∈ sheet.leaves) :
    FlatRender.LeafAgrees ⟨host, depth⟩ ⟨host, deeper⟩ (Store.FunctionsFrom sheet.functions)
      (· ≠ .callDepth) leaf := by
  have hnames : ∀ f g, sheet.Calls f g → g ∈ sheet.functions.map FunctionDef.name := by
    rintro f g ⟨-, -, -, -, definition, hmem, hname⟩
    exact List.mem_map.mpr ⟨definition, hmem, hname⟩
  obtain ⟨rank, hrank, hbound⟩ := h.exists_rank hnames
  rw [List.length_map] at hbound
  have hcall {store : Store} (hstore : Store.FunctionsFrom sheet.functions store) (name : String)
      (given : List (Option Value)) (line : Nat) :=
    Env.invoke_matches_of_count (ranked_of_functionsFrom hrank hbound hstore) hdepth hdeeper
      (Eq.refl (store.env host).function?) name given line
  cases leaf with
  | rule own children line => trivial
  | declaration property values line =>
      intro store hstore t _
      exact Env.term_matches (by simp) (by simp) (by simp) fun name _ => hcall hstore name
  | assignment name e line =>
      intro store hstore
      exact ⟨Env.expr_matches (by simp) (by simp) fun name _ => hcall hstore name, fun _ => hstore⟩
  | function f =>
      intro store hstore
      exact hstore.setFunction ⟨List.mem_filterMap.mpr ⟨_, hleaf, rfl⟩, rfl⟩

/-- Such a sheet is rendered alike at all depths from the number of its functions on. -/
theorem renderIn_of_acyclic {σ : Type} [Sink σ] (h : Acyclic sheet.Calls) (host : Host)
    {depth deeper : Nat} (hdepth : Node.functionCounts sheet.children ≤ depth)
    (hdeeper : Node.functionCounts sheet.children ≤ deeper) (sink : σ) :
    sheet.renderIn ⟨host, deeper⟩ sink = sheet.renderIn ⟨host, depth⟩ sink ∧
      (sheet.renderIn ⟨host, depth⟩ sink).result ≠ .error .callDepth := by
  rw [← Node.length_functions_leavesOf] at hdepth hdeeper
  have hagrees : FlatRender.Agrees _ _ _
      (FlatRender.topNodes ⟨host, depth⟩ sheet.children : FlatRender σ Unit)
      (FlatRender.topNodes ⟨host, deeper⟩ sheet.children) :=
    FlatRender.topNodes_agrees (Store.functionsFrom_invariant (by simp) sheet.functions)
      (fun _ hleaf => leafAgrees_of_acyclic h host hdepth hdeeper hleaf) (by simp)
  obtain ⟨hsame, herror⟩ := renderIn_of_agrees hagrees Store.EachFunction.empty (by simp) sink
  exact ⟨hsame, fun hdeep => herror _ hdeep rfl⟩

end Sheet

namespace Scopes

/-- The function of the one name, seen from a scope, calls the other name, and there is a function
of that name in sight too. -/
def Calls (scopes : Scopes) (number : Nat) (name callee : String) : Prop :=
  ∃ f, scopes.function? number name = some f ∧ callee ∈ f.calls ∧
    (scopes.function? number callee).isSome

def functionNames (scopes : Scopes) : List String :=
  scopes.stack.flatMap fun scope => scope.functions.names

theorem length_functionNames (scopes : Scopes) :
    scopes.functionNames.length = scopes.functionCount := by
  have hsum (stack : List Scope) (total : Nat) :
      stack.foldl (fun total scope => total + scope.functions.size) total =
        total + (stack.flatMap fun scope => scope.functions.names).length := by
    induction stack generalizing total with
    | nil => simp
    | cons scope older ih =>
        rw [List.foldl_cons, ih]
        simp [Bindings.size, Bindings.names, Nat.add_assoc]
  rw [functionCount, hsum, Nat.zero_add, functionNames]

theorem mem_stack_of_mem_pathIn {stack : List Scope} {number : Nat} {entry : Nat × Scope}
    (h : entry ∈ pathIn stack number) : entry.2 ∈ stack := by
  induction stack generalizing number with
  | nil => cases h
  | cons scope older ih =>
      rw [pathIn] at h
      split at h
      · rcases List.mem_cons.mp h with rfl | hrest
        · exact List.mem_cons_self
        · cases hparent : scope.parent with
          | none => simp [hparent] at hrest
          | some parent =>
              simp only [hparent] at hrest
              exact List.mem_cons_of_mem _ (ih hrest)
      · exact List.mem_cons_of_mem _ (ih h)

theorem mem_functionNames {scopes : Scopes} {number : Nat} {name : String}
    (h : (scopes.function? number name).isSome) : name ∈ scopes.functionNames := by
  obtain ⟨entry, hentry, hfind⟩ := List.findSome?_isSome_iff.mp h
  exact List.mem_flatMap.mpr
    ⟨entry.2, mem_stack_of_mem_pathIn hentry, Bindings.mem_names_iff.mpr hfind⟩

/-- Where the functions in sight do not call each other in a circle, evaluation is the same at all
depths from the number of functions on. -/
theorem expr_of_acyclic {scopes : Scopes} {scope : Nat} (hlive : scope < scopes.count)
    (h : Acyclic (scopes.Calls scope)) (host : Host) {depth deeper : Nat}
    (hdepth : scopes.functionCount ≤ depth) (hdeeper : scopes.functionCount ≤ deeper) (e : Expr) :
    Eval.expr host (Eval.invoke host scope deeper) scope e scopes =
      Eval.expr host (Eval.invoke host scope depth) scope e scopes ∧
      ∀ after, Eval.expr host (Eval.invoke host scope depth) scope e scopes ≠
        .error .callDepth after := by
  obtain ⟨rank, hrank, hbound⟩ := h.exists_rank fun f g ⟨_, _, _, hsome⟩ => mem_functionNames hsome
  rw [length_functionNames] at hbound
  have hranked : Env.Ranked (scopes.function? scope) rank scopes.functionCount :=
    { falls := fun name f hf callee hcallee hsome => hrank name callee ⟨f, hf, hcallee, hsome⟩
      bounded := fun name hsome => hbound name (mem_functionNames hsome) }
  have hmatches : Matches (· ≠ .callDepth)
      (Env.expr (Env.invoke depth) (scopes.env host scope) e)
      (Env.expr (Env.invoke deeper) (scopes.env host scope) e) :=
    Env.expr_matches (by simp) (by simp) fun name _ =>
      Env.invoke_matches_of_count hranked hdepth hdeeper rfl name
  have hyields (depth : Nat) : Eval.expr host (Eval.invoke host scope depth) scope e scopes =
      Eval.ofExcept (Env.expr (Env.invoke depth) (scopes.env host scope) e) scopes :=
    Eval.expr_yields (valueOf_eq_env_value hlive host) (Eval.invoke_yields host hlive depth) e
  rw [hyields, hyields, hmatches.1]
  refine ⟨rfl, ?_⟩
  intro after hdeep
  cases houtcome : Env.expr (Env.invoke depth) (scopes.env host scope) e with
  | ok value =>
      rw [houtcome] at hdeep
      cases hdeep
  | error error =>
      rw [houtcome] at hdeep
      cases hdeep
      exact hmatches.2 _ houtcome rfl

end Scopes

/-- Without recursion everything ends. A sheet whose functions do not call each other in a circle is
rendered, for every host and to every sink, without a call being given up, and no depth from the
number of its functions on makes a difference. The same holds of an expression evaluated in a live
scope from which no such circle can be seen. -/
theorem ends_without_recursion :
    (∀ sheet : Sheet, Acyclic sheet.Calls → ∀ {σ : Type} [Sink σ] (host : Host) (sink : σ),
      (sheet.render host sink).result ≠ .error .callDepth ∧
      ∀ depth, Node.functionCounts sheet.children ≤ depth →
        sheet.renderIn ⟨host, depth⟩ sink = sheet.render host sink) ∧
    (∀ (scopes : Scopes) (scope : Nat), scope < scopes.count → Acyclic (scopes.Calls scope) →
      ∀ (host : Host) (e : Expr),
      (∀ after, scopes.evaluate host scope e ≠ .error .callDepth after) ∧
      ∀ depth, scopes.functionCount ≤ depth →
        Eval.expr host (Eval.invoke host scope depth) scope e scopes =
          scopes.evaluate host scope e) := by
  have hallowed (count : Nat) : count ≤ callAllowance count := Nat.le_add_right count 500
  refine ⟨?_, ?_⟩
  · intro sheet hacyclic σ _ host sink
    have hends {depth : Nat} (hdepth : Node.functionCounts sheet.children ≤ depth) :=
      sheet.renderIn_of_acyclic hacyclic host (hallowed _) hdepth sink
    exact ⟨(hends (hallowed _)).2, fun depth hdepth => (hends hdepth).1⟩
  · intro scopes scope hlive hacyclic host e
    have hends {depth : Nat} (hdepth : scopes.functionCount ≤ depth) :=
      scopes.expr_of_acyclic hlive hacyclic host (hallowed _) hdepth e
    exact ⟨(hends (hallowed _)).2, fun depth hdepth => (hends hdepth).1⟩

/-- A function without calls, and one that calls it in a default. -/
def functionsInRow : List FunctionDef :=
  [⟨"g", [], ⟨[.constant (.ident "red") 1], 1⟩, 1⟩,
    ⟨"f", [⟨"x", some ⟨[.call "g" 0 2], 2⟩⟩], ⟨[.reference "x" 2], 2⟩, 2⟩]

/-- A rule defines the second one anew, with the call in a nested expression of its body. -/
def sheetOfCalls : Sheet :=
  ⟨functionsInRow.map .function ++
    [.rule ["a"] [
      .function ⟨"f", [], ⟨[.group [.call "g" 0 4] 4], 4⟩, 4⟩,
      .declaration "color" [.group [.call "f" 0 5] 5] 5] 3]⟩

/-- A scope within one that has both. -/
def scopesOfCalls : Scopes :=
  ⟨[{ parent := some 0 },
    { functions := .ofList (functionsInRow.map fun f => (f.name, f)) }]⟩

theorem acyclic_sheetOfCalls : Acyclic sheetOfCalls.Calls := by
  let rank (name : String) : Nat := if name = "f" then 1 else 0
  have hfalls : ∀ f ∈ sheetOfCalls.functions, ∀ callee ∈ f.calls, rank callee < rank f.name := by
    decide
  apply Acyclic.of_rank rank
  rintro name callee ⟨f, hf, rfl, hcallee, -⟩
  exact hfalls f hf callee hcallee

theorem acyclic_scopesOfCalls : Acyclic (scopesOfCalls.Calls 1) := by
  let rank (name : String) : Nat := if name = "f" then 1 else 0
  have hfalls : ∀ name ∈ scopesOfCalls.functionNames, ∀ f ∈ scopesOfCalls.function? 1 name,
      ∀ callee ∈ f.calls, rank callee < rank name := by
    decide
  apply Acyclic.of_rank rank
  rintro name callee ⟨f, hf, hcallee, -⟩
  have hname : name ∈ scopesOfCalls.functionNames :=
    Scopes.mem_functionNames (Option.isSome_of_eq_some hf)
  exact hfalls name hname f hf callee hcallee

theorem ends_without_recursion_of_calls :
    Acyclic sheetOfCalls.Calls ∧
      (sheetOfCalls.render .nothing ({} : Buffer)).result ≠ .error .callDepth ∧
      sheetOfCalls.renderIn ⟨.nothing, 3⟩ ({} : Buffer) = sheetOfCalls.render .nothing {} ∧
    1 < scopesOfCalls.count ∧ Acyclic (scopesOfCalls.Calls 1) ∧
      Eval.expr .nothing (Eval.invoke .nothing 1 2) 1 ⟨[.call "f" 0 1], 1⟩ scopesOfCalls =
        scopesOfCalls.evaluate .nothing 1 ⟨[.call "f" 0 1], 1⟩ := by
  have hlive : 1 < scopesOfCalls.count := by decide
  obtain ⟨hrenders, hevaluates⟩ := ends_without_recursion
  have hsheet := hrenders sheetOfCalls acyclic_sheetOfCalls .nothing ({} : Buffer)
  have hscope := hevaluates scopesOfCalls 1 hlive acyclic_scopesOfCalls .nothing
    ⟨[.call "f" 0 1], 1⟩
  exact ⟨acyclic_sheetOfCalls, hsheet.1, hsheet.2 3 (by decide), hlive, acyclic_scopesOfCalls,
    hscope.2 2 (by decide)⟩

end Stylesheet
