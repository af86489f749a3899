import Stylesheet.Proofs.ScopeNesting
import Stylesheet.Render

/-!
Rendering with one table of variables and one of functions in place of scopes. A definition binds
its name in the table. A rule remembers which names are bound when it starts, and when it ends all
others are dropped; names that were bound keep the values they have by then.

This renders every sheet to every sink exactly as the scopes do.
-/

namespace Stylesheet

namespace Bindings

def names {α : Type} (bindings : Bindings α) : List String :=
  bindings.entries.map Prod.fst

def restrict {α : Type} (bindings : Bindings α) (names : List String) : Bindings α :=
  ⟨bindings.entries.filter fun entry => names.contains entry.1⟩

/-- The names of bindings are those that are found. -/
theorem mem_names_iff {α : Type} {bindings : Bindings α} {name : String} :
    name ∈ bindings.names ↔ (bindings.find? name).isSome := by
  obtain ⟨entries⟩ := bindings
  simp only [names, find?]
  induction entries with
  | nil => simp
  | cons entry rest ih =>
      obtain ⟨key, a⟩ := entry
      by_cases h : name = key
      · simp [h]
      · have hkey : (name == key) = false := by simpa using h
        simp [List.lookup_cons, hkey, h, ← ih]

theorem find?_restrict {α : Type} (bindings : Bindings α) (names : List String) (name : String) :
    (bindings.restrict names).find? name = if name ∈ names then bindings.find? name else none := by
  obtain ⟨entries⟩ := bindings
  simp only [restrict, find?]
  induction entries with
  | nil => simp
  | cons entry rest ih =>
      obtain ⟨key, a⟩ := entry
      by_cases h : name = key
      · subst h
        by_cases hmem : name ∈ names
        · simp [hmem]
        · simpa [hmem] using ih
      · have hkey : (name == key) = false := by simpa using h
        by_cases hmem : key ∈ names
        · simpa [List.lookup_cons, hkey, hmem] using ih
        · simpa [List.lookup_cons, hkey, hmem] using ih

end Bindings

/-- One table of variables and one of functions. -/
structure Store where
  values : Bindings (Option Value) := .empty
  functions : Bindings FunctionDef := .empty

namespace Store

/-- Which names a store binds. -/
structure Domain where
  values : List String
  functions : List String

def domain (store : Store) : Domain := ⟨store.values.names, store.functions.names⟩

/-- Drops all names outside the domain. The others keep what they are bound to. -/
def restrict (store : Store) (domain : Domain) : Store :=
  ⟨store.values.restrict domain.values, store.functions.restrict domain.functions⟩

/-- A variable defined from the innermost scope is the one that the store is given. -/
def setVariable (store : Store) (name : String) (value : Option Value) : Store :=
  { store with values := store.values.insert name value }

/-- The same for a function. -/
def setFunction (store : Store) (f : FunctionDef) : Store :=
  { store with functions := store.functions.insert f.name f }

/-- What is in sight outside of calls: the tables, and the host behind them. -/
def env (store : Store) (host : Host) : Env where
  frame? := none
  base name := (store.values.find? name).getD (host.value? name)
  function? := store.functions.find?
  hostFunction? := host.function?

end Store

structure FlatProgress (σ : Type) where
  store : Store := {}
  page : Page σ

abbrev FlatRender (σ : Type) := EStateM Error (FlatProgress σ)

namespace FlatRender

/-- Computes a value or an error from what is in sight. -/
def compute {σ α : Type} (setting : Render.Setting)
    (f : Env.Call → Env → Except Error α) : FlatRender σ α := fun progress =>
  match f (Env.invoke setting.depth) (progress.store.env setting.host) with
  | .ok a => .ok a progress
  | .error error => .error error progress

def changeStore {σ : Type} (change : Store → Store) : FlatRender σ Unit :=
  modify fun progress => { progress with store := change progress.store }

def write {σ : Type} (block : Block) (act : Page.Write σ Unit) : FlatRender σ Block :=
  fun progress =>
    match act (progress.page, block) with
    | .ok () (page, block) => .ok block { progress with page }
    | .error reason (page, _) => .error (.sink reason) { progress with page }

/-- The present values of a declaration. -/
def values {σ : Type} (setting : Render.Setting) (terms : List Term) :
    FlatRender σ (List Value) :=
  compute setting fun call env => do
    let all ← terms.mapM (Env.term call env)
    return all.filterMap id

/-- Defines a variable or a function. Nothing else is a definition. -/
def define {σ : Type} (setting : Render.Setting) : Node → FlatRender σ Unit
  | .assignment name e _ => do
    let value ← compute setting fun call env => Env.expr call env e
    changeStore fun store => store.setVariable name value
  | .function definition => changeStore fun store => store.setFunction definition
  | node => throw (.unexpected node.kind node.line)

/-- Renders the inside of a rule. What is bound in it and was not bound before is dropped at the
end. -/
def inRule {σ : Type} [Sink σ] (selectors : List String) (body : Block → FlatRender σ Block) :
    FlatRender σ Unit := do
  let bound := (← get).store.domain
  let block ← body { head := Selector.head selectors }
  let _ ← write block Page.close
  changeStore fun store => store.restrict bound

mutual

def node {σ : Type} [Sink σ] (setting : Render.Setting) (selectors : List String)
    (block : Block) : Node → FlatRender σ Block
  | .rule own children _ => do
    let block ← write block Page.close
    let inner := Selector.flatten own (some selectors)
    inRule inner fun opened => nodes setting inner opened children
    return block
  | .declaration property terms _ => do
    let present ← values setting terms
    write block (Page.declaration property present)
  | .assignment name e line => do
    define setting (.assignment name e line)
    return block
  | .function definition => do
    define setting (.function definition)
    return block

def nodes {σ : Type} [Sink σ] (setting : Render.Setting) (selectors : List String) :
    Block → List Node → FlatRender σ Block
  | block, [] => pure block
  | block, first :: rest => do
    let block ← node setting selectors block first
    nodes setting selectors block rest

end

def topNode {σ : Type} [Sink σ] (setting : Render.Setting) : Node → FlatRender σ Unit
  | .rule own children _ =>
    let selectors := Selector.flatten own none
    inRule selectors fun block => nodes setting selectors block children
  | other => define setting other

def topNodes {σ : Type} [Sink σ] (setting : Render.Setting) : List Node → FlatRender σ Unit
  | [] => pure ()
  | first :: rest => do
    topNode setting first
    topNodes setting rest

/-- What a run has come to before the sink is flushed. -/
def rendering {σ : Type} : EStateM.Result Error (FlatProgress σ) Unit → Rendering σ
  | .ok () last => ⟨.ok (), last.page⟩
  | .error error last => ⟨.error error, last.page⟩

section Append

variable {σ : Type} [Sink σ] (setting : Render.Setting) (first second : List Node)

theorem nodes_singleton (selectors : List String) (block : Block) (n : Node) :
    (nodes setting selectors block [n] : FlatRender σ Block) = node setting selectors block n := by
  simp [nodes]

/-- Nodes can be rendered in two parts, the block being handed on. -/
theorem nodes_append (selectors : List String) (block : Block) :
    (nodes setting selectors block (first ++ second) : FlatRender σ Block) =
      nodes setting selectors block first >>= fun after =>
        nodes setting selectors after second := by
  induction first generalizing block with
  | nil => simp [nodes]
  | cons n rest ih => simp [nodes, ih]

theorem topNodes_singleton (n : Node) :
    (topNodes setting [n] : FlatRender σ Unit) = topNode setting n := by
  simp [topNodes]

/-- The same at the top, where no block is handed on. -/
theorem topNodes_append :
    (topNodes setting (first ++ second) : FlatRender σ Unit) =
      topNodes setting first >>= fun _ => topNodes setting second := by
  induction first with
  | nil => simp [topNodes]
  | cons n rest ih => simp [topNodes, ih]

end Append

end FlatRender

/-- Renders the sheet with a store. -/
def Sheet.renderFlatIn {σ : Type} [Sink σ] (sheet : Sheet) (setting : Render.Setting) (sink : σ) :
    Rendering σ :=
  match FlatRender.topNodes setting sheet.children { page := { sink } } with
  | .ok () progress =>
    match Page.finish progress.page with
    | .ok () page => ⟨.ok (), page⟩
    | .error reason page => ⟨.error (.sink reason), page⟩
  | .error error progress =>
    match Page.finish progress.page with
    | .ok () page | .error _ page => ⟨.error error, page⟩

/-- The store binds every name to what the nearest scope binds it to. -/
structure Agree (scopes : Scopes) (store : Store) : Prop where
  tidy : scopes.Tidy
  values : ∀ name, scopes.boundValue? name = store.values.find? name
  functions : ∀ name, scopes.boundFunction? name = store.functions.find? name

namespace Agree

variable {scopes : Scopes} {store : Store}

/-- From the innermost scope the environment is that of the store. -/
theorem env_eq (h : Agree scopes store) {number : Nat} (hnumber : number + 1 = scopes.count)
    (host : Host) : scopes.env host number = store.env host := by
  rw [h.tidy.env_eq hnumber, Store.env, Env.mk.injEq]
  exact ⟨rfl, funext fun name => by rw [h.values name], funext h.functions, rfl⟩

theorem initial : Agree .initial {} where
  tidy :=
    { nested := rfl
      idle := by simp [Scopes.initial]
      apart := fun _ => List.pairwise_singleton _ _ }
  values := fun _ => rfl
  functions := fun _ => rfl

theorem setVariable (h : Agree scopes store) {number : Nat} (hnumber : number + 1 = scopes.count)
    (name : String) (value : Option Value) :
    Agree (scopes.setVariable number name value) (store.setVariable name value) := by
  obtain ⟨htidy, -, hvalues, hfunctions⟩ := h.tidy.setVariable hnumber name value
  refine ⟨htidy, ?_, ?_⟩
  · intro other
    rw [hvalues other, Store.setVariable]
    split
    · rename_i hother
      rw [hother, Bindings.find?_insert_self]
    · rename_i hother
      rw [Bindings.find?_insert_of_ne _ _ hother, h.values other]
  · intro other
    rw [hfunctions]
    exact h.functions other

theorem setFunction (h : Agree scopes store) {number : Nat} (hnumber : number + 1 = scopes.count)
    (f : FunctionDef) : Agree (scopes.setFunction number f) (store.setFunction f) := by
  obtain ⟨htidy, -, hvalues, hfunctions⟩ := h.tidy.setFunction hnumber f
  refine ⟨htidy, ?_, ?_⟩
  · intro other
    rw [hvalues]
    exact h.values other
  · intro other
    rw [hfunctions other, Store.setFunction]
    split
    · rename_i hother
      rw [hother, Bindings.find?_insert_self]
    · rename_i hother
      rw [Bindings.find?_insert_of_ne _ _ hother, h.functions other]

/-- A new scope binds nothing and hides nothing. -/
theorem enter (h : Agree scopes store) {number : Nat} (hnumber : number + 1 = scopes.count) :
    Agree (scopes.enter number) store := by
  obtain ⟨htidy, hvalues, hfunctions⟩ := h.tidy.enter hnumber
  exact ⟨htidy, by rw [hvalues]; exact h.values, by rw [hfunctions]; exact h.functions⟩

/-- The store knows the names that some live scope binds. -/
theorem mem_domain_iff (h : Agree scopes store) (name : String) :
    (name ∈ store.domain.values ↔ scopes.stack.any (fun scope => scope.binds .value name)) ∧
    (name ∈ store.domain.functions ↔
      scopes.stack.any (fun scope => scope.binds .function name)) := by
  constructor
  · rw [Store.domain, Bindings.mem_names_iff, ← h.values name]
    simp [Scopes.boundValue?, Scope.binds, Bindings.contains]
  · rw [Store.domain, Bindings.mem_names_iff, ← h.functions name]
    simp [Scopes.boundFunction?, Scope.binds, Bindings.contains]

/-- Leaving the scope of a rule and dropping the names that were not bound before it. -/
theorem leave {outer inner : Scopes} {number : Nat} {before after : Store}
    (houter : Agree outer before) (hinner : Agree inner after)
    (hkept : Scopes.Kept (outer.enter number) inner) :
    Agree (inner.leave outer.count) (after.restrict before.domain) := by
  obtain ⟨htidy, -, hvalues, hfunctions⟩ := hinner.tidy.leave hkept houter.tidy
  refine ⟨htidy, ?_, ?_⟩
  · intro name
    rw [hvalues name, Store.restrict, Bindings.find?_restrict, hinner.values name]
    simp only [(houter.mem_domain_iff name).1]
  · intro name
    rw [hfunctions name, Store.restrict, Bindings.find?_restrict, hinner.functions name]
    simp only [(houter.mem_domain_iff name).2]

end Agree

namespace Render

variable {σ : Type}

def settle {α : Type} : Except Error α → Render σ α
  | .ok a => pure a
  | .error error => throw error

/-- An evaluation that leaves the scopes alone settles to its outcome. -/
theorem eval_of_yields {α : Type} {act : Eval α} {outcome : Except Error α}
    {progress : Progress σ} (h : act.Yields progress.scopes outcome) :
    eval act progress = settle outcome progress := by
  rw [eval, h]
  cases outcome with
  | ok a => rfl
  | error error => rfl

/-- The values of a declaration depend on the environment of the scope only. -/
theorem values_eq_settle (setting : Setting) {scope : Nat} {progress : Progress σ}
    (hlive : scope < progress.scopes.count) (terms : List Term) :
    values setting scope terms progress = settle (do
      let all ← terms.mapM
        (Env.term (Env.invoke setting.depth) (progress.scopes.env setting.host scope))
      return all.filterMap id) progress := by
  let env := progress.scopes.env setting.host scope
  have hvalue := Scopes.valueOf_eq_env_value hlive setting.host
  have hcall := Eval.invoke_yields setting.host hlive setting.depth
  induction terms with
  | nil => rfl
  | cons t rest ih =>
      have hterm : term setting scope t progress =
          settle (Env.term (Env.invoke setting.depth) env t) progress :=
        eval_of_yields (Eval.term_yields hvalue hcall t)
      change EStateM.bind (term setting scope t) _ progress = _
      rw [EStateM.bind, hterm, List.mapM_cons]
      cases Env.term (Env.invoke setting.depth) env t with
      | error error => rfl
      | ok value =>
          change EStateM.bind (values setting scope rest) _ progress = _
          rw [EStateM.bind, ih]
          cases rest.mapM (Env.term (Env.invoke setting.depth) env) with
          | error error => rfl
          | ok all =>
              cases value with
              | none => rfl
              | some v => rfl

theorem expr_eq_settle (setting : Setting) {scope : Nat} {progress : Progress σ}
    (hlive : scope < progress.scopes.count) (e : Expr) :
    expr setting scope e progress =
      settle (Env.expr (Env.invoke setting.depth) (progress.scopes.env setting.host scope) e)
        progress :=
  eval_of_yields (Eval.expr_yields (Scopes.valueOf_eq_env_value hlive setting.host)
    (Eval.invoke_yields setting.host hlive setting.depth) e)

end Render

section Simulation

variable {σ α β : Type}

/-- Two runs that ended alike: with the same result or the same error, and with the same page. After
a success scopes and store are related. -/
inductive Alike (R : Scopes → Store → Prop) :
    EStateM.Result Error (Progress σ) α → EStateM.Result Error (FlatProgress σ) α → Prop where
  | ok {a : α} {scopes : Scopes} {store : Store} {page : Page σ} (h : R scopes store) :
      Alike R (.ok a ⟨scopes, page⟩) (.ok a ⟨store, page⟩)
  | error {error : Error} {scopes : Scopes} {store : Store} {page : Page σ} :
      Alike R (.error error ⟨scopes, page⟩) (.error error ⟨store, page⟩)

/-- From related scopes and store, and from the same page, both steps end alike. -/
def Simulates (P Q : Scopes → Store → Prop) (act : Render σ α) (flat : FlatRender σ α) : Prop :=
  ∀ scopes store page, P scopes store → Alike Q (act ⟨scopes, page⟩) (flat ⟨store, page⟩)

variable {P Q R : Scopes → Store → Prop}

/-- Steps that are simulated one by one are simulated as a whole. -/
theorem Simulates.bind {act : Render σ α} {flat : FlatRender σ α} {next : α → Render σ β}
    {flatNext : α → FlatRender σ β} (h : Simulates P Q act flat)
    (hnext : ∀ a, Simulates Q R (next a) (flatNext a)) :
    Simulates P R (act >>= next) (flat >>= flatNext) := by
  intro scopes store page hP
  have hact := h scopes store page hP
  change Alike R (EStateM.bind act next _) (EStateM.bind flat flatNext _)
  unfold EStateM.bind
  revert hact
  generalize act ⟨scopes, page⟩ = result
  generalize flat ⟨store, page⟩ = flatResult
  intro hact
  cases hact with
  | ok hQ => exact hnext _ _ _ _ hQ
  | error => exact .error

theorem Simulates.ok_of_flat {act : Render σ α} {flat : FlatRender σ α} (h : Simulates P Q act flat)
    {scopes : Scopes} {store : Store} {page : Page σ} (hP : P scopes store) {a : α}
    {last : FlatProgress σ} (hflat : flat ⟨store, page⟩ = .ok a last) :
    ∃ after, act ⟨scopes, page⟩ = .ok a ⟨after, last.page⟩ ∧ Q after last.store := by
  have hact := h scopes store page hP
  rw [hflat] at hact
  revert hact
  generalize act ⟨scopes, page⟩ = result
  intro hact
  cases hact with
  | ok hQ => exact ⟨_, rfl, hQ⟩

theorem Simulates.pure (a : α) : Simulates P P (pure a : Render σ α) (pure a) :=
  fun _ _ _ hP => .ok hP

theorem write_simulates (block : Block) (act : Page.Write σ Unit) :
    Simulates P P (Render.write block act) (FlatRender.write block act) := by
  intro scopes store page hP
  simp only [Render.write, FlatRender.write]
  cases act (page, block) with
  | ok _ state => exact .ok hP
  | error reason state => exact .error

/-- Scopes and store while the nodes of one rule, or those at the top, are rendered: they agree, and
the scopes around the rule bind the names they bound at its start. -/
def InStep (start : Scopes) (scopes : Scopes) (store : Store) : Prop :=
  Agree scopes store ∧ Scopes.Kept start scopes

variable {start : Scopes} {scope : Nat}

/-- What is computed from the environment is computed from the store. -/
theorem compute_simulates (hscope : scope + 1 = start.count) {setting : Render.Setting}
    {act : Render σ α} {f : Env.Call → Env → Except Error α}
    (h : ∀ progress : Progress σ, scope < progress.scopes.count → act progress =
      Render.settle (f (Env.invoke setting.depth) (progress.scopes.env setting.host scope))
        progress) :
    Simulates (InStep start) (InStep start) act (FlatRender.compute setting f) := by
  intro scopes store page hstep
  obtain ⟨hagree, hkept⟩ := hstep
  have hnumber : scope + 1 = scopes.count := hscope.trans hkept.count.symm
  have hlive : scope < scopes.count := by omega
  rw [h ⟨scopes, page⟩ hlive, hagree.env_eq hnumber, FlatRender.compute]
  cases f (Env.invoke setting.depth) (store.env setting.host) with
  | ok a => exact .ok ⟨hagree, hkept⟩
  | error error => exact .error

/-- A definition in the scopes is one in the store. -/
theorem define_simulates (setting : Render.Setting) (hscope : scope + 1 = start.count)
    (node : Node) :
    Simulates (InStep start) (InStep start) (Render.define setting scope node : Render σ Unit)
      (FlatRender.define setting node) := by
  cases node with
  | assignment name e line =>
      refine (compute_simulates hscope fun progress hlive =>
        Render.expr_eq_settle setting hlive e).bind fun value => ?_
      intro scopes store page hstep
      obtain ⟨hagree, hkept⟩ := hstep
      have hnumber : scope + 1 = scopes.count := hscope.trans hkept.count.symm
      have hset := hagree.tidy.setVariable hnumber name value
      exact .ok ⟨hagree.setVariable hnumber name value, hkept.trans hset.2.1⟩
  | function definition =>
      intro scopes store page hstep
      obtain ⟨hagree, hkept⟩ := hstep
      have hnumber : scope + 1 = scopes.count := hscope.trans hkept.count.symm
      have hset := hagree.tidy.setFunction hnumber definition
      exact .ok ⟨hagree.setFunction hnumber definition, hkept.trans hset.2.1⟩
  | rule selectors children line => exact fun _ _ _ _ => .error
  | declaration property terms line => exact fun _ _ _ _ => .error

/-- The end of a rule, inside of which the start is the scopes with the new one on top: the scopes
around it bind what they bound before. -/
theorem leave_simulates {scopes : Scopes} {store : Store} (hagree : Agree scopes store)
    (hkept : Scopes.Kept start scopes) :
    Simulates (InStep (scopes.enter scope)) (InStep start)
      (Render.changeScopes fun after => after.leave scopes.count : Render σ Unit)
      (FlatRender.changeStore fun after => after.restrict store.domain) := by
  intro inner after page hinner
  obtain ⟨hagreeInner, hkeptInner⟩ := hinner
  obtain ⟨-, hnames, -⟩ := hagreeInner.tidy.leave hkeptInner hagree.tidy
  have hback : Scopes.Kept scopes (inner.leave scopes.count) :=
    ⟨hnames.length_eq.symm, by simpa using List.forall₂_drop 1 hnames⟩
  exact .ok ⟨hagree.leave hagreeInner hkeptInner, hkept.trans hback⟩

variable [Sink σ]

/-- A rule as a whole. -/
theorem inRule_simulates (hscope : scope + 1 = start.count) (selectors : List String)
    {body : Nat → Block → Render σ Block} {flatBody : Block → FlatRender σ Block}
    (hbody : ∀ (inner : Scopes) (child : Nat) (block : Block), child + 1 = inner.count →
      Simulates (InStep inner) (InStep inner) (body child block) (flatBody block)) :
    Simulates (InStep start) (InStep start) (Render.inRule scope selectors body)
      (FlatRender.inRule selectors flatBody) := by
  intro scopes store page hstep
  obtain ⟨hagree, hkept⟩ := hstep
  have hnumber : scope + 1 = scopes.count := hscope.trans hkept.count.symm
  have hinside := (hbody (scopes.enter scope) scopes.count { head := Selector.head selectors }
    rfl).bind fun block => (write_simulates block Page.close).bind fun _ =>
      leave_simulates hagree hkept
  exact hinside (scopes.enter scope) store page ⟨hagree.enter hnumber, Scopes.Kept.refl _⟩

mutual

/-- Rendering a node with scopes is simulated by rendering it with a store, by induction on the
tree. -/
theorem node_simulates (setting : Render.Setting) {start : Scopes} {scope : Nat}
    (hscope : scope + 1 = start.count) (selectors : List String) (block : Block) :
    ∀ node : Node, Simulates (InStep start) (InStep start)
      (Render.node setting scope selectors block node : Render σ Block)
      (FlatRender.node setting selectors block node)
  | .rule own children _ => by
      rw [Render.node, FlatRender.node]
      refine (write_simulates block Page.close).bind fun closed => ?_
      refine (inRule_simulates hscope _ ?_).bind fun _ => .pure closed
      intro inner child opened hchild
      exact nodes_simulates setting hchild _ opened children
  | .declaration property terms _ => by
      rw [Render.node, FlatRender.node]
      refine (compute_simulates hscope ?_).bind fun present => write_simulates block _
      exact fun progress hlive => Render.values_eq_settle setting hlive terms
  | .assignment name e line => by
      rw [Render.node, FlatRender.node]
      exact (define_simulates setting hscope (.assignment name e line)).bind fun _ => .pure block
  | .function definition => by
      rw [Render.node, FlatRender.node]
      exact (define_simulates setting hscope (.function definition)).bind fun _ => .pure block

theorem nodes_simulates (setting : Render.Setting) {start : Scopes} {scope : Nat}
    (hscope : scope + 1 = start.count) (selectors : List String) (block : Block) :
    ∀ children : List Node, Simulates (InStep start) (InStep start)
      (Render.nodes setting scope selectors block children : Render σ Block)
      (FlatRender.nodes setting selectors block children)
  | [] => .pure block
  | first :: rest => by
      rw [Render.nodes, FlatRender.nodes]
      exact (node_simulates setting hscope selectors block first).bind fun next =>
        nodes_simulates setting hscope selectors next rest

end

theorem topNode_simulates (setting : Render.Setting) (hscope : 0 + 1 = start.count) (node : Node) :
    Simulates (InStep start) (InStep start) (Render.topNode setting node : Render σ Unit)
      (FlatRender.topNode setting node) := by
  cases node with
  | rule own children line =>
      rw [Render.topNode, FlatRender.topNode]
      apply inRule_simulates hscope
      intro inner child opened hchild
      exact nodes_simulates setting hchild _ opened children
  | declaration property terms line =>
      exact define_simulates setting hscope (.declaration property terms line)
  | assignment name e line => exact define_simulates setting hscope (.assignment name e line)
  | function definition => exact define_simulates setting hscope (.function definition)

/-- So is rendering the top of a sheet, from the first scope and the empty store. -/
theorem topNodes_simulates (setting : Render.Setting) (children : List Node) :
    Simulates (InStep .initial) (InStep .initial)
      (Render.topNodes setting children : Render σ Unit)
      (FlatRender.topNodes setting children) := by
  induction children with
  | nil => exact .pure ()
  | cons first rest ih => exact (topNode_simulates setting rfl first).bind fun _ => ih

end Simulation

/-- Renderings that come to the same with stores come to the same with scopes. -/
theorem Sheet.renderIn_congr {σ : Type} [Sink σ] {sheet other : Sheet}
    {setting against : Render.Setting} {sink : σ}
    (h : FlatRender.rendering
        (FlatRender.topNodes against other.children { page := { sink } }) =
      FlatRender.rendering (FlatRender.topNodes setting sheet.children { page := { sink } })) :
    other.renderIn against sink = sheet.renderIn setting sink := by
  have hrun := topNodes_simulates setting sheet.children .initial {} { sink }
    ⟨Agree.initial, Scopes.Kept.refl _⟩
  have hother := topNodes_simulates against other.children .initial {} { sink }
    ⟨Agree.initial, Scopes.Kept.refl _⟩
  unfold Sheet.renderIn
  revert h hrun hother
  generalize Render.topNodes setting sheet.children { page := { sink } } = result
  generalize Render.topNodes against other.children { page := { sink } } = otherResult
  generalize FlatRender.topNodes setting sheet.children { page := { sink } } = flat
  generalize FlatRender.topNodes against other.children { page := { sink } } = otherFlat
  intro h hrun hother
  cases hrun with
  | ok _ =>
      cases hother with
      | ok _ =>
          cases h
          rfl
      | error => cases h
  | error =>
      cases hother with
      | ok _ => cases h
      | error =>
          cases h
          rfl

/-- One store is enough. For every sheet, host, depth of calls and sink, rendering with nested
scopes and rendering with a single store write the same to the sink and end with the same result. -/
theorem Sheet.renderIn_eq_renderFlatIn {σ : Type} [Sink σ] (sheet : Sheet)
    (setting : Render.Setting) (sink : σ) :
    sheet.renderIn setting sink = sheet.renderFlatIn setting sink := by
  have hrun := topNodes_simulates setting sheet.children .initial {} { sink }
    ⟨Agree.initial, Scopes.Kept.refl _⟩
  unfold Sheet.renderIn Sheet.renderFlatIn
  revert hrun
  generalize Render.topNodes setting sheet.children { page := { sink } } = result
  generalize FlatRender.topNodes setting sheet.children { page := { sink } } = flatResult
  intro hrun
  cases hrun with
  | ok _ => rfl
  | error => rfl

end Stylesheet
