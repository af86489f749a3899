import Stylesheet.Proofs.ErrorCauses
import Stylesheet.Proofs.FlatStore
import Stylesheet.Proofs.Transcript

/-!
The leaves of a sheet: its declarations and definitions, at every depth. Rules only open and close
scopes, so what each leaf keeps is kept by the whole rendering. This is said for two renderings at
once, with the same host or not and with calls followed to different depths: where each leaf
computes the same in both, and fails only with errors of a certain kind, so do the renderings.
-/

namespace Stylesheet

namespace Node

mutual

/-- The declarations and definitions in the node, or the node itself if it is one. -/
def leaves : Node → List Node
  | .rule _ children _ => leavesOf children
  | n => [n]

def leavesOf : List Node → List Node
  | [] => []
  | first :: rest => first.leaves ++ leavesOf rest

end

/-- The names that a leaf calls. -/
def ownCalls : Node → List String
  | .rule .. => []
  | .declaration _ values _ => Term.callees values
  | .assignment _ e _ => e.calls
  | .function f => f.calls

/-- The names that are called anywhere in the node. -/
def calls (n : Node) : List String := n.leaves.flatMap ownCalls

/-- The function that the node defines, if it is a definition of one. -/
def function? : Node → Option FunctionDef
  | .function f => some f
  | _ => none

/-- The leaves of nodes are those of any of them. -/
theorem mem_leavesOf {leaf : Node} {nodes : List Node} :
    leaf ∈ leavesOf nodes ↔ ∃ n ∈ nodes, leaf ∈ n.leaves := by
  induction nodes with
  | nil => simp [leavesOf]
  | cons first rest ih => simp [leavesOf, ih]

/-- Of two nodes in a list one stands before the other, unless they are the same. -/
theorem order_of_splits {before after earlier later : List Node} {n m : Node}
    (h : before ++ n :: after = earlier ++ m :: later) : n ∈ earlier ∨ n = m ∨ m ∈ before := by
  rcases List.append_eq_append_iff.mp h with ⟨between, rfl, hrest⟩ | ⟨between, rfl, hrest⟩
  · cases between with
    | nil => exact .inr (.inl (List.cons.inj hrest).1)
    | cons first _ =>
        obtain ⟨rfl, -⟩ := List.cons.inj hrest
        exact .inl (by simp)
  · cases between with
    | nil => exact .inr (.inl (List.cons.inj hrest).1.symm)
    | cons first _ =>
        obtain ⟨rfl, -⟩ := List.cons.inj hrest
        exact .inr (.inr (by simp))

end Node

def Sheet.leaves (sheet : Sheet) : List Node := Node.leavesOf sheet.children

namespace Store

variable {P : String → FunctionDef → Prop} {store : Store}

/-- Every function of the store meets `P`, together with the name it is found under. -/
def EachFunction (P : String → FunctionDef → Prop) (store : Store) : Prop :=
  ∀ name f, store.functions.find? name = some f → P name f

theorem EachFunction.empty : EachFunction P {} := by
  intro name f hf
  cases hf

/-- A definition keeps what holds of each function, if it holds of the one defined. -/
theorem EachFunction.setFunction (h : store.EachFunction P) {f : FunctionDef} (hf : P f.name f) :
    (store.setFunction f).EachFunction P := by
  intro name g hg
  by_cases hname : name = f.name
  · subst hname
    rw [Store.setFunction, Bindings.find?_insert_self] at hg
    cases hg
    exact hf
  · rw [Store.setFunction, Bindings.find?_insert_of_ne _ _ hname] at hg
    exact h name g hg

/-- Leaving a rule keeps what holds of each function. -/
theorem EachFunction.restrict (h : store.EachFunction P) (domain : Domain) :
    (store.restrict domain).EachFunction P := by
  intro name f hf
  rw [Store.restrict, Bindings.find?_restrict] at hf
  split at hf
  · exact h name f hf
  · cases hf

/-- The store has a variable, or a function, of this name. -/
def Binds (store : Store) : NameKind → String → Prop
  | .value, name => (store.values.find? name).isSome
  | .function, name => (store.functions.find? name).isSome

theorem binds_setVariable {kind : NameKind} {name other : String} {value : Option Value} :
    (store.setVariable other value).Binds kind name ↔
      store.Binds kind name ∨ (kind, name) = (.value, other) := by
  cases kind with
  | function => simp [Binds, Store.setVariable]
  | value =>
      by_cases hname : name = other
      · simp [Binds, Store.setVariable, hname]
      · simp [Binds, Store.setVariable, Bindings.find?_insert_of_ne _ _ hname, hname]

theorem binds_setFunction {kind : NameKind} {name : String} {f : FunctionDef} :
    (store.setFunction f).Binds kind name ↔
      store.Binds kind name ∨ (kind, name) = (.function, f.name) := by
  cases kind with
  | value => simp [Binds, Store.setFunction]
  | function =>
      by_cases hname : name = f.name
      · simp [Binds, Store.setFunction, hname]
      · simp [Binds, Store.setFunction, Bindings.find?_insert_of_ne _ _ hname, hname]

/-- What was bound before a rule is still bound after it. -/
theorem Binds.restrict {before after : Store} {kind : NameKind} {name : String}
    (hbefore : before.Binds kind name) (hafter : after.Binds kind name) :
    (after.restrict before.domain).Binds kind name := by
  cases kind with
  | value =>
      have hdomain : name ∈ before.domain.values := Bindings.mem_names_iff.mpr hbefore
      simpa only [Binds, Store.restrict, Bindings.find?_restrict, if_pos hdomain] using hafter
  | function =>
      have hdomain : name ∈ before.domain.functions := Bindings.mem_names_iff.mpr hbefore
      simpa only [Binds, Store.restrict, Bindings.find?_restrict, if_pos hdomain] using hafter

end Store

namespace FlatRender

section Agreement

variable {σ α β : Type} {P Q R I : Store → Prop} {E : Error → Prop}
  {setting other : Render.Setting}

/-- The run has led to a store that meets `Q`, or to an error that meets `E`. -/
def Keeps (Q : Store → Prop) (E : Error → Prop) :
    EStateM.Result Error (FlatProgress σ) α → Prop
  | .ok _ last => Q last.store
  | .error error _ => E error

/-- From a store that meets `P` both steps do the same, and lead to `Q` or to `E`. -/
def Agrees (P Q : Store → Prop) (E : Error → Prop) (act against : FlatRender σ α) : Prop :=
  ∀ progress, P progress.store → against progress = act progress ∧ Keeps Q E (act progress)

theorem Agrees.pure (a : α) : Agrees P P E (pure a : FlatRender σ α) (pure a) :=
  fun _ hP => ⟨rfl, hP⟩

/-- Steps that agree one by one agree as a whole. -/
theorem Agrees.bind {act against : FlatRender σ α} {next nextAgainst : α → FlatRender σ β}
    (h : Agrees P Q E act against) (hnext : ∀ a, Agrees Q R E (next a) (nextAgainst a)) :
    Agrees P R E (act >>= next) (against >>= nextAgainst) := by
  intro progress hP
  obtain ⟨hsame, hkeeps⟩ := h progress hP
  change EStateM.bind against nextAgainst progress = EStateM.bind act next progress ∧
    Keeps R E (EStateM.bind act next progress)
  unfold EStateM.bind
  rw [hsame]
  cases hact : act progress with
  | ok a middle =>
      rw [hact] at hkeeps
      exact hnext a middle hkeeps
  | error error last =>
      rw [hact] at hkeeps
      exact ⟨rfl, hkeeps⟩

theorem changeStore_agrees {change : Store → Store} (h : ∀ store, P store → Q (change store)) :
    Agrees P Q E (changeStore change : FlatRender σ Unit) (changeStore change) :=
  fun progress hP => ⟨rfl, h progress.store hP⟩

theorem write_agrees {block : Block} {act : Page.Write σ Unit}
    (hsink : ∀ page reason state, act (page, block) = .error reason state → E (.sink reason)) :
    Agrees P P E (write block act) (write block act) := by
  intro progress hP
  refine ⟨rfl, ?_⟩
  unfold write
  cases hact : act (progress.page, block) with
  | ok _ state => exact hP
  | error reason state => exact hsink _ reason state hact

/-- A computation agrees if it does from every store with the invariant. -/
theorem compute_agrees {f : Env.Call → Env → Except Error α}
    (h : ∀ store, P store → Matches E (f (Env.invoke setting.depth) (store.env setting.host))
      (f (Env.invoke other.depth) (store.env other.host))) :
    Agrees P P E (compute setting f : FlatRender σ α) (compute other f) := by
  intro progress hP
  obtain ⟨hsame, herror⟩ := h progress.store hP
  unfold compute
  rw [hsame]
  refine ⟨rfl, ?_⟩
  cases hf : f (Env.invoke setting.depth) (progress.store.env setting.host) with
  | ok a => exact hP
  | error error => exact herror error hf

/-- What the steps between the leaves need: failures of the sink are allowed if there are any, and
`I` outlives the end of a rule that began with it. -/
structure Invariant (σ : Type) [Sink σ] (I : Store → Prop) (E : Error → Prop) : Prop where
  sink : ∀ reason, Sink.Refuses σ reason → E (.sink reason)
  restrict : ∀ {before after}, I before → I after → I (after.restrict before.domain)

/-- Whatever store with `I` a leaf meets, it computes the same in both settings and keeps `I`. -/
def LeafAgrees (setting other : Render.Setting) (I : Store → Prop) (E : Error → Prop) :
    Node → Prop
  | .rule .. => True
  | .declaration _ values _ => ∀ store, I store → ∀ t ∈ values,
    Matches E (Env.term (Env.invoke setting.depth) (store.env setting.host) t)
      (Env.term (Env.invoke other.depth) (store.env other.host) t)
  | .assignment name e _ => ∀ store, I store →
    Matches E (Env.expr (Env.invoke setting.depth) (store.env setting.host) e)
      (Env.expr (Env.invoke other.depth) (store.env other.host) e) ∧
      ∀ value, I (store.setVariable name value)
  | .function f => ∀ store, I store → I (store.setFunction f)

/-- A definition agrees if its leaf does; any other node is refused in both runs. -/
theorem define_agrees {n : Node} (hleaf : LeafAgrees setting other I E n)
    (hkind : n.kind = .rule ∨ n.kind = .declaration → E (.unexpected n.kind n.line)) :
    Agrees I I E (define setting n : FlatRender σ Unit) (define other n) := by
  cases n with
  | rule own children line => exact fun _ _ => ⟨rfl, hkind (.inl rfl)⟩
  | declaration property values line => exact fun _ _ => ⟨rfl, hkind (.inr rfl)⟩
  | assignment name e line =>
      have hvalue : Agrees I I E
          (compute setting fun call env => Env.expr call env e : FlatRender σ (Option Value))
          (compute other fun call env => Env.expr call env e) :=
        compute_agrees fun store hstore => (hleaf store hstore).1
      exact hvalue.bind fun value =>
        changeStore_agrees fun store hstore => (hleaf store hstore).2 value
  | function f => exact changeStore_agrees hleaf

variable [Sink σ]

theorem close_agrees (hI : Invariant σ I E) (block : Block) :
    Agrees P P E (write block Page.close : FlatRender σ Block) (write block Page.close) :=
  write_agrees fun page reason _ herror =>
    hI.sink reason ((Page.close_puts page block).refused herror)

theorem declaration_agrees (hI : Invariant σ I E) (block : Block) (property : String)
    (values : List Value) :
    Agrees P P E (write block (Page.declaration property values) : FlatRender σ Block)
      (write block (Page.declaration property values)) :=
  write_agrees fun page reason _ herror =>
    hI.sink reason ((Page.declaration_puts property values page block).refused herror)

/-- The inside of a rule agrees, and so does leaving it. -/
theorem inRule_agrees (hI : Invariant σ I E) (selectors : List String)
    {body against : Block → FlatRender σ Block}
    (h : ∀ block, Agrees I I E (body block) (against block)) :
    Agrees I I E (inRule selectors body) (inRule selectors against) := by
  intro progress hstart
  -- the names to keep at the end are those of the start, whatever the body binds
  have hend : Agrees I I E
      (changeStore fun store => store.restrict progress.store.domain : FlatRender σ Unit)
      (changeStore fun store => store.restrict progress.store.domain) :=
    changeStore_agrees fun _ hstore => hI.restrict hstart hstore
  have hinside := (h { head := Selector.head selectors }).bind fun block =>
    (close_agrees hI block).bind fun _ => hend
  exact hinside progress hstart

mutual

/-- A node agrees if all of its leaves do, by induction on the nesting of rules. -/
theorem node_agrees (hI : Invariant σ I E) (selectors : List String) (block : Block) :
    ∀ n : Node, (∀ leaf ∈ n.leaves, LeafAgrees setting other I E leaf) →
      Agrees I I E (node setting selectors block n : FlatRender σ Block)
        (node other selectors block n)
  | .rule own children line, h => by
      rw [node, node]
      refine (close_agrees hI block).bind fun closed => ?_
      refine (inRule_agrees hI _ fun opened => ?_).bind fun _ => .pure closed
      exact nodes_agrees hI _ opened children h
  | .declaration property values line, h => by
      have hvalues := h (.declaration property values line) (by simp [Node.leaves])
      rw [node, node]
      refine Agrees.bind (compute_agrees fun store hstore => ?_) fun present =>
        declaration_agrees hI block property present
      exact (Matches.mapM (hvalues store hstore)).bind fun _ => .ok _
  | .assignment name e line, h => by
      have hleaf := h (.assignment name e line) (by simp [Node.leaves])
      rw [node, node]
      exact (define_agrees hleaf (by simp [Node.kind])).bind fun _ => .pure block
  | .function f, h => by
      have hleaf := h (.function f) (by simp [Node.leaves])
      rw [node, node]
      exact (define_agrees hleaf (by simp [Node.kind])).bind fun _ => .pure block

theorem nodes_agrees (hI : Invariant σ I E) (selectors : List String) (block : Block) :
    ∀ children : List Node,
      (∀ leaf ∈ Node.leavesOf children, LeafAgrees setting other I E leaf) →
      Agrees I I E (nodes setting selectors block children : FlatRender σ Block)
        (nodes other selectors block children)
  | [], _ => .pure block
  | first :: rest, h => by
      rw [nodes, nodes]
      rw [Node.leavesOf] at h
      exact (node_agrees hI selectors block first fun leaf hleaf =>
        h leaf (List.mem_append_left _ hleaf)).bind fun after =>
          nodes_agrees hI selectors after rest fun leaf hleaf =>
            h leaf (List.mem_append_right _ hleaf)

end

theorem topNode_agrees (hI : Invariant σ I E) {n : Node}
    (hleaves : ∀ leaf ∈ n.leaves, LeafAgrees setting other I E leaf)
    (hkind : n.kind = .declaration → E (.unexpected n.kind n.line)) :
    Agrees I I E (topNode setting n : FlatRender σ Unit) (topNode other n) := by
  have hdefine (hself : n.leaves = [n]) (hrule : n.kind ≠ .rule) :
      Agrees I I E (define setting n : FlatRender σ Unit) (define other n) := by
    apply define_agrees (hleaves n (by simp [hself]))
    rintro (h | h)
    · exact absurd h hrule
    · exact hkind h
  cases n with
  | rule own children line =>
      exact inRule_agrees hI _ fun block => nodes_agrees hI _ block children hleaves
  | declaration property values line => exact hdefine rfl (by simp [Node.kind])
  | assignment name e line => exact hdefine rfl (by simp [Node.kind])
  | function f => exact hdefine rfl (by simp [Node.kind])

/-- The nodes at the top agree if all leaves of the sheet do. -/
theorem topNodes_agrees (hI : Invariant σ I E) {children : List Node}
    (hleaves : ∀ leaf ∈ Node.leavesOf children, LeafAgrees setting other I E leaf)
    (hkind : ∀ n ∈ children, n.kind = .declaration → E (.unexpected n.kind n.line)) :
    Agrees I I E (topNodes setting children : FlatRender σ Unit) (topNodes other children) := by
  induction children with
  | nil => exact .pure ()
  | cons first rest ih =>
      have hfirst : Agrees I I E (topNode setting first : FlatRender σ Unit)
          (topNode other first) := by
        apply topNode_agrees hI _ (hkind first List.mem_cons_self)
        intro leaf hleaf
        exact hleaves leaf (List.mem_append_left _ hleaf)
      refine hfirst.bind fun _ => ih ?_ ?_
      · intro leaf hleaf
        exact hleaves leaf (List.mem_append_right _ hleaf)
      · intro n hn
        exact hkind n (List.mem_cons_of_mem _ hn)

end Agreement

end FlatRender

/-- Two renderings with stores that agree are the same with scopes, and end with errors that are
allowed. -/
theorem Sheet.renderIn_of_agrees {σ : Type} [Sink σ] {sheet : Sheet}
    {setting other : Render.Setting} {P Q : Store → Prop} {E : Error → Prop}
    (h : FlatRender.Agrees P Q E
      (FlatRender.topNodes setting sheet.children : FlatRender σ Unit)
      (FlatRender.topNodes other sheet.children))
    (hstart : P {}) (hsink : ∀ reason, Sink.Refuses σ reason → E (.sink reason)) (sink : σ) :
    sheet.renderIn other sink = sheet.renderIn setting sink ∧
      ∀ error, (sheet.renderIn setting sink).result = .error error → E error := by
  obtain ⟨hsame, hkeeps⟩ := h { page := { sink } } hstart
  refine ⟨renderIn_congr (by rw [hsame]), ?_⟩
  have hrun := topNodes_simulates setting sheet.children .initial {} { sink }
    ⟨Agree.initial, Scopes.Kept.refl _⟩
  intro error herror
  unfold Sheet.renderIn at herror
  revert hrun hkeeps herror
  generalize Render.topNodes setting sheet.children { page := { sink } } = result
  generalize FlatRender.topNodes setting sheet.children { page := { sink } } = flat
  intro hkeeps hrun herror
  cases hrun with
  | @ok _ _ _ page _ =>
      dsimp only [Page.finish] at herror
      cases hflush : Sink.flush page.sink with
      | ok _ last =>
          rw [hflush] at herror
          cases herror
      | error reason last =>
          rw [hflush] at herror
          cases herror
          exact hsink reason ⟨page.sink, last, .inr hflush⟩
  | @error _ _ _ page =>
      dsimp only at herror
      cases hfinish : Page.finish page with
      | ok _ last =>
          rw [hfinish] at herror
          cases herror
          exact hkeeps
      | error reason last =>
          rw [hfinish] at herror
          cases herror
          exact hkeeps

end Stylesheet
