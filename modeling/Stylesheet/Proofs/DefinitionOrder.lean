import Stylesheet.Proofs.BetweenNodes
import Stylesheet.Proofs.Mentions
import Stylesheet.Proofs.ReadOverWrite

/-!
Definitions that may trade places. A definition computes a value from what is in sight, if it is one
of a variable, and binds its name in one scope. Two definitions of different names that follow each
other bind the same in either order, as long as neither value depends on the name of the other
definition, be it through the functions it calls. The scopes are then the same but for the order in
which their tables hold the names, which no search in them can tell.
-/

namespace Stylesheet

/-- The order in which two names are bound does not matter. -/
theorem Bindings.find?_insert_comm {α : Type} (bindings : Bindings α) {name other : String}
    (h : name ≠ other) (a b : α) (n : String) :
    ((bindings.insert name a).insert other b).find? n =
      ((bindings.insert other b).insert name a).find? n := by
  by_cases hname : n = name
  · subst hname
    simp [find?_insert_of_ne _ _ h]
  · by_cases hother : n = other
    · subst hother
      simp [find?_insert_of_ne _ _ hname]
    · simp [find?_insert_of_ne _ _ hname, find?_insert_of_ne _ _ hother]

/-- What a definition binds: a variable to a value that may be absent, or a function. -/
inductive Binding where
  | value (name : String) (bound : Option Value)
  | function (f : FunctionDef)

namespace Binding

def kind : Binding → NameKind
  | .value .. => .value
  | .function _ => .function

def name : Binding → String
  | .value name _ => name
  | .function f => f.name

/-- The scope with the name bound in it. -/
def bindIn (scope : Scope) : Binding → Scope
  | .value name bound => { scope with values := scope.values.insert name bound }
  | .function f => { scope with functions := scope.functions.insert f.name f }

theorem defines (b : Binding) (scope : Scope) :
    Scope.Defines b.kind b.name scope (b.bindIn scope) := by
  cases b with
  | value name bound => exact scope.defines_value name bound
  | function f => exact scope.defines_function f

theorem sameBut (b : Binding) (scope : Scope) :
    Scope.SameBut (fun kind name => kind = b.kind ∧ name = b.name) scope (b.bindIn scope) := by
  cases b with
  | value name bound => exact scope.sameBut_value ⟨rfl, rfl⟩ bound
  | function f => exact scope.sameBut_function ⟨rfl, rfl⟩

end Binding

/-- Both scopes stand in the same place, in the same calls, and bind the same names to the same. -/
structure Scope.Same (scope other : Scope) : Prop where
  parent : other.parent = scope.parent
  frames : other.frames = scope.frames
  values : ∀ name, other.values.find? name = scope.values.find? name
  functions : ∀ name, other.functions.find? name = scope.functions.find? name

theorem Scope.Same.refl (scope : Scope) : Scope.Same scope scope :=
  ⟨rfl, rfl, fun _ => rfl, fun _ => rfl⟩

/-- Nor does that of two bindings of different kinds or names in a scope. -/
theorem Binding.bindIn_comm {b c : Binding} (h : ¬ (b.kind = c.kind ∧ b.name = c.name))
    (scope : Scope) : Scope.Same (c.bindIn (b.bindIn scope)) (b.bindIn (c.bindIn scope)) := by
  cases b with
  | value name bound =>
      cases c with
      | function f => exact .refl _
      | value other bound' =>
          have hne : other ≠ name := fun heq => h ⟨rfl, heq.symm⟩
          exact ⟨rfl, rfl, Bindings.find?_insert_comm _ hne _ _, fun _ => rfl⟩
  | function f =>
      cases c with
      | value name bound => exact .refl _
      | function g =>
          have hne : g.name ≠ f.name := fun heq => h ⟨rfl, heq.symm⟩
          exact ⟨rfl, rfl, fun _ => rfl, Bindings.find?_insert_comm _ hne _ _⟩

namespace Scopes

/-- The same scopes are live, and each binds the same names to the same. -/
def Same (scopes other : Scopes) : Prop := List.Forall₂ Scope.Same scopes.stack other.stack

/-- Binds a name from within a scope, as definitions do. -/
def define (scopes : Scopes) (number : Nat) (b : Binding) : Scopes :=
  scopes.modify (scopes.owner number fun scope => scope.binds b.kind b.name) b.bindIn

variable {scopes other : Scopes} {number : Nat} {b c : Binding}

theorem Same.refl (scopes : Scopes) : Same scopes scopes :=
  List.forall₂_same.mpr fun scope _ => .refl scope

/-- Scopes with the same bindings answer every search alike. -/
theorem Same.findSome? (h : Same scopes other) {β : Type} {find : Scope → Option β}
    (hfind : ∀ scope scope', Scope.Same scope scope' → find scope' = find scope) :
    other.stack.findSome? find = scopes.stack.findSome? find := by
  obtain ⟨stack⟩ := scopes
  obtain ⟨stack'⟩ := other
  change List.Forall₂ Scope.Same stack stack' at h
  change stack'.findSome? find = stack.findSome? find
  induction h with
  | nil => rfl
  | cons hhead _ ih => rw [List.findSome?_cons, List.findSome?_cons, hfind _ _ hhead, ih]

theorem same_modify {change change' : Scope → Scope}
    (h : ∀ scope, Scope.Same (change scope) (change' scope)) (number : Nat) :
    Same (scopes.modify number change) (scopes.modify number change') := by
  obtain ⟨stack⟩ := scopes
  simp only [Same, modify]
  induction stack with
  | nil => exact .nil
  | cons scope older ih =>
      have hrefl : List.Forall₂ Scope.Same older older :=
        List.forall₂_same.mpr fun scope _ => .refl scope
      rw [modifyIn, modifyIn]
      split
      · exact .cons (h scope) hrefl
      · exact .cons (.refl scope) ih

/-- The scope that a definition goes to does not depend on definitions of other names. -/
theorem owner_modify {change : Scope → Scope} {binds : Scope → Bool}
    (hparent : ∀ scope, (change scope).parent = scope.parent)
    (hbinds : ∀ scope, binds (change scope) = binds scope) (changed : Nat) :
    (scopes.modify changed change).owner number binds = scopes.owner number binds := by
  have hsame (entry : Nat × Scope) : (changeAt changed change entry).1 = entry.1 ∧
      binds (changeAt changed change entry).2 = binds entry.2 := by
    unfold changeAt
    split
    · exact ⟨rfl, hbinds _⟩
    · exact ⟨rfl, rfl⟩
  unfold owner
  rw [path_modify hparent, List.find?_map]
  simp only [Function.comp_def, hsame]
  cases (scopes.path number).find? fun entry => binds entry.2 with
  | none => rfl
  | some entry => exact (hsame entry).1

/-- A definition does not change which scope owns another name. -/
theorem owner_define (h : ¬ (b.kind = c.kind ∧ b.name = c.name)) :
    ((scopes.define number b).owner number fun scope => scope.binds c.kind c.name) =
      scopes.owner number fun scope => scope.binds c.kind c.name := by
  apply owner_modify
  · exact fun scope => (b.defines scope).parent
  · intro scope
    have hother : ¬ (c.kind = b.kind ∧ c.name = b.name) := fun heq => h ⟨heq.1.symm, heq.2.symm⟩
    rw [(b.defines scope).binds, decide_eq_false hother, Bool.false_or]

/-- Definitions of different names end in the same scopes in either order. -/
theorem define_comm (h : ¬ (b.kind = c.kind ∧ b.name = c.name)) :
    Same ((scopes.define number b).define number c) ((scopes.define number c).define number b) := by
  have hother : ¬ (c.kind = b.kind ∧ c.name = b.name) := fun heq => h ⟨heq.1.symm, heq.2.symm⟩
  have hfirst : (scopes.define number b).define number c = (scopes.define number b).modify
      (scopes.owner number fun scope => scope.binds c.kind c.name) c.bindIn := by
    rw [← owner_define h]
    rfl
  have hsecond : (scopes.define number c).define number b = (scopes.define number c).modify
      (scopes.owner number fun scope => scope.binds b.kind b.name) b.bindIn := by
    rw [← owner_define hother]
    rfl
  rw [hfirst, hsecond, define, define]
  generalize (scopes.owner number fun scope => scope.binds b.kind b.name) = owner
  generalize (scopes.owner number fun scope => scope.binds c.kind c.name) = owner'
  by_cases howner : owner = owner'
  · subst howner
    rw [modify_modify, modify_modify]
    exact same_modify (Binding.bindIn_comm h) owner
  · rw [modify_comm_of_ne scopes howner]
    exact .refl _

/-- A definition is not seen where its name is not in use. -/
theorem sameOn_define {used : NameKind → String → Prop} {host : Host}
    (hkeeps : ∀ name f, used .function name → scopes.function? number name = some f →
      f.KeepsTo used) (hb : ¬ used b.kind b.name) :
    Env.SameOn used (scopes.env host number) ((scopes.define number b).env host number) := by
  have hparent (scope : Scope) := (b.defines scope).parent
  have hframes (scope : Scope) := (b.defines scope).frames
  have hvalues (scope : Scope) (name : String) (hname : used .value name) :
      (b.bindIn scope).values.find? name = scope.values.find? name := by
    apply (b.sameBut scope).values
    rintro ⟨hkind, rfl⟩
    exact hb (hkind ▸ hname)
  have hfunctions (scope : Scope) (name : String) (hname : used .function name) :
      (b.bindIn scope).functions.find? name = scope.functions.find? name := by
    apply (b.sameBut scope).functions
    rintro ⟨hkind, rfl⟩
    exact hb (hkind ▸ hname)
  have hclear (scope : Scope) :
      { b.bindIn scope with frames := [] } = b.bindIn { scope with frames := [] } := by
    cases b <;> rfl
  constructor
  · exact frame?_modify hparent hframes _ _
  · intro name hname
    refine base_modify hparent hclear (fun scope => ?_) host _ _
    rw [Scope.value?, hframes, hvalues scope name hname, Scope.value?]
  · intro name hname
    exact findSome?_path_modify hparent (fun scope => scope.functions.find? name)
      (fun scope => hfunctions scope name hname) _
  · exact fun _ _ _ => rfl
  · exact hkeeps

end Scopes

/-- The names that the value of an expression may depend on: those that it mentions, and those that
are mentioned in a function that it calls, directly or through others. -/
inductive Env.Uses (env : Env) (e : Expr) : NameKind → String → Prop where
  | mentioned {kind : NameKind} {name : String} (h : name ∈ e.mentions kind) : Uses env e kind name
  | called {callee : String} {f : FunctionDef} {kind : NameKind} {name : String}
      (hcallee : Uses env e .function callee) (hf : env.function? callee = some f)
      (h : name ∈ f.mentions kind) : Uses env e kind name

namespace Node

/-- The names that a definition may depend on where it is made. A function is not called there. -/
def Uses (env : Env) (kind : NameKind) (name : String) : Node → Prop
  | .assignment _ e _ => env.Uses e kind name
  | _ => False

/-- Both nodes are definitions, of different names, and neither depends on the name that the other
defines. -/
structure Independent (env : Env) (n other : Node) : Prop where
  definitions : n.definition?.isSome ∧ other.definition?.isSome
  apart : n.definition? ≠ other.definition?
  left : ∀ kind name, other.definition? = some (kind, name) → ¬ n.Uses env kind name
  right : ∀ kind name, n.definition? = some (kind, name) → ¬ other.Uses env kind name

theorem Independent.symm {env : Env} {n other : Node} (h : Independent env n other) :
    Independent env other n :=
  ⟨h.definitions.symm, h.apart.symm, h.right, h.left⟩

/-- What a definition binds, computed from what is in sight. Nothing else is a definition. -/
def binding (call : Env.Call) (env : Env) : Node → Except Error Binding
  | .assignment name e _ => (Env.expr call env e).map (Binding.value name)
  | .function f => .ok (.function f)
  | n => .error (.unexpected n.kind n.line)

/-- A node that binds something is a definition of that name. -/
theorem definition?_of_binding {call : Env.Call} {env : Env} {n : Node} {b : Binding}
    (h : n.binding call env = .ok b) : n.definition? = some (b.kind, b.name) := by
  cases n with
  | rule own children line => cases h
  | declaration property values line => cases h
  | function f =>
      cases h
      rfl
  | assignment name e line =>
      rw [binding] at h
      cases hvalue : Env.expr call env e with
      | error error =>
          rw [hvalue] at h
          cases h
      | ok value =>
          rw [hvalue] at h
          cases h
          rfl

/-- A definition binds what it did, if a name that it does not depend on is defined first. -/
theorem binding_define {n : Node} {scopes : Scopes} {number : Nat} {host : Host} {b : Binding}
    (h : ¬ n.Uses (scopes.env host number) b.kind b.name) (depth : Nat) :
    n.binding (Env.invoke depth) ((scopes.define number b).env host number) =
      n.binding (Env.invoke depth) (scopes.env host number) := by
  cases n with
  | rule own children line => rfl
  | declaration property values line => rfl
  | function f => rfl
  | assignment name e line =>
      have hsame : Env.SameOn ((scopes.env host number).Uses e) (scopes.env host number)
          ((scopes.define number b).env host number) :=
        Scopes.sameOn_define (fun _ _ hcallee hf _ _ hname => .called hcallee hf hname) h
      exact congrArg (Except.map (Binding.value name))
        (hsame.expr_eq depth fun _ _ hname => .mentioned hname)

end Node

namespace Render

variable {σ : Type} {setting : Setting} {scope : Nat} {n : Node} {progress last : Progress σ}

/-- A definition computes what it binds and changes the scopes by it. -/
theorem define_eq (setting : Setting) (hlive : scope < progress.scopes.count) (n : Node) :
    define setting scope n progress =
      (settle (n.binding (Env.invoke setting.depth) (progress.scopes.env setting.host scope)) >>=
        fun b => changeScopes fun scopes => scopes.define scope b) progress := by
  cases n with
  | rule own children line => rfl
  | declaration property values line => rfl
  | function f => rfl
  | assignment name e line =>
      have hexpr := expr_eq_settle setting hlive e
      rw [define, Node.binding]
      cases hvalue : Env.expr (Env.invoke setting.depth)
          (progress.scopes.env setting.host scope) e with
      | error error =>
          rw [hvalue] at hexpr
          exact bind_of_error hexpr
      | ok value =>
          rw [hvalue] at hexpr
          exact bind_of_ok hexpr

/-- A definition succeeds exactly if its binding has a value, and then makes it. -/
theorem define_eq_ok_iff (hlive : scope < progress.scopes.count) :
    define setting scope n progress = .ok () last ↔
      ∃ b, n.binding (Env.invoke setting.depth) (progress.scopes.env setting.host scope) = .ok b ∧
        last = { progress with scopes := progress.scopes.define scope b } := by
  rw [define_eq setting hlive]
  cases n.binding (Env.invoke setting.depth) (progress.scopes.env setting.host scope) with
  | error error =>
      constructor
      · intro h
        cases h
      · rintro ⟨b, hb, -⟩
        cases hb
  | ok b =>
      constructor
      · intro h
        cases h
        exact ⟨b, rfl, rfl⟩
      · rintro ⟨b, hb, rfl⟩
        cases hb
        rfl

namespace Point

variable [Sink σ] {rest : List Node} {point next : Point σ}
  {a b : Node}

/-- What is in sight at the point. -/
def env (setting : Setting) (point : Point σ) : Env :=
  point.progress.scopes.env setting.host point.scope

/-- From the point the next two nodes are rendered, with success. -/
def PassesTwo (setting : Setting) (point last : Point σ) : Prop :=
  ∃ middle, Passes setting point middle ∧ Passes setting middle last

/-- Passing a definition is making it. -/
theorem passes_definition_iff (hn : n.definition?.isSome) (hrest : point.rest = n :: rest) :
    point.Passes setting next ↔
      ∃ last, define setting point.scope n point.progress = .ok () last ∧
        next = ⟨point.around, rest, last⟩ := by
  have htop : topNode setting n = (define setting 0 n : Render σ Unit) := by
    cases n with
    | rule own children line => cases hn
    | _ => rfl
  have hnode (around : Surroundings) :
      node setting around.scope around.selectors around.block n =
        (define setting around.scope n >>= fun _ => pure around.block : Render σ Block) := by
    cases n with
    | rule own children line => cases hn
    | declaration property values line => cases hn
    | assignment name e line => rw [node]
    | function f => rw [node]
  obtain ⟨around, _, progress⟩ := point
  cases hrest
  constructor
  · intro hpasses
    cases hpasses with
    | top hrun =>
        rw [htop] at hrun
        exact ⟨_, hrun, rfl⟩
    | within hrun =>
        rw [hnode] at hrun
        obtain ⟨_, last, hdefine, hblock⟩ := ok_of_bind hrun
        cases hblock
        exact ⟨_, hdefine, rfl⟩
  · rintro ⟨last, hdefine, rfl⟩
    cases around with
    | none =>
        apply Passes.top
        rwa [htop]
    | some around =>
        apply Passes.within
        rw [hnode]
        exact bind_of_ok hdefine

/-- Two independent definitions are rendered if what each of them binds can be computed at the point
that they follow. -/
theorem passesTwo_iff (hlive : point.scope < point.progress.scopes.count)
    (hrest : point.rest = a :: b :: rest) (h : Node.Independent (point.env setting) a b) :
    point.PassesTwo setting next ↔
      ∃ first second, a.binding (Env.invoke setting.depth) (point.env setting) = .ok first ∧
        b.binding (Env.invoke setting.depth) (point.env setting) = .ok second ∧
        next = ⟨point.around, rest,
          (point.progress.scopes.define point.scope first).define point.scope second,
          point.progress.page⟩ := by
  have hsame {first : Binding}
      (hfirst : a.binding (Env.invoke setting.depth) (point.env setting) = .ok first) :
      b.binding (Env.invoke setting.depth)
          ((point.progress.scopes.define point.scope first).env setting.host point.scope) =
        b.binding (Env.invoke setting.depth) (point.env setting) :=
    Node.binding_define (h.right _ _ (Node.definition?_of_binding hfirst)) setting.depth
  have hstill (first : Binding) :
      point.scope < (point.progress.scopes.define point.scope first).count := by
    simpa [Scopes.define] using hlive
  constructor
  · rintro ⟨middle, hpasses, hpasses'⟩
    obtain ⟨between, hdefine, rfl⟩ := (passes_definition_iff h.definitions.1 hrest).mp hpasses
    obtain ⟨last, hdefine', rfl⟩ := (passes_definition_iff h.definitions.2 rfl).mp hpasses'
    obtain ⟨first, hfirst, rfl⟩ := (define_eq_ok_iff hlive).mp hdefine
    obtain ⟨second, hsecond, rfl⟩ := (define_eq_ok_iff (hstill first)).mp hdefine'
    exact ⟨first, second, hfirst, (hsame hfirst).symm.trans hsecond, rfl⟩
  · rintro ⟨first, second, hfirst, hsecond, rfl⟩
    have hdefine := (define_eq_ok_iff hlive).mpr ⟨first, hfirst, rfl⟩
    have hdefine' : define setting point.scope b
        ⟨point.progress.scopes.define point.scope first, point.progress.page⟩ = .ok () _ :=
      (define_eq_ok_iff (hstill first)).mpr ⟨second, (hsame hfirst).trans hsecond, rfl⟩
    exact ⟨_, (passes_definition_iff h.definitions.1 hrest).mpr ⟨_, hdefine, rfl⟩,
      (passes_definition_iff h.definitions.2 rfl).mpr ⟨_, hdefine', rfl⟩⟩

end Point

end Render

end Stylesheet
