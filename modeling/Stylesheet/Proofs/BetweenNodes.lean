import Mathlib.Logic.Relation
import Stylesheet.Proofs.Leaves
import Stylesheet.Proofs.Truncation

/-!
The scopes at every point of a rendering that lies between two nodes, at any depth of rules. A
`Point` is such a place together with what has been done so far; a rendering goes from point to
point by rendering the next node whole, or by going into it if it is a rule. All points reached have
tidy scopes, of which the latest is the one at hand. A rule that has been rendered leaves the scopes
that were live before it with the names they bound, and what these are bound to differs only for
names that the rule defines.
-/

namespace Stylesheet

/-- The name that a leaf defines, and whether it is one of a variable or of a function. -/
def Node.definition? : Node → Option (NameKind × String)
  | .assignment name _ _ => some (.value, name)
  | .function f => some (.function, f.name)
  | _ => none

/-- The name is defined in the node, at any depth. -/
def Node.Defines (n : Node) (kind : NameKind) (name : String) : Prop :=
  ∃ leaf ∈ n.leaves, leaf.definition? = some (kind, name)

/-- What a node defines, the rule around it defines. -/
theorem Node.Defines.inRule {n : Node} {kind : NameKind} {name : String} (h : n.Defines kind name)
    {children : List Node} (hn : n ∈ children) (own : List String) (line : Nat) :
    (Node.rule own children line).Defines kind name := by
  obtain ⟨leaf, hleaf, hdefinition⟩ := h
  exact ⟨leaf, Node.mem_leavesOf.mpr ⟨n, hn, hleaf⟩, hdefinition⟩

/-- Outside of the given names both scopes bind the same names to the same. -/
structure Scope.SameBut (names : NameKind → String → Prop) (before after : Scope) : Prop where
  values : ∀ name, ¬ names .value name → after.values.find? name = before.values.find? name
  functions : ∀ name, ¬ names .function name →
    after.functions.find? name = before.functions.find? name

section SameBut

variable {names : NameKind → String → Prop}

theorem Scope.SameBut.refl (scope : Scope) : Scope.SameBut names scope scope :=
  ⟨fun _ _ => rfl, fun _ _ => rfl⟩

theorem Scope.SameBut.trans {first second third : Scope} (h : Scope.SameBut names first second)
    (h' : Scope.SameBut names second third) : Scope.SameBut names first third where
  values := fun name hname => (h'.values name hname).trans (h.values name hname)
  functions := fun name hname => (h'.functions name hname).trans (h.functions name hname)

/-- A definition changes the scope under its own name only. -/
theorem Scope.sameBut_value {name : String} (h : names .value name) (scope : Scope)
    (value : Option Value) :
    Scope.SameBut names scope { scope with values := scope.values.insert name value } where
  values := by
    intro other hother
    apply Bindings.find?_insert_of_ne
    rintro rfl
    exact hother h
  functions := fun _ _ => rfl

theorem Scope.sameBut_function {f : FunctionDef} (h : names .function f.name) (scope : Scope) :
    Scope.SameBut names scope { scope with functions := scope.functions.insert f.name f } where
  values := fun _ _ => rfl
  functions := by
    intro other hother
    apply Bindings.find?_insert_of_ne
    rintro rfl
    exact hother h

end SameBut

namespace Scopes

/-- What rendering nodes in the latest scope can do: it may bind more names there, and bind anew the
given names wherever they are bound. -/
structure Altered (names : NameKind → String → Prop) (before after : Scopes) : Prop where
  tidy : after.Tidy
  kept : Kept before after
  same : List.Forall₂ (Scope.SameBut names) before.stack after.stack

/-- What rendering a whole rule can do: it adds no name, and binds anew the given names. -/
structure Restored (names : NameKind → String → Prop) (before after : Scopes) : Prop where
  tidy : after.Tidy
  bound : List.Forall₂ Scope.SameNames before.stack after.stack
  same : List.Forall₂ (Scope.SameBut names) before.stack after.stack

variable {names : NameKind → String → Prop} {scopes before after : Scopes}

theorem Altered.refl (h : scopes.Tidy) : Altered names scopes scopes where
  tidy := h
  kept := .refl scopes
  same := List.forall₂_same.mpr fun scope _ => .refl scope

/-- Changes under some names add up to changes under those names. -/
theorem Altered.trans {first second third : Scopes} (h : Altered names first second)
    (h' : Altered names second third) : Altered names first third where
  tidy := h'.tidy
  kept := h.kept.trans h'.kept
  same := forall₂_trans h.same h'.same Scope.SameBut.trans

/-- A rule that gives back the scopes has altered them at most under its names. -/
theorem Restored.altered (h : Restored names before after) : Altered names before after where
  tidy := h.tidy
  kept := by
    refine ⟨h.bound.length_eq.symm, ?_⟩
    rw [← List.drop_one, ← List.drop_one]
    exact List.forall₂_drop 1 h.bound
  same := h.same

/-- A definition of one of the given names. -/
theorem Tidy.altered (h : scopes.Tidy) {number : Nat} (hnumber : number + 1 = scopes.count)
    {kind : NameKind} {name : String} {change : Scope → Scope}
    (hdefines : ∀ scope, Scope.Defines kind name scope (change scope))
    (hsame : ∀ scope, Scope.SameBut names scope (change scope)) :
    Altered names scopes
      (scopes.modify (scopes.owner number fun scope => scope.binds kind name) change) := by
  obtain ⟨htidy, hkept, -⟩ := h.assign hnumber hdefines rfl
  refine ⟨htidy, hkept, ?_⟩
  obtain ⟨newer, scope, older, hbefore, hafter, -⟩ :=
    modify_owner_cases h.nested hnumber (fun scope => scope.binds kind name) change
  have hrefl (stack : List Scope) : List.Forall₂ (Scope.SameBut names) stack stack :=
    List.forall₂_same.mpr fun scope _ => .refl scope
  rw [hbefore, hafter]
  exact List.rel_append (hrefl newer) (.cons (hsame scope) (hrefl older))

/-- Entering a scope, altering the scopes from within, and leaving it again. -/
theorem Altered.leave {outer inner : Scopes} {number : Nat} (houter : outer.Tidy)
    (h : Altered names (outer.enter number) inner) :
    Restored names outer (inner.leave outer.count) := by
  obtain ⟨htidy, hnames, -⟩ := h.tidy.leave h.kept houter
  refine ⟨htidy, hnames, ?_⟩
  have hcount : inner.stack.length = outer.count + 1 := h.kept.count
  have hleave : (inner.leave outer.count).stack = inner.stack.drop 1 := by
    simp [Scopes.leave, count, hcount]
  rw [hleave]
  exact List.forall₂_drop 1 h.same

end Scopes

namespace Render

section Alteration

variable {σ α β : Type} {names : NameKind → String → Prop} {setting : Setting} {scope : Nat}

/-- Where the step succeeds in the latest of tidy scopes, it has altered nothing but the given
names. -/
def Alters (names : NameKind → String → Prop) (scope : Nat) (act : Render σ α) : Prop :=
  ∀ progress a last, progress.scopes.Tidy → scope + 1 = progress.scopes.count →
    act progress = .ok a last → Scopes.Altered names progress.scopes last.scopes

/-- Steps that alter some names only can be chained. -/
theorem Alters.bind {act : Render σ α} {next : α → Render σ β} (h : Alters names scope act)
    (hnext : ∀ a, Alters names scope (next a)) : Alters names scope (act >>= next) := by
  intro progress b last htidy hscope hrun
  obtain ⟨a, middle, hact, hrest⟩ := ok_of_bind hrun
  have hfirst := h progress a middle htidy hscope hact
  have hlive : scope + 1 = middle.scopes.count := hscope.trans hfirst.kept.count.symm
  exact hfirst.trans (hnext a middle b last hfirst.tidy hlive hrest)

theorem Alters.of_scopes {act : Render σ α}
    (h : ∀ progress a last, scope < progress.scopes.count → act progress = .ok a last →
      last.scopes = progress.scopes) : Alters names scope act := by
  intro progress a last htidy hscope hrun
  rw [h progress a last (by omega) hrun]
  exact .refl htidy

theorem pure_alters (a : α) : Alters names scope (pure a : Render σ α) := by
  apply Alters.of_scopes
  intro progress b last _ hrun
  cases hrun
  rfl

/-- Writing leaves the scopes as they are. -/
theorem scopes_of_write {block after : Block} {act : Page.Write σ Unit}
    {progress last : Progress σ} (h : write block act progress = .ok after last) :
    last.scopes = progress.scopes := by
  unfold write at h
  cases hact : act (progress.page, block) with
  | ok _ state =>
      rw [hact] at h
      cases h
      rfl
  | error reason state =>
      rw [hact] at h
      cases h

theorem write_alters (block : Block) (act : Page.Write σ Unit) :
    Alters names scope (write block act) :=
  .of_scopes fun _ _ _ _ hrun => scopes_of_write hrun

/-- A computation in the live scopes leaves them as they are. -/
theorem settled_alters {act : Render σ α}
    (h : ∀ progress, scope < progress.scopes.count →
      ∃ outcome, act progress = settle outcome progress) : Alters names scope act := by
  apply Alters.of_scopes
  intro progress a last hlive hrun
  obtain ⟨outcome, hact⟩ := h progress hlive
  rw [hact] at hrun
  cases outcome with
  | ok value =>
      cases hrun
      rfl
  | error error => cases hrun

/-- A definition alters the name that it defines. -/
theorem define_alters {n : Node}
    (hdefines : ∀ kind name, n.definition? = some (kind, name) → names kind name) :
    Alters names scope (define setting scope n : Render σ Unit) := by
  cases n with
  | rule own children line => exact fun _ _ _ _ _ hrun => by cases hrun
  | declaration property values line => exact fun _ _ _ _ _ hrun => by cases hrun
  | assignment name e line =>
      have hvalue : Alters names scope (expr setting scope e : Render σ (Option Value)) :=
        settled_alters fun progress hlive => ⟨_, expr_eq_settle setting hlive e⟩
      refine hvalue.bind fun value => ?_
      intro progress _ last htidy hscope hrun
      cases hrun
      exact htidy.altered hscope (fun scope => scope.defines_value name value)
        fun scope => scope.sameBut_value (hdefines .value name rfl) value
  | function f =>
      intro progress _ last htidy hscope hrun
      cases hrun
      exact htidy.altered hscope (fun scope => scope.defines_function f)
        fun scope => scope.sameBut_function (hdefines .function f.name rfl)

variable [Sink σ]

/-- Leaving a rule gives back the scopes from before, altered at most under its names. -/
theorem inRule_restores {selectors : List String} {body : Nat → Block → Render σ Block}
    (hbody : ∀ child block, Alters names child (body child block)) {progress last : Progress σ}
    (htidy : progress.scopes.Tidy) (hscope : scope + 1 = progress.scopes.count)
    (hrun : inRule scope selectors body progress = .ok () last) :
    Scopes.Restored names progress.scopes last.scopes := by
  rw [inRule_eq] at hrun
  obtain ⟨block, middle, hinside, hrest⟩ := ok_of_bind hrun
  obtain ⟨_, final, hclose, hleave⟩ := ok_of_bind hrest
  cases hleave
  -- the block is closed before the scope is left, so that counts to the inside
  have hall := (hbody progress.scopes.count { head := Selector.head selectors }).bind
    fun block => write_alters block Page.close
  have hdone := hall _ _ final (htidy.enter hscope).1 rfl ((bind_of_ok hinside).trans hclose)
  exact hdone.leave htidy

mutual

/-- A node alters the names that it defines, by induction on the nesting of rules. -/
theorem node_alters (scope : Nat) (selectors : List String) (block : Block) :
    ∀ n : Node, (∀ kind name, n.Defines kind name → names kind name) →
      Alters names scope (node setting scope selectors block n : Render σ Block)
  | .rule own children line, h => by
      rw [node]
      refine (write_alters block Page.close).bind fun closed => ?_
      refine Alters.bind ?_ fun _ => pure_alters closed
      intro progress _ last htidy hscope hrun
      refine (inRule_restores (fun child opened => ?_) htidy hscope hrun).altered
      exact nodes_alters child _ opened children fun n hn kind name hname =>
        h kind name (hname.inRule hn own line)
  | .declaration property values line, h => by
      rw [node]
      have hvalues : Alters names scope (Render.values setting scope values : Render σ _) :=
        settled_alters fun progress hlive => ⟨_, values_eq_settle setting hlive values⟩
      exact hvalues.bind fun present => write_alters block _
  | .assignment name e line, h => by
      rw [node]
      refine (define_alters fun kind name hname => ?_).bind fun _ => pure_alters block
      exact h kind name ⟨_, List.mem_cons_self, hname⟩
  | .function f, h => by
      rw [node]
      refine (define_alters fun kind name hname => ?_).bind fun _ => pure_alters block
      exact h kind name ⟨_, List.mem_cons_self, hname⟩

theorem nodes_alters (scope : Nat) (selectors : List String) (block : Block) :
    ∀ children : List Node, (∀ n ∈ children, ∀ kind name, n.Defines kind name → names kind name) →
      Alters names scope (nodes setting scope selectors block children : Render σ Block)
  | [], _ => pure_alters block
  | first :: rest, h => by
      rw [nodes]
      refine (node_alters scope selectors block first (h first List.mem_cons_self)).bind ?_
      intro after
      exact nodes_alters scope selectors after rest fun n hn => h n (List.mem_cons_of_mem _ hn)

end

/-- The whole of a rule, from its own scope to the end of it. -/
theorem rule_restores {own : List String} {children : List Node} {line : Nat}
    {selectors : List String} {progress last : Progress σ} (htidy : progress.scopes.Tidy)
    (hscope : scope + 1 = progress.scopes.count)
    (hrun : inRule scope selectors
      (fun child opened => nodes setting child selectors opened children) progress =
        .ok () last) :
    Scopes.Restored (Node.rule own children line).Defines progress.scopes last.scopes := by
  refine inRule_restores (fun child opened => ?_) htidy hscope hrun
  exact nodes_alters child selectors opened children fun n hn _ _ hname => hname.inRule hn own line

theorem topNode_alters (n : Node) : Alters n.Defines 0 (topNode setting n : Render σ Unit) := by
  have hdefine (hself : n.leaves = [n]) : Alters n.Defines 0 (define setting 0 n : Render σ Unit) :=
    define_alters fun kind name hname => ⟨n, by simp [hself], hname⟩
  cases n with
  | rule own children line =>
      exact fun progress _ last htidy hscope hrun => (rule_restores htidy hscope hrun).altered
  | declaration property values line => exact hdefine rfl
  | assignment name e line => exact hdefine rfl
  | function f => exact hdefine rfl

end Alteration

/-- A rule while it is being rendered: its scope, its selectors and its block. -/
structure Surroundings where
  scope : Nat
  selectors : List String
  block : Block

/-- A point between two nodes: the rule around it, if it is not at the top of the sheet, the nodes
that follow in it, and what has been done so far. -/
structure Point (σ : Type) where
  around : Option Surroundings
  rest : List Node
  progress : Progress σ

namespace Point

variable {σ : Type}

/-- The scope in which the next node is rendered. -/
def scope (point : Point σ) : Nat := (point.around.map Surroundings.scope).getD 0

/-- The start of a rule with the given selectors, in a new scope and with a new block. -/
def inside (progress : Progress σ) (parent : Nat) (selectors : List String)
    (children : List Node) : Point σ where
  around := some ⟨progress.scopes.count, selectors, { head := Selector.head selectors }⟩
  rest := children
  progress := { progress with scopes := progress.scopes.enter parent }

/-- The next node is rendered whole. -/
inductive Passes [Sink σ] (setting : Setting) : Point σ → Point σ → Prop where
  | top {first : Node} {rest : List Node} {progress after : Progress σ}
      (h : topNode setting first progress = .ok () after) :
      Passes setting ⟨none, first :: rest, progress⟩ ⟨none, rest, after⟩
  | within {around : Surroundings} {first : Node} {rest : List Node} {block : Block}
      {progress after : Progress σ}
      (h : node setting around.scope around.selectors around.block first progress =
        .ok block after) :
      Passes setting ⟨some around, first :: rest, progress⟩
        ⟨some { around with block }, rest, after⟩

/-- The next node is a rule, and its own nodes are next. -/
inductive Enters [Sink σ] : Point σ → Point σ → Prop where
  | top {own : List String} {children rest : List Node} {line : Nat} {progress : Progress σ} :
      Enters ⟨none, .rule own children line :: rest, progress⟩
        (inside progress 0 (Selector.flatten own none) children)
  | within {around : Surroundings} {own : List String} {children rest : List Node} {line : Nat}
      {closed : Block} {progress after : Progress σ}
      (h : write around.block Page.close progress = .ok closed after) :
      Enters ⟨some around, .rule own children line :: rest, progress⟩
        (inside after around.scope (Selector.flatten own (some around.selectors)) children)

/-- The scopes are tidy, and the latest is the one at hand. -/
structure Sound (point : Point σ) : Prop where
  tidy : point.progress.scopes.Tidy
  latest : point.scope + 1 = point.progress.scopes.count

theorem Sound.inside {progress : Progress σ} {parent : Nat} (htidy : progress.scopes.Tidy)
    (hparent : parent + 1 = progress.scopes.count) (selectors : List String)
    (children : List Node) : (Point.inside progress parent selectors children).Sound where
  tidy := (htidy.enter hparent).1
  latest := rfl

variable [Sink σ] {setting : Setting} {point next : Point σ}

/-- What holds between nodes holds past the next one. -/
theorem Sound.passes (h : point.Sound) (hstep : Passes setting point next) : next.Sound := by
  cases hstep with
  | top hrun =>
      have hdone := topNode_alters _ _ _ _ h.tidy h.latest hrun
      exact ⟨hdone.tidy, h.latest.trans hdone.kept.count.symm⟩
  | within hrun =>
      have hdone := node_alters _ _ _ _ (fun _ _ => id) _ _ _ h.tidy h.latest hrun
      exact ⟨hdone.tidy, h.latest.trans hdone.kept.count.symm⟩

/-- And it holds inside a rule that is entered. -/
theorem Sound.enters (h : point.Sound) (hstep : Enters point next) : next.Sound := by
  cases hstep with
  | top => exact .inside h.tidy h.latest _ _
  | within hclose =>
      have hscopes := scopes_of_write hclose
      exact .inside (hscopes ▸ h.tidy) (hscopes ▸ h.latest) _ _

/-- A rule that has been rendered leaves the scopes as they were, but for what it defines. -/
theorem Sound.restored (h : point.Sound) (hstep : Passes setting point next) {own : List String}
    {children rest : List Node} {line : Nat}
    (hrest : point.rest = .rule own children line :: rest) :
    Scopes.Restored (Node.rule own children line).Defines point.progress.scopes
      next.progress.scopes := by
  cases hstep with
  | top hrun =>
      cases hrest
      exact rule_restores h.tidy h.latest hrun
  | within hrun =>
      cases hrest
      obtain ⟨closed, middle, hclose, hinside⟩ := ok_of_bind hrun
      obtain ⟨_, last, hrule, hlast⟩ := ok_of_bind hinside
      cases hlast
      have hscopes := scopes_of_write hclose
      rw [← hscopes]
      exact rule_restores (hscopes ▸ h.tidy) (hscopes ▸ h.latest) hrule

/-- Rendering some of the nodes that follow leads from point to point. -/
theorem passes_of_topNodes (children rest : List Node) {progress last : Progress σ}
    (h : topNodes setting children progress = .ok () last) :
    Relation.ReflTransGen (Passes setting) ⟨none, children ++ rest, progress⟩
      ⟨none, rest, last⟩ := by
  induction children generalizing progress with
  | nil =>
      cases h
      exact .refl
  | cons first others ih =>
      obtain ⟨_, middle, hfirst, hothers⟩ := ok_of_bind h
      exact .head (.top hfirst) (ih hothers)

/-- A run over nodes passes them one by one. -/
theorem passes_of_nodes {around : Surroundings} (children rest : List Node) {block : Block}
    {progress last : Progress σ}
    (h : nodes setting around.scope around.selectors around.block children progress =
      .ok block last) :
    Relation.ReflTransGen (Passes setting) ⟨some around, children ++ rest, progress⟩
      ⟨some { around with block }, rest, last⟩ := by
  induction children generalizing around progress with
  | nil =>
      cases h
      exact .refl
  | cons first others ih =>
      obtain ⟨after, middle, hfirst, hothers⟩ := ok_of_bind h
      have hlater := @ih { around with block := after } middle hothers
      exact .head (.within hfirst) hlater

end Point

end Render

namespace Sheet

open Render

variable {σ : Type} [Sink σ] {sheet : Sheet} {setting : Setting} {sink : σ} {point next : Point σ}

/-- The points that a rendering of the sheet comes by. -/
def Reaches (sheet : Sheet) (setting : Setting) (sink : σ) : Point σ → Prop :=
  Relation.ReflTransGen (fun point next => point.Passes setting next ∨ point.Enters next)
    ⟨none, sheet.children, { page := { sink } }⟩

theorem Reaches.passes (h : sheet.Reaches setting sink point)
    (hsteps : Relation.ReflTransGen (Point.Passes setting) point next) :
    sheet.Reaches setting sink next :=
  h.trans (hsteps.lift id fun _ _ => .inl)

theorem Reaches.enters (h : sheet.Reaches setting sink point) (hstep : point.Enters next) :
    sheet.Reaches setting sink next :=
  h.tail (.inr hstep)

/-- It holds at every point that a run comes to. -/
theorem Reaches.sound (h : sheet.Reaches setting sink point) : point.Sound := by
  induction h with
  | refl => exact ⟨Agree.initial.tidy, rfl⟩
  | tail _ hstep ih =>
      rcases hstep with hpasses | henters
      · exact ih.passes hpasses
      · exact ih.enters henters

/-- At every point between two nodes the scopes are tidy, and the one at hand is the latest. When
the next node is a rule and has been rendered, the same scopes are live as before it, they bind the
same names, and each name to what it was bound to unless the rule defines that name. -/
theorem scopes_between_nodes (sheet : Sheet) (setting : Setting) (sink : σ)
    (h : sheet.Reaches setting sink point) :
    point.progress.scopes.Tidy ∧ point.scope + 1 = point.progress.scopes.count ∧
      ∀ own children line rest next, point.rest = .rule own children line :: rest →
        point.Passes setting next →
        List.Forall₂ Scope.SameNames point.progress.scopes.stack next.progress.scopes.stack ∧
        List.Forall₂ (Scope.SameBut (Node.rule own children line).Defines)
          point.progress.scopes.stack next.progress.scopes.stack := by
  refine ⟨h.sound.tidy, h.sound.latest, ?_⟩
  intro own children line rest next hrest hpasses
  have hrestored := h.sound.restored hpasses hrest
  exact ⟨hrestored.bound, hrestored.same⟩

end Sheet

/-- A nested rule that defines a variable of the sheet anew, and names of its own. -/
def innerRule : Node :=
  .rule ["b"] [
    .assignment "x" ⟨[.reference "y" 5], 5⟩ 5,
    .assignment "z" ⟨[.reference "x" 6], 6⟩ 6,
    .function ⟨"f", [], ⟨[.reference "z" 7], 7⟩, 7⟩] 4

def sheetOfScopes : Sheet :=
  ⟨[.assignment "x" ⟨[.constant (.ident "red") 1], 1⟩ 1,
    .rule ["a"] [.assignment "y" ⟨[.constant (.ident "blue") 3], 3⟩ 3, innerRule] 2]⟩

theorem scopes_between_nodes_innerRule :
    ∃ point next : Render.Point Buffer,
      sheetOfScopes.Reaches ⟨.nothing, 0⟩ ({} : Buffer) point ∧ point.rest = [innerRule] ∧
      point.Passes ⟨.nothing, 0⟩ next ∧
      point.progress.scopes.Tidy ∧ point.scope + 1 = point.progress.scopes.count ∧
      List.Forall₂ Scope.SameNames point.progress.scopes.stack next.progress.scopes.stack ∧
      List.Forall₂ (Scope.SameBut innerRule.Defines)
        point.progress.scopes.stack next.progress.scopes.stack := by
  have hstart : sheetOfScopes.Reaches ⟨.nothing, 0⟩ ({} : Buffer)
      ⟨none, sheetOfScopes.children, { page := { sink := {} } }⟩ := .refl
  have htop := hstart.passes (Render.Point.passes_of_topNodes [_] [_] rfl)
  have hentered := htop.enters .top
  have hpoint := hentered.passes (Render.Point.passes_of_nodes [_] [innerRule] rfl)
  obtain ⟨htidy, hlatest, hrule⟩ := Sheet.scopes_between_nodes _ _ _ hpoint
  exact ⟨_, _, hpoint, rfl, .within rfl, htidy, hlatest, hrule _ _ _ _ _ rfl (.within rfl)⟩

end Stylesheet
