import Stylesheet.Eval
import Stylesheet.Page
import Stylesheet.Selector

/-!
Rendering a sheet as CSS. The nodes are taken in document order. A rule has a scope and a block of
its own; a nested rule closes the block of the enclosing one, and a declaration after it opens that
block again. All values of a declaration are computed before any of it is written.
-/

namespace Stylesheet

/-- What rendering changes on its way: the live scopes and the page. -/
structure Progress (σ : Type) where
  scopes : Scopes := .initial
  page : Page σ

/-- A step of rendering. Its effects are kept also when it fails. -/
abbrev Render (σ : Type) := EStateM Error (Progress σ)

namespace Render

def eval {σ α : Type} (act : Eval α) : Render σ α := fun progress =>
  match act progress.scopes with
  | .ok a scopes => .ok a { progress with scopes }
  | .error error scopes => .error error { progress with scopes }

def changeScopes {σ : Type} (change : Scopes → Scopes) : Render σ Unit :=
  modify fun progress => { progress with scopes := change progress.scopes }

/-- Writes to the page through a block, and gives the block as it is afterwards. -/
def write {σ : Type} (block : Block) (act : Page.Write σ Unit) : Render σ Block := fun progress =>
  match act (progress.page, block) with
  | .ok () (page, block) => .ok block { progress with page }
  | .error reason (page, _) => .error (.sink reason) { progress with page }

/-- The surroundings of a sheet: the host and how deep calls may be nested. -/
structure Setting where
  host : Host
  depth : Nat

def term {σ : Type} (setting : Setting) (scope : Nat) (t : Term) : Render σ (Option Value) :=
  eval (Eval.term setting.host (Eval.invoke setting.host scope setting.depth) scope t)

def expr {σ : Type} (setting : Setting) (scope : Nat) (e : Expr) : Render σ (Option Value) :=
  eval (Eval.expr setting.host (Eval.invoke setting.host scope setting.depth) scope e)

/-- The values of a declaration in order, without the absent ones. -/
def values {σ : Type} (setting : Setting) (scope : Nat) : List Term → Render σ (List Value)
  | [] => pure []
  | t :: rest => do
    let value ← term setting scope t
    let others ← values setting scope rest
    return value.toList ++ others

/-- Defines a variable or a function in a scope. Nothing else is a definition. -/
def define {σ : Type} (setting : Setting) (scope : Nat) : Node → Render σ Unit
  | .assignment name e _ => do
    let value ← expr setting scope e
    changeScopes fun scopes => scopes.setVariable scope name value
  | .function definition => changeScopes fun scopes => scopes.setFunction scope definition
  | node => throw (.unexpected node.kind node.line)

/-- Renders the inside of a rule: in a new scope within `parent` and with a new block for the given
selectors, which is closed at the end. -/
def inRule {σ : Type} [Sink σ] (parent : Nat) (selectors : List String)
    (body : Nat → Block → Render σ Block) : Render σ Unit := do
  let scope := (← get).scopes.count
  changeScopes fun scopes => scopes.enter parent
  let block ← body scope { head := Selector.head selectors }
  let _ ← write block Page.close
  changeScopes fun scopes => scopes.leave scope

mutual

/-- Renders a node inside a rule and gives the rule's block as it is afterwards. -/
def node {σ : Type} [Sink σ] (setting : Setting) (scope : Nat) (selectors : List String)
    (block : Block) : Node → Render σ Block
  | .rule own children _ => do
    let block ← write block Page.close
    let inner := Selector.flatten own (some selectors)
    inRule scope inner fun child opened => nodes setting child inner opened children
    return block
  | .declaration property terms _ => do
    let present ← values setting scope terms
    write block (Page.declaration property present)
  | .assignment name e line => do
    define setting scope (.assignment name e line)
    return block
  | .function definition => do
    define setting scope (.function definition)
    return block

def nodes {σ : Type} [Sink σ] (setting : Setting) (scope : Nat) (selectors : List String) :
    Block → List Node → Render σ Block
  | block, [] => pure block
  | block, first :: rest => do
    let block ← node setting scope selectors block first
    nodes setting scope selectors block rest

end

/-- Renders a node at the top of a sheet, where declarations have no meaning. -/
def topNode {σ : Type} [Sink σ] (setting : Setting) : Node → Render σ Unit
  | .rule own children _ =>
    let selectors := Selector.flatten own none
    inRule 0 selectors fun scope block => nodes setting scope selectors block children
  | other => define setting 0 other

def topNodes {σ : Type} [Sink σ] (setting : Setting) : List Node → Render σ Unit
  | [] => pure ()
  | first :: rest => do
    topNode setting first
    topNodes setting rest

end Render

mutual

/-- How many functions a node defines, nested ones included. -/
def Node.functionCount : Node → Nat
  | .rule _ children _ => Node.functionCounts children
  | .function _ => 1
  | _ => 0

def Node.functionCounts : List Node → Nat
  | [] => 0
  | first :: rest => first.functionCount + Node.functionCounts rest

end

/-- The outcome of rendering: whether it succeeded, and the page as it was left. -/
structure Rendering (σ : Type) where
  result : Except Error Unit
  page : Page σ

namespace Sheet

/-- Renders the sheet to a sink with the given setting. The sink is flushed once at the end; a
failure to flush counts only where rendering itself succeeded. -/
def renderIn {σ : Type} [Sink σ] (sheet : Sheet) (setting : Render.Setting) (sink : σ) :
    Rendering σ :=
  match Render.topNodes setting sheet.children { page := { sink } } with
  | .ok () progress =>
    match Page.finish progress.page with
    | .ok () page => ⟨.ok (), page⟩
    | .error reason page => ⟨.error (.sink reason), page⟩
  | .error error progress =>
    match Page.finish progress.page with
    | .ok () page | .error _ page => ⟨.error error, page⟩

/-- How deep calls are followed: more than the functions of the sheet can call each other without
recursion. -/
def allowance (sheet : Sheet) : Nat := callAllowance (Node.functionCounts sheet.children)

def render {σ : Type} [Sink σ] (sheet : Sheet) (host : Host) (sink : σ) : Rendering σ :=
  sheet.renderIn ⟨host, sheet.allowance⟩ sink

def css (sheet : Sheet) (host : Host) : Except Error ByteArray :=
  let rendering := sheet.render host ({} : Buffer)
  rendering.result.map fun () => rendering.page.sink.bytes

end Sheet

end Stylesheet
