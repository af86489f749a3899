import Stylesheet.Host
import Stylesheet.Tree

/-!
The scopes that are live while a sheet is rendered. Each scope has the variables and functions
defined in it and a stack of frames, one for each call under way in it. Scopes are numbered in the
order of their creation, and each but the first has an older one as its parent.

Looking a name up goes from a scope along its parents. Defining a name overwrites the nearest
binding of that name on the same path, and binds it in the scope itself where there is none.
-/

namespace Stylesheet

/-- The arguments of a call, by parameter name. An argument may be absent. -/
abbrev Frame := Bindings (Option Value)

/-- One scope: its parent, its own bindings, and the frames of calls, the latest first. -/
structure Scope where
  parent : Option Nat := none
  values : Bindings (Option Value) := .empty
  functions : Bindings FunctionDef := .empty
  frames : List Frame := []

/-- What the scope itself binds a variable to: the latest frame is asked first. A variable may be
bound to an absent value. -/
def Scope.value? (scope : Scope) (name : String) : Option (Option Value) :=
  (scope.frames.head?.bind fun frame => frame.find? name) <|> scope.values.find? name

/-- The live scopes, the latest first. The number of a scope is the count of those older than it. -/
structure Scopes where
  stack : List Scope

namespace Scopes

def initial : Scopes := ⟨[{}]⟩

/-- How many scopes are live; also the number that the next scope will get. -/
def count (scopes : Scopes) : Nat := scopes.stack.length

/-- The scope with the given number and its ancestors, the scope itself first, each with its
number. -/
def pathIn : List Scope → Nat → List (Nat × Scope)
  | [], _ => []
  | scope :: older, number =>
    if number = older.length then
      (number, scope) ::
        match scope.parent with
        | some parent => pathIn older parent
        | none => []
    else pathIn older number

def path (scopes : Scopes) (number : Nat) : List (Nat × Scope) :=
  pathIn scopes.stack number

def modifyIn (change : Scope → Scope) : List Scope → Nat → List Scope
  | [], _ => []
  | scope :: older, number =>
    if number = older.length then change scope :: older
    else scope :: modifyIn change older number

def modify (scopes : Scopes) (number : Nat) (change : Scope → Scope) : Scopes :=
  ⟨modifyIn change scopes.stack number⟩

def enter (scopes : Scopes) (parent : Nat) : Scopes :=
  ⟨{ parent := some parent } :: scopes.stack⟩

/-- Drops a scope and every later one. -/
def leave (scopes : Scopes) (number : Nat) : Scopes :=
  ⟨scopes.stack.drop (scopes.count - number)⟩

def pushFrame (scopes : Scopes) (number : Nat) (frame : Frame) : Scopes :=
  scopes.modify number fun scope => { scope with frames := frame :: scope.frames }

def popFrame (scopes : Scopes) (number : Nat) : Scopes :=
  scopes.modify number fun scope => { scope with frames := scope.frames.tail }

/-- What a variable is bound to, seen from a scope. -/
def value? (scopes : Scopes) (number : Nat) (name : String) : Option (Option Value) :=
  (scopes.path number).findSome? fun (_, scope) => scope.value? name

/-- The value of a variable, seen from a scope: bound on the path, or else provided by the host. -/
def valueOf (scopes : Scopes) (host : Host) (number : Nat) (name : String) : Option Value :=
  (scopes.value? number name).getD (host.value? name)

def function? (scopes : Scopes) (number : Nat) (name : String) : Option FunctionDef :=
  (scopes.path number).findSome? fun (_, scope) => scope.functions.find? name

/-- The scope whose binding a definition made in the given scope replaces: the nearest on the path
that `binds` the name, or the given scope itself. -/
def owner (scopes : Scopes) (number : Nat) (binds : Scope → Bool) : Nat :=
  match (scopes.path number).find? fun (_, scope) => binds scope with
  | some (found, _) => found
  | none => number

def setVariable (scopes : Scopes) (number : Nat) (name : String) (value : Option Value) : Scopes :=
  scopes.modify (scopes.owner number fun scope => scope.values.contains name) fun scope =>
    { scope with values := scope.values.insert name value }

/-- Binds a function under a name from within a scope. -/
def bindFunction (scopes : Scopes) (number : Nat) (name : String) (f : FunctionDef) : Scopes :=
  scopes.modify (scopes.owner number fun scope => scope.functions.contains name) fun scope =>
    { scope with functions := scope.functions.insert name f }

/-- Defines a function from within a scope, under its own name. -/
def setFunction (scopes : Scopes) (number : Nat) (definition : FunctionDef) : Scopes :=
  scopes.bindFunction number definition.name definition

/-- How many functions the live scopes define, counted once for each scope. -/
def functionCount (scopes : Scopes) : Nat :=
  scopes.stack.foldl (fun total scope => total + scope.functions.size) 0

end Scopes

end Stylesheet
