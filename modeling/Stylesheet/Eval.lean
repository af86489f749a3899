import Stylesheet.Operator.Apply
import Stylesheet.Scopes

/-!
Evaluation of expressions in a scope.

An expression is run on a stack of its own: constants, references and nested expressions push a
value, operators and calls replace the last values by their result. The value of the expression is
the one at the bottom of the stack, absent where nothing was pushed.

A call of a sheet function pushes a frame on the calling scope, runs the body there and pops the
frame again, whether the body succeeds or fails. The evaluator follows calls up to a given depth,
and `Error.callDepth` tells that this depth was not enough.
-/

namespace Stylesheet

/-- A computation that reads and changes the live scopes. They are kept also when it fails. -/
abbrev Eval := EStateM Error Scopes

/-- Values in the order of a stack, the last one pushed first. -/
abbrev Stack := List (Option Value)

/-- How a call by name is carried out, given the arguments in order and the line of the call. -/
abbrev Invoke := String → List (Option Value) → Nat → Eval (Option Value)

namespace Eval

def fail {α : Type} (error : Error) : Eval α := fun scopes => .error error scopes

/-- Succeeds or fails without a look at the scopes. -/
def ofExcept {α : Type} : Except Error α → Eval α
  | .ok a => pure a
  | .error error => fail error

/-- The value of a variable seen from a scope: bound there, or provided by the host, or absent. -/
def lookup (host : Host) (scope : Nat) (name : String) : Eval (Option Value) := fun scopes =>
  .ok (scopes.valueOf host scope name) scopes

/-- Takes the last `count` values off the stack and pushes the result of `act` on them, which sees
them in the order they were pushed. -/
def onTop (stack : Stack) (count line : Nat)
    (act : List (Option Value) → Eval (Option Value)) : Eval Stack :=
  if stack.length < count then fail (.argumentCount stack.length count line)
  else do
    let result ← act (stack.take count).reverse
    return result :: stack.drop count

/-- The value that an expression leaves: the first one pushed. -/
def bottom (stack : Stack) : Option Value :=
  stack.getLast?.join

mutual

/-- The value of a single term. Operators and calls have no meaning outside an expression. -/
def term (host : Host) (invoke : Invoke) (scope : Nat) : Term → Eval (Option Value)
  | .constant value _ => pure (some value)
  | .reference name _ => lookup host scope name
  | .operator _ line => fail (.unexpected .operator line)
  | .call _ _ line => fail (.unexpected .functionCall line)
  | .group terms _ => do return bottom (← run host invoke scope [] terms)

def run (host : Host) (invoke : Invoke) (scope : Nat) : Stack → List Term → Eval Stack
  | stack, [] => pure stack
  | stack, .operator op line :: rest => do
    let next ← onTop stack op.arity line fun operands => ofExcept (op.apply operands line)
    run host invoke scope next rest
  | stack, .call name argc line :: rest => do
    let next ← onTop stack argc line fun arguments => invoke name arguments line
    run host invoke scope next rest
  | stack, first :: rest => do
    let value ← term host invoke scope first
    run host invoke scope (value :: stack) rest

end

def expr (host : Host) (invoke : Invoke) (scope : Nat) (e : Expr) : Eval (Option Value) := do
  return bottom (← run host invoke scope [] e.terms)

/-- The value of a parameter without argument: that of its default, or none. -/
def missing (default : Expr → Eval (Option Value)) (param : Param) : Eval (Option Value) :=
  match param.default? with
  | some e => default e
  | none => pure none

/-- Binds parameters to arguments in order. Defaults of parameters without argument are computed in
the caller's surroundings, and surplus arguments are dropped. -/
def bindParams (default : Expr → Eval (Option Value)) :
    Frame → List Param → List (Option Value) → Eval Frame
  | frame, [], _ => pure frame
  | frame, param :: params, argument :: arguments =>
    bindParams default (frame.insert param.name argument) params arguments
  | frame, param :: params, [] => do
    let value ← missing default param
    bindParams default (frame.insert param.name value) params []

/-- Runs a computation with a further frame on a scope, and takes the frame off at its end. -/
def withFrame {α : Type} (scope : Nat) (frame : Frame) (act : Eval α) : Eval α := fun scopes =>
  match act (scopes.pushFrame scope frame) with
  | .ok a after => .ok a (after.popFrame scope)
  | .error error after => .error error (after.popFrame scope)

/-- Calls a sheet function from a scope. Its body runs in that same scope. -/
def callFunction (host : Host) (invoke : Invoke) (scope : Nat) (f : FunctionDef)
    (arguments : List (Option Value)) : Eval (Option Value) := do
  let frame ← bindParams (expr host invoke scope) .empty f.params arguments
  withFrame scope frame (expr host invoke scope f.body)

def callHost (host : Host) (name : String) (arguments : List (Option Value)) (line : Nat) :
    Eval (Option Value) :=
  match host.function? name with
  | none => fail (.functionNotFound name line)
  | some f =>
    match f.call arguments with
    | .ok value => pure value
    | .error reason => fail (.invocation f.name line reason)

/-- Carries out a call by name: the nearest sheet function, called by `call`, else one of the
host. -/
def dispatch (host : Host) (scope : Nat)
    (call : FunctionDef → List (Option Value) → Eval (Option Value)) : Invoke :=
  fun name arguments line scopes =>
    match scopes.function? scope name with
    | some f => call f arguments scopes
    | none => callHost host name arguments line scopes

/-- Carries out calls by name, with calls of sheet functions nested up to a depth. -/
def invoke (host : Host) (scope : Nat) : Nat → Invoke
  | 0 => dispatch host scope fun _ _ => fail .callDepth
  | depth + 1 => dispatch host scope (callFunction host (invoke host scope depth) scope)

end Eval

/-- The depth of calls that is followed. Without recursion no chain of calls is longer than the
number of functions; the margin lets a short recursion end in the error it runs into. -/
def callAllowance (functions : Nat) : Nat := functions + 500

namespace Scopes

def evaluate (scopes : Scopes) (host : Host) (scope : Nat) (e : Expr) :
    EStateM.Result Error Scopes (Option Value) :=
  Eval.expr host (Eval.invoke host scope (callAllowance scopes.functionCount)) scope e scopes

def evaluateTerm (scopes : Scopes) (host : Host) (scope : Nat) (t : Term) :
    EStateM.Result Error Scopes (Option Value) :=
  Eval.term host (Eval.invoke host scope (callAllowance scopes.functionCount)) scope t scopes

def invoke (scopes : Scopes) (host : Host) (scope : Nat) (name : String)
    (arguments : List (Option Value)) (line : Nat) : EStateM.Result Error Scopes (Option Value) :=
  Eval.invoke host scope (callAllowance scopes.functionCount) name arguments line scopes

end Scopes

end Stylesheet
