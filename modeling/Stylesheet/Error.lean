import Stylesheet.Operator

/-!
What can end the rendering of a sheet, and the message for each cause.
-/

namespace Stylesheet

/-- The kinds of nodes in a tree, as messages name them. -/
inductive Construct where
  | rule
  | declaration
  | variableDefinition
  | functionDefinition
  | constant
  | variableReference
  | operator
  | functionCall
  | expression
  deriving DecidableEq

def Construct.name : Construct → String
  | .rule => "rule"
  | .declaration => "declaration"
  | .variableDefinition => "variable definition"
  | .functionDefinition => "function definition"
  | .constant => "constant"
  | .variableReference => "variable reference"
  | .operator => "operator"
  | .functionCall => "function call"
  | .expression => "expression"

/-- A cause that ends the rendering of a sheet. -/
inductive Error where
  /-- A node stands where its kind has no meaning. -/
  | unexpected (kind : Construct) (line : Nat)
  /-- An operator or a call needs more values than its expression has computed. -/
  | argumentCount (available required line : Nat)
  /-- A call names a function that neither the sheet nor the host has. -/
  | functionNotFound (name : String) (line : Nat)
  /-- A function of the host refused its arguments. -/
  | invocation (function : String) (line : Nat) (reason : String)
  /-- An operator is not defined on its operands. -/
  | invalidOperands (op : Operator) (line : Nat)
  /-- The sink refused bytes or its flush failed. -/
  | sink (reason : String)
  /-- Calls of sheet functions are nested deeper than the evaluator was allowed to follow. -/
  | callDepth
  deriving DecidableEq

def Error.atLine (line : Nat) (parts : List String) : String :=
  String.join ("line " :: toString line :: ": " :: parts)

def Error.message : Error → String
  | .unexpected kind line => atLine line ["unexpected ", kind.name]
  | .argumentCount available required line =>
    atLine line ["not enough arguments: ", toString available, " available, ", toString required,
      " required"]
  | .functionNotFound name line => atLine line ["function not found: ", name]
  | .invocation function line reason => atLine line ["unable to invoke ", function, ": ", reason]
  | .invalidOperands op line => atLine line ["invalid operands for `", op.symbol, "`"]
  | .sink reason => String.join ["write failed: ", reason]
  | .callDepth => "calls are nested too deeply"

end Stylesheet
