import Stylesheet.Error
import Stylesheet.Value

/-!
The tree of a sheet: rules that nest, declarations, and definitions of variables and functions.
Expressions are in postfix order, and every node carries the line it was written on.
-/

namespace Stylesheet

/-- A node of an expression in postfix order. -/
inductive Term where
  /-- A value as it stands. -/
  | constant (value : Value) (line : Nat)
  /-- The value of a variable. -/
  | reference (name : String) (line : Nat)
  /-- An operator on the values before it. -/
  | operator (op : Operator) (line : Nat)
  /-- A call with the last `argc` values before it. -/
  | call (name : String) (argc : Nat) (line : Nat)
  /-- An expression of its own, which counts as one value. -/
  | group (terms : List Term) (line : Nat)

namespace Term

def line : Term → Nat
  | .constant _ line | .reference _ line | .operator _ line | .call _ _ line | .group _ line => line

def kind : Term → Construct
  | .constant .. => .constant
  | .reference .. => .variableReference
  | .operator .. => .operator
  | .call .. => .functionCall
  | .group .. => .expression

mutual

/-- Are the terms the same, their values compared as values are? -/
def beq : Term → Term → Bool
  | .constant v l, .constant w m => v == w && l == m
  | .reference x l, .reference y m => x == y && l == m
  | .operator op l, .operator op' m => op == op' && l == m
  | .call f n l, .call g k m => f == g && n == k && l == m
  | .group ts l, .group us m => beqList ts us && l == m
  | _, _ => false

def beqList : List Term → List Term → Bool
  | [], [] => true
  | t :: ts, u :: us => beq t u && beqList ts us
  | _, _ => false

end

instance : BEq Term := ⟨beq⟩

end Term

/-- An expression: terms in postfix order. -/
structure Expr where
  terms : List Term
  line : Nat
  deriving BEq

/-- A parameter of a sheet function, with the expression that stands in for a missing argument. -/
structure Param where
  name : String
  default? : Option Expr
  deriving BEq

structure FunctionDef where
  name : String
  params : List Param
  body : Expr
  line : Nat
  deriving BEq

inductive Node where
  /-- A rule with its selectors and what stands inside its braces. -/
  | rule (selectors : List String) (children : List Node) (line : Nat)
  /-- A property with its values. -/
  | declaration (property : String) (values : List Term) (line : Nat)
  /-- The definition of a variable. -/
  | assignment (name : String) (value : Expr) (line : Nat)
  /-- The definition of a function. -/
  | function (definition : FunctionDef)

namespace Node

def line : Node → Nat
  | .rule _ _ line | .declaration _ _ line | .assignment _ _ line => line
  | .function definition => definition.line

def kind : Node → Construct
  | .rule .. => .rule
  | .declaration .. => .declaration
  | .assignment .. => .variableDefinition
  | .function .. => .functionDefinition

mutual

def beq : Node → Node → Bool
  | .rule s ns l, .rule t ms m => s == t && beqList ns ms && l == m
  | .declaration p ts l, .declaration q us m => p == q && ts == us && l == m
  | .assignment x d l, .assignment y e m => x == y && d == e && l == m
  | .function f, .function g => f == g
  | _, _ => false

def beqList : List Node → List Node → Bool
  | [], [] => true
  | n :: ns, m :: ms => beq n m && beqList ns ms
  | _, _ => false

end

instance : BEq Node := ⟨beq⟩

end Node

structure Sheet where
  children : List Node
  deriving BEq

end Stylesheet
