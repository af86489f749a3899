/-!
The operators of expressions: their names in a tree, their symbols in messages and the number of
operands each takes.
-/

namespace Stylesheet

inductive Operator where
  | neg
  | not
  | add
  | sub
  | mul
  | div
  | mod
  | concat
  | eq
  | ne
  | lt
  | gt
  | le
  | ge
  | and
  | or
  deriving DecidableEq

namespace Operator

def all : List Operator :=
  [neg, not, add, sub, mul, div, mod, concat, eq, ne, lt, gt, le, ge, and, or]

/-- The name of the operator in a tree. -/
def name : Operator → String
  | .neg => "neg"
  | .not => "not"
  | .add => "add"
  | .sub => "sub"
  | .mul => "mul"
  | .div => "div"
  | .mod => "mod"
  | .concat => "concat"
  | .eq => "eq"
  | .ne => "ne"
  | .lt => "lt"
  | .gt => "gt"
  | .le => "le"
  | .ge => "ge"
  | .and => "and"
  | .or => "or"

def ofName? (s : String) : Option Operator :=
  all.find? fun op => op.name == s

/-- The symbol of the operator in messages. -/
def symbol : Operator → String
  | .neg | .sub => "-"
  | .not => "!"
  | .add => "+"
  | .mul => "*"
  | .div => "/"
  | .mod => "%"
  | .concat => "~"
  | .eq => "=="
  | .ne => "!="
  | .lt => "<"
  | .gt => ">"
  | .le => "<="
  | .ge => ">="
  | .and => "&&"
  | .or => "||"

def arity : Operator → Nat
  | .neg | .not => 1
  | _ => 2

end Operator

end Stylesheet
