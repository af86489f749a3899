import Stylesheet.Error
import Stylesheet.Value

/-!
What the operators compute. Operands may be absent: arithmetic with an absent operand is absent,
concatenation skips it and logic takes it as false. An operator that is not defined on its operands
refuses them with its own name and line.
-/

namespace Stylesheet.Operator

/-- Does an operand count as true? An absent one does not. -/
def truthy (operand : Option Value) : Bool :=
  operand.any Value.isTruthy

def plainText (operand : Option Value) : String :=
  (operand.map Value.plainText).getD ""

/-- Arithmetic on numbers. Division and remainder are not defined for a zero divisor. -/
def onNumbers? (op : Operator) (x y : Float) : Option Float :=
  match op with
  | .add => some (x + y)
  | .sub => some (x - y)
  | .mul => some (x * y)
  | .div => if y == 0.0 then none else some (x / y)
  | .mod => if y == 0.0 then none else some (Number.remainder x y)
  | _ => none

/-- Arithmetic on colours, channel by channel. -/
def onColors? (op : Operator) (c d : Color) : Option Color := do
  let red ← op.onNumbers? c.red.toFloat d.red.toFloat
  let green ← op.onNumbers? c.green.toFloat d.green.toFloat
  let blue ← op.onNumbers? c.blue.toFloat d.blue.toFloat
  return Color.ofChannels red green blue

/-- Arithmetic of a colour with a number, which takes part in every channel. -/
def onColorNumber? (op : Operator) (c : Color) (x : Float) : Option Color := do
  let red ← op.onNumbers? c.red.toFloat x
  let green ← op.onNumbers? c.green.toFloat x
  let blue ← op.onNumbers? c.blue.toFloat x
  return Color.ofChannels red green blue

/-- Arithmetic on numbers with units: the result has the unit of the left operand, or that of the
right one where the left has none. -/
def onNumerics? (op : Operator) (a b : Value) : Option Value := do
  let (x, left) ← a.numeric?
  let (y, right) ← b.numeric?
  let z ← op.onNumbers? x y
  return Value.ofNumeric z (if left = "" then right else left)

def isStr : Value → Bool
  | .str _ => true
  | _ => false

/-- Arithmetic on present operands. Adding a string joins the plain texts of both. -/
def arithmetic? (op : Operator) (a b : Value) : Option Value :=
  if op = .add ∧ (isStr a ∨ isStr b) then some (.str (a.plainText ++ b.plainText))
  else
    match a, b with
    | .color c, .color d => (op.onColors? c d).map .color
    | .color c, b => b.numeric?.bind fun (y, _) => (op.onColorNumber? c y).map .color
    | a, b => op.onNumerics? a b

def ordered? (op : Operator) (x y : Float) : Option Bool :=
  match op with
  | .lt => some (x < y)
  | .gt => some (y < x)
  | .le => some (x ≤ y)
  | .ge => some (y ≤ x)
  | _ => none

/-- Comparison of numbers, whose units must agree where both have one. -/
def compare? (op : Operator) (a b : Value) : Option Bool := do
  let (x, left) ← a.numeric?
  let (y, right) ← b.numeric?
  if left ≠ "" ∧ right ≠ "" ∧ left ≠ right then none else op.ordered? x y

def negate? : Value → Option Value
  | .number x => some (.number (-x))
  | .dimension x unit => some (.dimension (-x) unit)
  | _ => none

/-- A unary operator on its operand; `none` is a refusal, `some none` an absent result. -/
def unary? (op : Operator) (a : Option Value) : Option (Option Value) :=
  match op with
  | .not => some (some (.bool (!truthy a)))
  | .neg =>
    match a with
    | none => some none
    | some v => (negate? v).map some
  | _ => none

/-- A binary operator on its operands; `none` is a refusal, `some none` an absent result. -/
def binary? (op : Operator) (a b : Option Value) : Option (Option Value) :=
  match op with
  | .concat => some (some (.str (plainText a ++ plainText b)))
  | .eq => some (some (.bool (a == b)))
  | .ne => some (some (.bool (a != b)))
  | .and => some (some (.bool (truthy a && truthy b)))
  | .or => some (some (.bool (truthy a || truthy b)))
  | .lt | .gt | .le | .ge =>
    match a, b with
    | some v, some w => (op.compare? v w).map fun holds => some (.bool holds)
    | _, _ => none
  | .add | .sub | .mul | .div | .mod =>
    match a, b with
    | some v, some w => (op.arithmetic? v w).map some
    | _, _ => some none
  | .neg | .not => none

/-- The result of the operator on its first operands, in the order they were pushed; operands past
its arity are not looked at. -/
def result? (op : Operator) (operands : List (Option Value)) : Option (Option Value) :=
  match op.arity, operands with
  | 1, a :: _ => op.unary? a
  | _, a :: b :: _ => op.binary? a b
  | _, _ => none

def apply (op : Operator) (operands : List (Option Value)) (line : Nat) :
    Except Error (Option Value) :=
  match op.result? operands with
  | some result => .ok result
  | none => .error (.invalidOperands op line)

end Stylesheet.Operator
