import Stylesheet.Color
import Stylesheet.Number.Decimal
import Stylesheet.Text.Quoted

/-!
The values that a sheet computes with, and their text in CSS. A value that may be absent is an
`Option Value`.
-/

namespace Stylesheet

/-- A value of a style sheet. Two values are equal when they are of one kind and their parts are;
numbers compare by value, so the two zeros are equal and NaN differs from itself. -/
inductive Value where
  | number (x : Float)
  | dimension (x : Float) (unit : String)
  | color (c : Color)
  | str (content : String)
  | ident (name : String)
  | bool (b : Bool)
  deriving BEq

namespace Value

def text : Value → String
  | .number x => Number.text x
  | .dimension x unit => Number.text x ++ unit
  | .color c => c.text
  | .str content => Text.quote content
  | .ident name => name
  | .bool b => if b then "true" else "false"

/-- The text that takes part in concatenation: a string without its quotes, else the CSS text. -/
def plainText : Value → String
  | .str content => content
  | v => v.text

/-- Everything but the value `false` counts as true. -/
def isTruthy : Value → Bool
  | .bool b => b
  | _ => true

/-- The number and the unit of a number or dimension; a plain number has the empty unit. -/
def numeric? : Value → Option (Float × String)
  | .number x => some (x, "")
  | .dimension x unit => some (x, unit)
  | _ => none

/-- A dimension, or a plain number where the unit is empty. -/
def ofNumeric (x : Float) (unit : String) : Value :=
  if unit = "" then .number x else .dimension x unit

end Value

end Stylesheet
