import Stylesheet.Host.ColorFunctions
import Stylesheet.Text.Blank

/-!
Host variables given as text, such as `gap=4px`. The value is a colour, a truth value, a number, a
dimension, or else a keyword.
-/

namespace Stylesheet

namespace Definition

def isNumeral (c : Char) : Bool := c.isDigit || c == '.'

/-- Splits characters into a sign, the longest run of digits and points, and the rest. -/
def splitNumber (cs : List Char) : Bool × List Char × List Char :=
  let negative := cs.head? == some '-'
  let unsigned := if negative then cs.tail else cs
  (negative, unsigned.takeWhile isNumeral, unsigned.dropWhile isNumeral)

def isUnit (cs : List Char) : Bool := cs == ['%'] || cs.all Char.isAlpha

/-- Reads a number, or a number with a unit. -/
def numeric? (cs : List Char) : Option Value :=
  let (negative, digits, unit) := splitNumber cs
  match Decimal.ofPositional? negative digits with
  | none => none
  | some d =>
    if unit.isEmpty then some (.number d.toFloat)
    else if isUnit unit then some (.dimension d.toFloat (String.ofList unit))
    else none

/-- Reads a value. Text that is nothing else is a keyword. -/
def value (raw : String) : Value :=
  match Color.ofHex? raw with
  | some c => .color c
  | none =>
    if raw = "true" then .bool true
    else if raw = "false" then .bool false
    else (numeric? raw.toList).getD (.ident raw)

inductive Refusal where
  /-- There is no equals sign. -/
  | noValue (argument : String)
  /-- There is nothing but blanks before the equals sign. -/
  | noName (argument : String)
  deriving DecidableEq

def Refusal.message : Refusal → String
  | .noValue argument => String.join ["expected name=value, got `", argument, "`"]
  | .noName argument => String.join ["missing variable name in `", argument, "`"]

/-- Reads a definition `name=value`. The first equals sign divides it, and blanks around both parts
are dropped. -/
def parse (argument : String) : Except Refusal (String × Value) :=
  let cs := argument.toList
  match cs.dropWhile (· != '=') with
  | [] => .error (.noValue argument)
  | _ :: raw =>
    let name := Text.trimChars (cs.takeWhile (· != '='))
    if name.isEmpty then .error (.noName argument)
    else .ok (String.ofList name, value (String.ofList (Text.trimChars raw)))

/-- The host with the given variables, of which a later one replaces an earlier one, and with the
colour functions unless they are withheld. -/
def host (definitions : List (String × Value)) (colorFunctions : Bool) : Host :=
  let table : HostTable :=
    definitions.foldl (fun table (name, value) => table.define name value) {}
  Host.ofTables (if colorFunctions then [table, ColorFunctions.table] else [table])

end Definition

end Stylesheet
