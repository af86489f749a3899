import Stylesheet.Number.Decimal

/-!
JSON trees. Numbers keep the decimal they were written as, a natural number written with digits
alone is told apart from the others, and objects keep their fields in order, repeated names
included.

The notation can name half a character by an escape. What is written so is a value by its form, but
there is no text for it; it stands in the tree as `illFormed`, and no reader of values accepts it.
-/

namespace Stylesheet

inductive Json where
  | null
  | bool (b : Bool)
  | natural (n : Nat)
  | number (d : Decimal)
  | string (s : String)
  | array (items : List Json)
  | object (fields : List (String × Json))
  /-- A string with half a surrogate pair, or an object with such a name. -/
  | illFormed

namespace Json

/-- A natural number that fits into 64 bits. -/
def word? : Json → Option Nat
  | .natural n => if n < Nat.pow 2 64 then some n else none
  | _ => none

def byte? : Json → Option UInt8
  | .natural n => if n < 256 then some (UInt8.ofNat n) else none
  | _ => none

/-- The float nearest to a number. -/
def float? : Json → Option Float
  | .natural n => some (Decimal.toFloat ⟨false, n, 0⟩)
  | .number d => some d.toFloat
  | _ => none

/-- A finite float as the decimal with the fewest digits that reads back; other floats have no
number in JSON. -/
def ofFloat (x : Float) : Json :=
  match Binary.ofFloat? x with
  | some b => .number (Decimal.shortest x b)
  | none => .null

def string? : Json → Option String
  | .string s => some s
  | _ => none

def bool? : Json → Option Bool
  | .bool b => some b
  | _ => none

def items? : Json → Option (List Json)
  | .array items => some items
  | _ => none

def fields? : Json → Option (List (String × Json))
  | .object fields => some fields
  | _ => none

/-- The value of a field that an object has exactly once. -/
def only? (fields : List (String × Json)) (name : String) : Option Json :=
  match fields.filter fun field => field.1 == name with
  | [(_, value)] => some value
  | _ => none

/-- The value of a field that an object may lack: `none` if it is repeated. -/
def atMostOne? (fields : List (String × Json)) (name : String) : Option (Option Json) :=
  match fields.filter fun field => field.1 == name with
  | [] => some none
  | [(_, value)] => some (some value)
  | _ => none

mutual

/-- The number of arrays and objects nested in each other, the value itself included. -/
def depth : Json → Nat
  | .array items => depthOfItems items + 1
  | .object fields => depthOfFields fields + 1
  | _ => 0

def depthOfItems : List Json → Nat
  | [] => 0
  | item :: rest => max (depth item) (depthOfItems rest)

def depthOfFields : List (String × Json) → Nat
  | [] => 0
  | (_, value) :: rest => max (depth value) (depthOfFields rest)

end

mutual

/-- Can all of the tree be read: is the nearest float of every number finite, and is there a text for
every string? -/
def isReadable : Json → Bool
  | .natural n => (Decimal.toFloat ⟨false, n, 0⟩).isFinite
  | .number d => d.toFloat.isFinite
  | .array items => itemsReadable items
  | .object fields => fieldsReadable fields
  | .illFormed => false
  | _ => true

def itemsReadable : List Json → Bool
  | [] => true
  | item :: rest => isReadable item && itemsReadable rest

def fieldsReadable : List (String × Json) → Bool
  | [] => true
  | (_, value) :: rest => isReadable value && fieldsReadable rest

end

end Json

end Stylesheet
