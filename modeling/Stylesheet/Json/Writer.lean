import Stylesheet.Json

/-!
Writing JSON text on one line.
-/

namespace Stylesheet.Json

def charText (c : Char) : List Char :=
  if c = '"' ∨ c = '\\' then ['\\', c]
  else if c.toNat < 0x20 then
    '\\' :: 'u' :: '0' :: '0' :: [(c.toNat / 16).digitChar, (c.toNat % 16).digitChar]
  else [c]

def stringText (s : String) : String :=
  String.ofList ('"' :: (s.toList.flatMap charText ++ ['"']))

/-- A decimal as a number with an exponent. -/
def decimalText (d : Decimal) : String :=
  (if d.negative then "-" else "") ++ d.coefficient.repr ++ "e" ++ toString d.exponent

mutual

def render : Json → String
  | .null => "null"
  | .bool b => if b then "true" else "false"
  | .natural n => n.repr
  | .number d => decimalText d
  | .string s => stringText s
  | .array items => "[" ++ String.intercalate "," (renderItems items) ++ "]"
  | .object fields => "\x7b" ++ String.intercalate "," (renderFields fields) ++ "\x7d"
  | .illFormed => "\"\\ud800\""

def renderItems : List Json → List String
  | [] => []
  | item :: rest => render item :: renderItems rest

def renderFields : List (String × Json) → List String
  | [] => []
  | (name, value) :: rest => (stringText name ++ ":" ++ render value) :: renderFields rest

end

end Stylesheet.Json
