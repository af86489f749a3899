import Stylesheet.Json
import Stylesheet.Text.Hex

/-!
Reading JSON text. A first machine takes the characters one by one and groups them into tokens; a
second one builds the tree from the tokens, with a stack of the arrays and objects that are still
open. Reading is a fold of both over the text, so no nesting is too deep for it.

Where a string names half a surrogate pair, its characters are given up, and it is read on for its
form alone.
-/

namespace Stylesheet.Json

inductive Token where
  | openObject
  | closeObject
  | openArray
  | closeArray
  | comma
  | colon
  /-- A string, without content where it has half a surrogate pair. -/
  | text (s : Option String)
  /-- A number or one of the words `null`, `true` and `false`. -/
  | atom (value : Json)

/-- Where the first machine stands. Characters already read are kept in reverse; those of a string
are gone once it has named half a surrogate pair. -/
inductive Lexing where
  | between
  /-- Inside a number or a word. -/
  | word (chars : List Char)
  /-- Inside a string. -/
  | text (chars : Option (List Char))
  /-- After a backslash in a string. -/
  | escape (chars : Option (List Char))
  /-- Inside the four digits of a code unit, of which `owed` are still to come. A first half of a
  surrogate pair is kept until its second half is read. -/
  | unit (chars : Option (List Char)) (lead : Option Nat) (owed value : Nat)
  /-- After the first half of a surrogate pair. -/
  | halfPair (chars : Option (List Char)) (lead : Nat)
  /-- After the first half of a surrogate pair and a backslash. -/
  | halfPairEscape (chars : Option (List Char)) (lead : Nat)

def isWordChar (c : Char) : Bool :=
  c.isAlphanum || c == '+' || c == '-' || c == '.'

/-- Digits without a leading zero, or a single zero. -/
def wholePart? (cs : List Char) : Option (List Char × List Char) :=
  let digits := cs.takeWhile Char.isDigit
  let rest := cs.dropWhile Char.isDigit
  match digits with
  | [] => none
  | '0' :: _ :: _ => none
  | _ => some (digits, rest)

/-- The digits after a point, of which there must be one, or none where there is no point. -/
def fractionPart? : List Char → Option (List Char × List Char)
  | '.' :: cs =>
    match cs.takeWhile Char.isDigit with
    | [] => none
    | digits => some (digits, cs.dropWhile Char.isDigit)
  | cs => some ([], cs)

def exponentDigits? (negative : Bool) (cs : List Char) : Option Int :=
  if cs.isEmpty || !cs.all Char.isDigit then none
  else
    let n := Nat.ofDigitChars 10 cs 0
    some (if negative then -(n : Int) else n)

/-- What stands after the digits: nothing, or an exponent. -/
def exponentPart? : List Char → Option (Option Int)
  | [] => some none
  | 'e' :: cs | 'E' :: cs =>
    match cs with
    | '+' :: digits => (exponentDigits? false digits).map some
    | '-' :: digits => (exponentDigits? true digits).map some
    | digits => (exponentDigits? false digits).map some
  | _ => none

def numeral? (cs : List Char) : Option Json := do
  let negative := cs.head? == some '-'
  let (whole, rest) ← wholePart? (if negative then cs.tail else cs)
  let (fraction, rest) ← fractionPart? rest
  let exponent ← exponentPart? rest
  let coefficient := Nat.ofDigitChars 10 (whole ++ fraction) 0
  if !negative && fraction.isEmpty && exponent.isNone then return .natural coefficient
  else return .number ⟨negative, coefficient, exponent.getD 0 - fraction.length⟩

def atom? (cs : List Char) : Option Json :=
  if cs = ['n', 'u', 'l', 'l'] then some .null
  else if cs = ['t', 'r', 'u', 'e'] then some (.bool true)
  else if cs = ['f', 'a', 'l', 's', 'e'] then some (.bool false)
  else numeral? cs

def append (chars : Option (List Char)) (c : Char) : Lexing :=
  .text (chars.map (c :: ·))

/-- Ends the digits of a code unit. A surrogate that is not one of a pair costs the string its
content. -/
def endUnit (chars : Option (List Char)) (lead : Option Nat) (value : Nat) : Lexing :=
  let isLead := 0xD800 ≤ value ∧ value ≤ 0xDBFF
  let isTrail := 0xDC00 ≤ value ∧ value ≤ 0xDFFF
  match lead with
  | some first =>
    if isTrail then
      append chars (Char.ofNat (0x10000 + (first - 0xD800) * 0x400 + (value - 0xDC00)))
    else .text none
  | none =>
    if isLead then .halfPair chars value
    else if isTrail then .text none
    else append chars (Char.ofNat value)

/-- The character that a single letter stands for after a backslash. -/
def escaped? : Char → Option Char
  | '"' => some '"'
  | '\\' => some '\\'
  | '/' => some '/'
  | 'b' => some '\x08'
  | 'f' => some '\x0c'
  | 'n' => some '\n'
  | 'r' => some '\r'
  | 't' => some '\t'
  | _ => none

/-- One character outside strings, numbers and words. -/
def lexBetween (c : Char) : Option (Lexing × List Token) :=
  match c with
  | ' ' | '\n' | '\r' | '\t' => some (.between, [])
  | '\x7b' => some (.between, [.openObject])
  | '\x7d' => some (.between, [.closeObject])
  | '[' => some (.between, [.openArray])
  | ']' => some (.between, [.closeArray])
  | ',' => some (.between, [.comma])
  | ':' => some (.between, [.colon])
  | '"' => some (.text (some []), [])
  | c => if isWordChar c then some (.word [c], []) else none

def lexText (chars : Option (List Char)) (c : Char) : Option (Lexing × List Token) :=
  if c = '"' then some (.between, [.text (chars.map fun cs => String.ofList cs.reverse)])
  else if c = '\\' then some (.escape chars, [])
  else if c.toNat < 0x20 then none
  else some (append chars c, [])

def lexEscape (chars : Option (List Char)) (c : Char) : Option (Lexing × List Token) :=
  if c = 'u' then some (.unit chars none 4 0, [])
  else (escaped? c).map fun plain => (append chars plain, [])

/-- One character: where the machine stands after it and the tokens that it completes. -/
def lex : Lexing → Char → Option (Lexing × List Token)
  | .between, c => lexBetween c
  | .word chars, c =>
    if isWordChar c then some (.word (c :: chars), [])
    else do
      let value ← atom? chars.reverse
      let (next, tokens) ← lexBetween c
      return (next, .atom value :: tokens)
  | .text chars, c => lexText chars c
  | .escape chars, c => lexEscape chars c
  | .unit chars lead owed value, c => do
    let digit ← Text.hexValue? c
    let value := value * 16 + digit
    if owed ≤ 1 then return (endUnit chars lead value, [])
    else return (.unit chars lead (owed - 1) value, [])
  | .halfPair chars lead, c =>
    if c = '\\' then some (.halfPairEscape chars lead, []) else lexText none c
  | .halfPairEscape chars lead, c =>
    if c = 'u' then some (.unit chars (some lead) 4 0, []) else lexEscape none c

/-- An array or object that is not closed yet, with what it holds so far in reverse. The fields of an
object are gone once one of its names has no content. -/
inductive Container where
  | array (items : List Json)
  | object (fields : Option (List (String × Json)))
  /-- An object whose last field has a name and no value yet. -/
  | field (fields : Option (List (String × Json))) (name : Option String)

inductive Reading where
  | value
  /-- The first item of an array, or its end. -/
  | itemOrEnd
  /-- The first name in an object, or its end. -/
  | nameOrEnd
  | name
  | colon
  /-- A comma, or the end of the innermost container. -/
  | separator
  /-- Nothing more: the tree is complete. -/
  | finished (tree : Json)

/-- Where the second machine stands: what it waits for, and the open containers from the inside. -/
abbrev Build := Reading × List Container

def place (value : Json) : List Container → Option Build
  | [] => some (.finished value, [])
  | .array items :: outer => some (.separator, .array (value :: items) :: outer)
  | .field fields name :: outer =>
    let extended := do return (← name, value) :: (← fields)
    some (.separator, .object extended :: outer)
  | .object _ :: _ => none

def closeArray : List Container → Option Build
  | .array items :: outer => place (.array items.reverse) outer
  | _ => none

def closeObject : List Container → Option Build
  | .object fields :: outer =>
    place (fields.elim .illFormed fun entries => .object entries.reverse) outer
  | _ => none

def startValue (open? : List Container) : Token → Option Build
  | .openObject => some (.nameOrEnd, .object (some []) :: open?)
  | .openArray => some (.itemOrEnd, .array [] :: open?)
  | .text s => place (s.elim .illFormed .string) open?
  | .atom value => place value open?
  | _ => none

def startField : List Container → Token → Option Build
  | .object fields :: outer, .text name => some (.colon, .field fields name :: outer)
  | _, _ => none

def build : Build → Token → Option Build
  | (.value, containers), token => startValue containers token
  | (.itemOrEnd, containers), .closeArray => closeArray containers
  | (.itemOrEnd, containers), token => startValue containers token
  | (.nameOrEnd, containers), .closeObject => closeObject containers
  | (.nameOrEnd, containers), token => startField containers token
  | (.name, containers), token => startField containers token
  | (.colon, containers), .colon => some (.value, containers)
  | (.separator, containers), .closeArray => closeArray containers
  | (.separator, containers), .closeObject => closeObject containers
  | (.separator, .array items :: outer), .comma => some (.value, .array items :: outer)
  | (.separator, .object fields :: outer), .comma => some (.name, .object fields :: outer)
  | _, _ => none

/-- One character for both machines. -/
def step (state : Lexing × Build) (c : Char) : Option (Lexing × Build) := do
  let (lexing, tokens) ← lex state.1 c
  return (lexing, ← tokens.foldlM build state.2)

/-- The tree at the end of the text, where a number or a word may still be under way. -/
def finish? : Lexing × Build → Option Json
  | (.between, .finished tree, _) => some tree
  | (.word chars, state) => do
    let value ← atom? chars.reverse
    match ← build state (.atom value) with
    | (.finished tree, _) => some tree
    | _ => none
  | _ => none

/-- Reads exactly one JSON value, with blanks around it. -/
def parse? (s : String) : Option Json :=
  (s.toList.foldlM step (.between, .value, [])).bind finish?

end Stylesheet.Json
