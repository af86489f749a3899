import Stylesheet.Json.Reader
import Stylesheet.Tree.Json

/-!
Reading a sheet from JSON text. Text is bounded more narrowly than trees are: the nodes may be
nested only so deep, each of their numbers must be in the range of floats, and each of their strings
must be text, also in fields that are passed over. Other fields of the sheet itself need only be
well formed.
-/

namespace Stylesheet.Sheet

/-- How many arrays and objects may be nested in the text of a sheet. -/
def maxDepth : Nat := 127

/-- Does the part of the tree that is read keep the bounds? The sheet itself counts as one level. -/
def withinBounds (j : Json) : Bool :=
  match (j.record? fieldNames).bind fun fields => Json.only? fields "children" with
  | some children => decide (children.depth + 1 ≤ maxDepth) && children.isReadable
  | none => false

def parse? (text : String) : Option Sheet := do
  let j ← Json.parse? text
  if withinBounds j then ofJson? Json.float? j else none

end Stylesheet.Sheet
