/-!
Quoted text: a text between double quotes, in which a backslash stands before every double quote
and every backslash of the content.
-/

namespace Stylesheet.Text

/-- The content with a backslash before each double quote and each backslash. -/
def escape : List Char → List Char
  | [] => []
  | c :: rest => if c = '"' ∨ c = '\\' then '\\' :: c :: escape rest else c :: escape rest

def quote (s : String) : String :=
  String.ofList ('"' :: (escape s.toList ++ ['"']))

end Stylesheet.Text
