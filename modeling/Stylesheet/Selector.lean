/-!
Selectors of nested rules. Inside a rule, a selector that starts with `&` continues the enclosing
selector directly; any other one stands for a descendant of it.
-/

namespace Stylesheet.Selector

def extend (outer own : String) : String :=
  match own.toList with
  | '&' :: rest => outer ++ String.ofList rest
  | _ => outer ++ " " ++ own

/-- The selectors of a rule inside the enclosing ones: for each own selector in turn, all enclosing
ones. At the top there are no enclosing selectors, and a rule keeps its own. -/
def flatten (own : List String) : Option (List String) → List String
  | none => own
  | some outer => own.flatMap fun inner => outer.map fun o => extend o inner

def head (selectors : List String) : String :=
  String.intercalate "," selectors

end Stylesheet.Selector
