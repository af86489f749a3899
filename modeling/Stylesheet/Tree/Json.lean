import Stylesheet.Json
import Stylesheet.Tree

/-!
Trees of sheets as JSON. Writing is `toJson`; reading is `ofJson?`, which takes the fields of an
object in any order and passes over fields it does not know, but refuses a field of its own that is
missing or repeated. A record may also be an array of its parts in order, and a name without content
an object with that single name.

How a float is written or read is a parameter, so that the same form can carry exact bits.
-/

namespace Stylesheet

namespace Json

/-- The fields of a record. It is an object, or an array of what stands under the given names, in
their order, where only the last ones may be missing. -/
def record? (names : List String) : Json → Option (List (String × Json))
  | .object fields => some fields
  | .array items => if items.length ≤ names.length then some (names.zip items) else none
  | _ => none

/-- The fields of a record that tells its kind by a tag. In an array the tag comes first, and the
kind says under which names the other items stand. -/
def tagged? (kind? : Json → Option String) (names : String → List String) :
    Json → Option (List (String × Json))
  | .object fields => some fields
  | .array (tag :: items) => do
    let kind ← kind? tag
    let fields ← record? (names kind) (.array items)
    return ("type", tag) :: fields
  | _ => none

theorem sizeOf_lt_of_record? {names : List String} {j : Json} {fields : List (String × Json)}
    (h : j.record? names = some fields) {field : String × Json} (hfield : field ∈ fields) :
    sizeOf field.2 < sizeOf j := by
  unfold record? at h
  split at h
  · obtain rfl := Option.some.inj h
    have hsize := List.sizeOf_lt_of_mem hfield
    cases field
    simp only [Prod.mk.sizeOf_spec, object.sizeOf_spec] at hsize ⊢
    omega
  · next items =>
      split at h
      · obtain rfl := Option.some.inj h
        have hsize := List.sizeOf_lt_of_mem (List.of_mem_zip hfield).2
        simp only [array.sizeOf_spec]
        omega
      · cases h
  · cases h

theorem sizeOf_lt_of_tagged? {kind? : Json → Option String} {names : String → List String}
    {j : Json} {fields : List (String × Json)} (h : j.tagged? kind? names = some fields)
    {field : String × Json} (hfield : field ∈ fields) : sizeOf field.2 < sizeOf j := by
  unfold tagged? at h
  split at h
  · next found =>
      have hrecord : (object found).record? [] = some fields := h
      exact sizeOf_lt_of_record? hrecord hfield
  · next tag items =>
      obtain ⟨kind, -, h⟩ := Option.bind_eq_some_iff.mp h
      obtain ⟨others, hothers, h⟩ := Option.bind_eq_some_iff.mp h
      obtain rfl := Option.some.inj h
      simp only [array.sizeOf_spec, List.cons.sizeOf_spec]
      rcases List.mem_cons.mp hfield with rfl | hother
      · dsimp only
        omega
      · have hsize := sizeOf_lt_of_record? hothers hother
        simp only [array.sizeOf_spec] at hsize
        omega
  · cases h

theorem mem_of_only? {fields : List (String × Json)} {name : String} {value : Json}
    (h : only? fields name = some value) : ∃ key, (key, value) ∈ fields := by
  unfold only? at h
  split at h
  next key found hfilter =>
    obtain rfl := Option.some.inj h
    exact ⟨key, (List.mem_filter.mp (by rw [hfilter]; exact List.mem_singleton_self _)).1⟩
  next => cases h

/-- The items of an array that stands under a name. That they do is kept with them: recursion on the
tree rests on it. -/
def arrayField? (fields : List (String × Json)) (name : String) :
    Option { items : List Json // only? fields name = some (.array items) } :=
  match only? fields name with
  | some (.array items) => some ⟨items, rfl⟩
  | _ => none

theorem sizeOf_items_lt {kind? : Json → Option String} {names : String → List String}
    {j : Json} {fields : List (String × Json)} (h : j.tagged? kind? names = some fields)
    {name : String} {items : List Json} (hitems : only? fields name = some (.array items)) :
    sizeOf items < sizeOf j := by
  obtain ⟨key, hmem⟩ := mem_of_only? hitems
  have hsize := sizeOf_lt_of_tagged? h hmem
  simp only [array.sizeOf_spec] at hsize
  omega

/-- One of several names. Where `byPosition` is set, its position among them will do as well. -/
def choice? (names : List String) (byPosition : Bool) : Json → Option String
  | .string s => if names.contains s then some s else none
  | .natural n => if byPosition then names[n]? else none
  | _ => none

def isNothing : Json → Bool
  | .null | .object [] => true
  | _ => false

/-- A name that stands for itself: a string, or an object with that single name and nothing under
it. -/
def name? : Json → Option String
  | .string s => some s
  | .object [(name, value)] => if value.isNothing then some name else none
  | _ => none

end Json

/-- How floats are written in JSON. -/
abbrev FloatWriter := Float → Json

abbrev FloatReader := Json → Option Float

namespace Color

def toJson (c : Color) : Json :=
  .object [("r", .natural c.red.toNat), ("g", .natural c.green.toNat), ("b", .natural c.blue.toNat)]

def fieldNames : List String := ["r", "g", "b"]

def ofJson? (j : Json) : Option Color := do
  let fields ← j.record? fieldNames
  let red ← (← Json.only? fields "r").byte?
  let green ← (← Json.only? fields "g").byte?
  let blue ← (← Json.only? fields "b").byte?
  return ⟨red, green, blue⟩

end Color

namespace Value

/-- A value as an object of its kind and its content. -/
def toJson (float : FloatWriter) : Value → Json
  | .number x => .object [("kind", .string "number"), ("value", float x)]
  | .dimension x unit =>
    .object [("kind", .string "dimension"),
      ("value", .object [("value", float x), ("unit", .string unit)])]
  | .color c => .object [("kind", .string "color"), ("value", c.toJson)]
  | .str s => .object [("kind", .string "str"), ("value", .string s)]
  | .ident s => .object [("kind", .string "ident"), ("value", .string s)]
  | .bool b => .object [("kind", .string "bool"), ("value", .bool b)]

/-- Reads the content of a value of a kind. That of a dimension is no record by itself, so its parts
have no order. -/
def ofContent? (float? : FloatReader) (kind : String) (content : Json) : Option Value :=
  match kind with
  | "number" => (float? content).map .number
  | "dimension" => do
    let fields ← content.fields?
    let x ← float? (← Json.only? fields "value")
    let unit ← (← Json.only? fields "unit").string?
    return .dimension x unit
  | "color" => (Color.ofJson? content).map .color
  | "str" => content.string?.map .str
  | "ident" => content.string?.map .ident
  | "bool" => content.bool?.map .bool
  | _ => none

def fieldNames : List String := ["kind", "value"]

def ofJson? (float? : FloatReader) (j : Json) : Option Value := do
  let fields ← j.record? fieldNames
  let kind ← (← Json.only? fields "kind").name?
  ofContent? float? kind (← Json.only? fields "value")

end Value

namespace Term

mutual

def toJson (float : FloatWriter) : Term → Json
  | .constant value line =>
    .object [("type", .string "constant"), ("value", value.toJson float), ("line", .natural line)]
  | .reference name line =>
    .object [("type", .string "variable"), ("name", .string name), ("line", .natural line)]
  | .operator op line =>
    .object [("type", .string "operator"), ("op", .string op.name), ("line", .natural line)]
  | .call name argc line =>
    .object [("type", .string "call"), ("name", .string name), ("argc", .natural argc),
      ("line", .natural line)]
  | .group terms line =>
    .object [("type", .string "expression"), ("nodes", .array (listToJson float terms)),
      ("line", .natural line)]

def listToJson (float : FloatWriter) : List Term → List Json
  | [] => []
  | t :: rest => t.toJson float :: listToJson float rest

end

/-- The kinds of terms in a tree, in order. -/
def kinds : List String := ["constant", "variable", "operator", "call", "expression"]

/-- The names of the parts of a term of a kind, in order. -/
def fieldNames : String → List String
  | "constant" => ["value", "line"]
  | "variable" => ["name", "line"]
  | "operator" => ["op", "line"]
  | "call" => ["name", "argc", "line"]
  | _ => ["nodes", "line"]

mutual

/-- Reads a term. Inside another node the kind may be given by its position among the kinds. -/
def ofJson? (float? : FloatReader) (inside : Bool) (j : Json) : Option Term :=
  match _hfields : j.tagged? (Json.choice? kinds inside) fieldNames with
  | some fields => do
    let kind ← (← Json.only? fields "type").choice? kinds inside
    let line ← (← Json.only? fields "line").word?
    match kind with
    | "constant" => return .constant (← Value.ofJson? float? (← Json.only? fields "value")) line
    | "variable" => return .reference (← (← Json.only? fields "name").string?) line
    | "operator" =>
      return .operator (← Operator.ofName? (← (← Json.only? fields "op").name?)) line
    | "call" =>
      let name ← (← Json.only? fields "name").string?
      let argc ← (← Json.only? fields "argc").word?
      return .call name argc line
    | _ =>
      let ⟨items, _hitems⟩ ← Json.arrayField? fields "nodes"
      return .group (← listOfJson? float? true items) line
  | none => none
termination_by sizeOf j
decreasing_by exact Json.sizeOf_items_lt _hfields _hitems

def listOfJson? (float? : FloatReader) (inside : Bool) (items : List Json) : Option (List Term) :=
  match items with
  | [] => some []
  | item :: rest => do
    let t ← ofJson? float? inside item
    let others ← listOfJson? float? inside rest
    return t :: others
termination_by sizeOf items

end

end Term

namespace Expr

def toJson (float : FloatWriter) (e : Expr) : Json :=
  .object [("nodes", .array (Term.listToJson float e.terms)), ("line", .natural e.line)]

def fieldNames : List String := ["nodes", "line"]

def ofJson? (float? : FloatReader) (inside : Bool) (j : Json) : Option Expr := do
  let fields ← j.record? fieldNames
  let terms ← Term.listOfJson? float? inside (← (← Json.only? fields "nodes").items?)
  let line ← (← Json.only? fields "line").word?
  return ⟨terms, line⟩

end Expr

namespace Param

/-- A parameter as an object; a parameter without default has no field for it. -/
def toJson (float : FloatWriter) (p : Param) : Json :=
  .object (("name", .string p.name) ::
    match p.default? with
    | some e => [("default", e.toJson float)]
    | none => [])

/-- Reads a default, which may also be `null` or missing. -/
def defaultOfJson? (float? : FloatReader) (inside : Bool) : Option Json → Option (Option Expr)
  | none | some .null => some none
  | some j => (Expr.ofJson? float? inside j).map some

def fieldNames : List String := ["name", "default"]

def ofJson? (float? : FloatReader) (inside : Bool) (j : Json) : Option Param := do
  let fields ← j.record? fieldNames
  let name ← (← Json.only? fields "name").string?
  let default? ← defaultOfJson? float? inside (← Json.atMostOne? fields "default")
  return ⟨name, default?⟩

end Param

namespace FunctionDef

def toFields (float : FloatWriter) (f : FunctionDef) : List (String × Json) :=
  [("name", .string f.name), ("args", .array (f.params.map (Param.toJson float))),
    ("body", f.body.toJson float), ("line", .natural f.line)]

/-- Reads a function definition whose fields may stand among those of a node. -/
def ofFields? (float? : FloatReader) (inside : Bool) (fields : List (String × Json)) :
    Option FunctionDef := do
  let name ← (← Json.only? fields "name").string?
  let params ← (← (← Json.only? fields "args").items?).mapM (Param.ofJson? float? inside)
  let body ← Expr.ofJson? float? inside (← Json.only? fields "body")
  let line ← (← Json.only? fields "line").word?
  return ⟨name, params, body, line⟩

def fieldNames : List String := ["name", "args", "body", "line"]

def ofJson? (float? : FloatReader) (inside : Bool) (j : Json) : Option FunctionDef := do
  ofFields? float? inside (← j.record? fieldNames)

end FunctionDef

namespace Node

mutual

def toJson (float : FloatWriter) : Node → Json
  | .rule selectors children line =>
    .object [("type", .string "rule"), ("selectors", .array (selectors.map .string)),
      ("children", .array (listToJson float children)), ("line", .natural line)]
  | .declaration property values line =>
    .object [("type", .string "declaration"), ("property", .string property),
      ("values", .array (Term.listToJson float values)), ("line", .natural line)]
  | .assignment name value line =>
    .object [("type", .string "variable"), ("name", .string name), ("value", value.toJson float),
      ("line", .natural line)]
  | .function definition => .object (("type", .string "function") :: definition.toFields float)

def listToJson (float : FloatWriter) : List Node → List Json
  | [] => []
  | node :: rest => node.toJson float :: listToJson float rest

end

def kinds : List String := ["rule", "declaration", "variable", "function"]

def fieldNames : String → List String
  | "rule" => ["selectors", "children", "line"]
  | "declaration" => ["property", "values", "line"]
  | "variable" => ["name", "value", "line"]
  | _ => FunctionDef.fieldNames

mutual

/-- Reads a node. Inside another node the kind may be given by its position among the kinds. -/
def ofJson? (float? : FloatReader) (inside : Bool) (j : Json) : Option Node :=
  match _hfields : j.tagged? (Json.choice? kinds inside) fieldNames with
  | some fields => do
    let kind ← (← Json.only? fields "type").choice? kinds inside
    match kind with
    | "rule" =>
      let selectors ← (← (← Json.only? fields "selectors").items?).mapM Json.string?
      let ⟨items, _hitems⟩ ← Json.arrayField? fields "children"
      let children ← listOfJson? float? true items
      return .rule selectors children (← (← Json.only? fields "line").word?)
    | "declaration" =>
      let property ← (← Json.only? fields "property").string?
      let values ← Term.listOfJson? float? true (← (← Json.only? fields "values").items?)
      return .declaration property values (← (← Json.only? fields "line").word?)
    | "variable" =>
      let name ← (← Json.only? fields "name").string?
      let value ← Expr.ofJson? float? true (← Json.only? fields "value")
      return .assignment name value (← (← Json.only? fields "line").word?)
    | _ => return .function (← FunctionDef.ofFields? float? true fields)
  | none => none
termination_by sizeOf j
decreasing_by exact Json.sizeOf_items_lt _hfields _hitems

def listOfJson? (float? : FloatReader) (inside : Bool) (items : List Json) : Option (List Node) :=
  match items with
  | [] => some []
  | item :: rest => do
    let node ← ofJson? float? inside item
    let others ← listOfJson? float? inside rest
    return node :: others
termination_by sizeOf items

end

end Node

namespace Sheet

def toJson (float : FloatWriter) (sheet : Sheet) : Json :=
  .object [("children", .array (Node.listToJson float sheet.children))]

def fieldNames : List String := ["children"]

def ofJson? (float? : FloatReader) (j : Json) : Option Sheet := do
  let fields ← j.record? fieldNames
  let children ← Node.listOfJson? float? false (← (← Json.only? fields "children").items?)
  return ⟨children⟩

end Sheet

end Stylesheet
