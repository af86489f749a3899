import Stylesheet.Proofs.NumberReading
import Stylesheet.Tree.Json

/-!
Writing a tree and reading it back. The readers of terms and nodes recurse on the size of what they
read; here they are given by equations that name the fields of a record only, and from those
every construct of a sheet is read back from what is written for it. What has no form in JSON is
left out: floats that are not finite, and lines and counts beyond 64 bits.
-/

namespace Stylesheet

namespace Json

/-- What is kept with the items for the sake of recursion does not matter to what is read. -/
theorem arrayField?_bind {α : Type} (fields : List (String × Json)) (name : String)
    (f : List Json → Option α) :
    ((arrayField? fields name).bind fun items => f items.1) =
      (only? fields name).bind fun value => value.items?.bind f := by
  unfold arrayField?
  generalize only? fields name = found
  cases found with
  | none => rfl
  | some value => cases value <;> rfl

@[simp]
theorem record?_object (names : List String) (fields : List (String × Json)) :
    (object fields).record? names = some fields := rfl

@[simp]
theorem tagged?_object (kind? : Json → Option String) (names : String → List String)
    (fields : List (String × Json)) : (object fields).tagged? kind? names = some fields := rfl

@[simp]
theorem name?_string (s : String) : (string s).name? = some s := rfl

/-- The kind that the fields of a record name. -/
def kindOf? (kinds : List String) (inside : Bool) (fields : List (String × Json)) : Option String :=
  (only? fields "type").bind (choice? kinds inside)

/-- A kind that is given by its name is read as that kind, inside another node or not. -/
theorem kindOf?_of_string {kinds : List String} {inside : Bool} {fields : List (String × Json)}
    {kind : String} (h : only? fields "type" = some (.string kind)) (hkind : kind ∈ kinds) :
    kindOf? kinds inside fields = some kind := by
  unfold kindOf?
  rw [h]
  exact if_pos (List.contains_iff_mem.mpr hkind)

end Json

namespace Term

variable (float? : FloatReader) (inside : Bool)

/-- The rest of a term whose kind and line are known. -/
def ofKind? (fields : List (String × Json)) (kind : String) (line : Nat) : Option Term :=
  match kind with
  | "constant" => return .constant (← Value.ofJson? float? (← Json.only? fields "value")) line
  | "variable" => return .reference (← (← Json.only? fields "name").string?) line
  | "operator" =>
    return .operator (← Operator.ofName? (← (← Json.only? fields "op").name?)) line
  | "call" => do
    let name ← (← Json.only? fields "name").string?
    let argc ← (← Json.only? fields "argc").word?
    return .call name argc line
  | _ => do
    let items ← (← Json.only? fields "nodes").items?
    return .group (← items.mapM (ofJson? float? true)) line

/-- Terms in order are read one by one. -/
theorem listOfJson?_eq_mapM (items : List Json) :
    listOfJson? float? inside items = items.mapM (ofJson? float? inside) := by
  induction items with
  | nil => rw [listOfJson?]; rfl
  | cons item rest ih => rw [listOfJson?, List.mapM_cons, ih]

/-- A term is read from the fields of its record: first the kind, then the line, then what the kind
asks for. -/
theorem ofJson?_eq (j : Json) :
    ofJson? float? inside j = (do
      let fields ← j.tagged? (Json.choice? kinds inside) fieldNames
      let kind ← Json.kindOf? kinds inside fields
      let line ← (← Json.only? fields "line").word?
      ofKind? float? fields kind line) := by
  rw [ofJson?]
  generalize j.tagged? (Json.choice? kinds inside) fieldNames = record
  cases record with
  | none => rfl
  | some fields => ?_
  change _ = (Json.kindOf? kinds inside fields >>= _)
  rw [Json.kindOf?, ← Option.bind_eq_bind, bind_assoc]
  refine bind_congr fun tag => bind_congr fun kind => bind_congr fun lineField =>
    bind_congr fun line => ?_
  unfold ofKind?
  split
  · rfl
  · rfl
  · rfl
  · rfl
  · simp only [listOfJson?_eq_mapM]
    exact Json.arrayField?_bind fields "nodes" fun items => do
      return Term.group (← items.mapM (ofJson? float? true)) line

end Term

namespace Node

variable (float? : FloatReader) (inside : Bool)

/-- The rest of a node whose kind is known. -/
def ofKind? (fields : List (String × Json)) (kind : String) : Option Node :=
  match kind with
  | "rule" => do
    let selectors ← (← (← Json.only? fields "selectors").items?).mapM Json.string?
    let items ← (← Json.only? fields "children").items?
    let children ← items.mapM (ofJson? float? true)
    return .rule selectors children (← (← Json.only? fields "line").word?)
  | "declaration" => do
    let property ← (← Json.only? fields "property").string?
    let items ← (← Json.only? fields "values").items?
    let values ← items.mapM (Term.ofJson? float? true)
    return .declaration property values (← (← Json.only? fields "line").word?)
  | "variable" => do
    let name ← (← Json.only? fields "name").string?
    let value ← Expr.ofJson? float? true (← Json.only? fields "value")
    return .assignment name value (← (← Json.only? fields "line").word?)
  | _ => return .function (← FunctionDef.ofFields? float? true fields)

theorem listOfJson?_eq_mapM (items : List Json) :
    listOfJson? float? inside items = items.mapM (ofJson? float? inside) := by
  induction items with
  | nil => rw [listOfJson?]; rfl
  | cons item rest ih => rw [listOfJson?, List.mapM_cons, ih]

/-- A node is read from the fields of its record: first the kind, then what the kind asks for. -/
theorem ofJson?_eq (j : Json) :
    ofJson? float? inside j = (do
      let fields ← j.tagged? (Json.choice? kinds inside) fieldNames
      let kind ← Json.kindOf? kinds inside fields
      ofKind? float? fields kind) := by
  rw [ofJson?]
  generalize j.tagged? (Json.choice? kinds inside) fieldNames = record
  cases record with
  | none => rfl
  | some fields => ?_
  change _ = (Json.kindOf? kinds inside fields >>= _)
  rw [Json.kindOf?, ← Option.bind_eq_bind, bind_assoc]
  refine bind_congr fun tag => bind_congr fun kind => ?_
  unfold ofKind?
  split
  · simp only [listOfJson?_eq_mapM]
    refine bind_congr fun selectorsField => bind_congr fun items => bind_congr fun selectors => ?_
    exact Json.arrayField?_bind fields "children" fun items => do
      let children ← items.mapM (ofJson? float? true)
      return Node.rule selectors children (← (← Json.only? fields "line").word?)
  · simp only [Term.listOfJson?_eq_mapM]
  · rfl
  · grind

end Node

namespace Json

theorem word?_natural {n : Nat} (h : n < 2 ^ 64) : word? (.natural n) = some n :=
  if_pos h

theorem byte?_natural (b : UInt8) : byte? (.natural b.toNat) = some b :=
  (if_pos b.toNat_lt).trans (congrArg some (UInt8.ofNat_toNat))

end Json

theorem Operator.ofName?_name (op : Operator) : ofName? op.name = some op := by
  cases op <;> rfl

/-- A colour reads back, since each channel is a byte. -/
theorem Color.ofJson?_toJson (c : Color) : ofJson? c.toJson = some c := by
  simp [ofJson?, toJson, Json.only?, Json.byte?_natural]

/-- Are the numbers in the value finite? -/
def Value.isFinite : Value → Bool
  | .number x | .dimension x _ => x.isFinite
  | _ => true

mutual

/-- Are the numbers in the term finite, and do its lines and counts fit into 64 bits? -/
def Term.isWritable : Term → Bool
  | .constant value line => value.isFinite && decide (line < 2 ^ 64)
  | .reference _ line | .operator _ line => decide (line < 2 ^ 64)
  | .call _ argc line => decide (argc < 2 ^ 64) && decide (line < 2 ^ 64)
  | .group terms line => Term.areWritable terms && decide (line < 2 ^ 64)

/-- The same for terms in order. -/
def Term.areWritable : List Term → Bool
  | [] => true
  | t :: rest => t.isWritable && Term.areWritable rest

end

/-- The same for an expression. -/
def Expr.isWritable (e : Expr) : Bool :=
  Term.areWritable e.terms && decide (e.line < 2 ^ 64)

/-- The same for the default of a parameter. -/
def Param.isWritable (p : Param) : Bool :=
  p.default?.all Expr.isWritable

/-- The same for the definition of a function. -/
def FunctionDef.isWritable (f : FunctionDef) : Bool :=
  f.params.all Param.isWritable && f.body.isWritable && decide (f.line < 2 ^ 64)

mutual

/-- The same for a node and all that stands inside it. -/
def Node.isWritable : Node → Bool
  | .rule _ children line => Node.areWritable children && decide (line < 2 ^ 64)
  | .declaration _ values line => Term.areWritable values && decide (line < 2 ^ 64)
  | .assignment _ value line => value.isWritable && decide (line < 2 ^ 64)
  | .function definition => definition.isWritable

/-- The same for nodes in order. -/
def Node.areWritable : List Node → Bool
  | [] => true
  | node :: rest => node.isWritable && Node.areWritable rest

end

/-- Does the sheet have a form in JSON: are all of its numbers finite, and do all of its lines and
counts of arguments fit into 64 bits? -/
def Sheet.isWritable (sheet : Sheet) : Bool :=
  Node.areWritable sheet.children

theorem Value.ofJson?_of_kind {float? : FloatReader} {fields : List (String × Json)} {kind : String}
    {content : Json} (hkind : Json.only? fields "kind" = some (.string kind))
    (hcontent : Json.only? fields "value" = some content) :
    ofJson? float? (.object fields) = ofContent? float? kind content := by
  simp only [ofJson?, Json.record?_object, Option.bind_eq_bind, Option.bind_some, hkind,
    Json.name?_string, hcontent]

/-- What an object of a term has to have: a kind, a line within 64 bits, and what the kind asks for.
-/
theorem Term.ofJson?_of_kind {float? : FloatReader} {inside : Bool} {fields : List (String × Json)}
    {kind : String} {line : Nat} {t : Term} (hkind : kind ∈ kinds)
    (htype : Json.only? fields "type" = some (.string kind))
    (hline : Json.only? fields "line" = some (.natural line)) (hbound : line < 2 ^ 64)
    (hrest : ofKind? float? fields kind line = some t) :
    ofJson? float? inside (.object fields) = some t := by
  rw [ofJson?_eq]
  simp only [Json.tagged?_object, Option.bind_eq_bind, Option.bind_some,
    Json.kindOf?_of_string htype hkind, hline, Json.word?_natural hbound, hrest]

/-- The same for a node, whose line is among what the kind asks for. -/
theorem Node.ofJson?_of_kind {float? : FloatReader} {inside : Bool} {fields : List (String × Json)}
    {kind : String} {node : Node} (hkind : kind ∈ kinds)
    (htype : Json.only? fields "type" = some (.string kind))
    (hrest : ofKind? float? fields kind = some node) :
    ofJson? float? inside (.object fields) = some node := by
  rw [ofJson?_eq]
  simp only [Json.tagged?_object, Option.bind_eq_bind, Option.bind_some,
    Json.kindOf?_of_string htype hkind, hrest]

/-- Every finite float reads back from what is written for it. -/
def Json.Exact (float : FloatWriter) (float? : FloatReader) : Prop :=
  ∀ x : Float, x.isFinite → float? (float x) = some x

/-- The shortest decimal of a finite float reads back as that float. -/
theorem Json.exact_ofFloat : Exact ofFloat float? := fun _ h => float?_ofFloat h

section RoundTrip

variable {float : FloatWriter} {float? : FloatReader}

/-- A value reads back if its number is finite. Only numbers and dimensions depend on how floats are
written. -/
theorem Value.ofJson?_toJson (hexact : Json.Exact float float?) {v : Value} (h : v.isFinite) :
    ofJson? float? (v.toJson float) = some v := by
  cases v with
  | number x =>
      rw [toJson, ofJson?_of_kind rfl rfl]
      exact congrArg (Option.map number) (hexact x h)
  | dimension x unit =>
      have hcontent : ofContent? float? "dimension"
          (.object [("value", float x), ("unit", .string unit)]) =
            (float? (float x)).bind fun x => some (dimension x unit) := rfl
      rw [toJson, ofJson?_of_kind rfl rfl, hcontent, hexact x h]
      rfl
  | color c =>
      rw [toJson, ofJson?_of_kind rfl rfl]
      exact congrArg (Option.map color) (Color.ofJson?_toJson c)
  | str s => rfl
  | ident s => rfl
  | bool b => rfl

mutual

/-- A term reads back from what is written for it, by induction on the nesting of groups. -/
theorem Term.ofJson?_toJson (hexact : Json.Exact float float?) {t : Term} (h : t.isWritable)
    (inside : Bool) : ofJson? float? inside (t.toJson float) = some t := by
  cases t with
  | constant value line =>
      simp only [isWritable, Bool.and_eq_true, decide_eq_true_eq] at h
      refine ofJson?_of_kind (by decide) rfl rfl h.2 ?_
      simp [ofKind?, Json.only?, Value.ofJson?_toJson hexact h.1]
  | reference name line =>
      simp only [isWritable, decide_eq_true_eq] at h
      exact ofJson?_of_kind (by decide) rfl rfl h rfl
  | operator op line =>
      simp only [isWritable, decide_eq_true_eq] at h
      refine ofJson?_of_kind (by decide) rfl rfl h ?_
      simp [ofKind?, Json.only?, Operator.ofName?_name]
  | call name argc line =>
      simp only [isWritable, Bool.and_eq_true, decide_eq_true_eq] at h
      refine ofJson?_of_kind (by decide) rfl rfl h.2 ?_
      simp [ofKind?, Json.only?, Json.string?, Json.word?_natural h.1]
  | group terms line =>
      simp only [isWritable, Bool.and_eq_true, decide_eq_true_eq] at h
      refine ofJson?_of_kind (by decide) rfl rfl h.2 ?_
      simp [ofKind?, Json.only?, Json.items?, mapM_ofJson?_listToJson hexact h.1 true]

theorem Term.mapM_ofJson?_listToJson (hexact : Json.Exact float float?) {terms : List Term}
    (h : areWritable terms) (inside : Bool) :
    (listToJson float terms).mapM (ofJson? float? inside) = some terms := by
  cases terms with
  | nil => rfl
  | cons t rest =>
      obtain ⟨hfirst, hrest⟩ := Bool.and_eq_true_iff.mp h
      rw [listToJson, List.mapM_cons, Term.ofJson?_toJson hexact hfirst inside,
        Term.mapM_ofJson?_listToJson hexact hrest inside]
      rfl

end

/-- An expression reads back with its terms and its line. -/
theorem Expr.ofJson?_toJson (hexact : Json.Exact float float?) {e : Expr} (h : e.isWritable)
    (inside : Bool) : ofJson? float? inside (e.toJson float) = some e := by
  simp only [isWritable, Bool.and_eq_true, decide_eq_true_eq] at h
  simp [ofJson?, toJson, Json.only?, Json.items?, Term.listOfJson?_eq_mapM,
    Term.mapM_ofJson?_listToJson hexact h.1 inside, Json.word?_natural h.2]

/-- A parameter reads back with its default, or without one where the field is left out. -/
theorem Param.ofJson?_toJson (hexact : Json.Exact float float?) {p : Param} (h : p.isWritable)
    (inside : Bool) : ofJson? float? inside (p.toJson float) = some p := by
  obtain ⟨name, default?⟩ := p
  cases default? with
  | none => rfl
  | some e =>
      have hread := Expr.ofJson?_toJson hexact h inside
      have hdefault : defaultOfJson? float? inside (some (e.toJson float)) = some (some e) :=
        congrArg (Option.map some) hread
      simp [ofJson?, toJson, Json.only?, Json.string?, Json.atMostOne?, hdefault]

theorem Param.mapM_ofJson?_map_toJson (hexact : Json.Exact float float?) {params : List Param}
    (h : params.all isWritable) (inside : Bool) :
    (params.map (toJson float)).mapM (ofJson? float? inside) = some params := by
  induction params with
  | nil => rfl
  | cons p rest ih =>
      simp only [List.all_cons, Bool.and_eq_true] at h
      rw [List.map_cons, List.mapM_cons, Param.ofJson?_toJson hexact h.1 inside, ih h.2]
      rfl

/-- The fields of a definition read back also where the kind of a node stands among them. -/
theorem FunctionDef.ofFields?_toFields (hexact : Json.Exact float float?) {f : FunctionDef}
    (h : f.isWritable) (inside : Bool) :
    ofFields? float? inside (("type", .string "function") :: f.toFields float) = some f := by
  simp only [isWritable, Bool.and_eq_true, decide_eq_true_eq] at h
  obtain ⟨⟨hparams, hbody⟩, hline⟩ := h
  simp [ofFields?, toFields, Json.only?, Json.string?, Json.items?,
    Param.mapM_ofJson?_map_toJson hexact hparams inside, Expr.ofJson?_toJson hexact hbody inside,
    Json.word?_natural hline]

theorem Json.mapM_string? (texts : List String) :
    (texts.map Json.string).mapM Json.string? = some texts := by
  induction texts with
  | nil => rfl
  | cons text rest ih => rw [List.map_cons, List.mapM_cons, ih]; rfl

mutual

/-- A node reads back with all that stands inside it, by induction on the nesting of rules. -/
theorem Node.ofJson?_toJson (hexact : Json.Exact float float?) {node : Node}
    (h : node.isWritable) (inside : Bool) :
    ofJson? float? inside (node.toJson float) = some node := by
  cases node with
  | rule selectors children line =>
      simp only [isWritable, Bool.and_eq_true, decide_eq_true_eq] at h
      refine ofJson?_of_kind (by decide) rfl ?_
      simp [ofKind?, Json.only?, Json.items?, Json.mapM_string?, Json.word?_natural h.2,
        mapM_ofJson?_listToJson hexact h.1 true, -List.mapM_map]
  | declaration property values line =>
      simp only [isWritable, Bool.and_eq_true, decide_eq_true_eq] at h
      refine ofJson?_of_kind (by decide) rfl ?_
      simp [ofKind?, Json.only?, Json.items?, Json.string?, Json.word?_natural h.2,
        Term.mapM_ofJson?_listToJson hexact h.1 true]
  | assignment name value line =>
      simp only [isWritable, Bool.and_eq_true, decide_eq_true_eq] at h
      refine ofJson?_of_kind (by decide) rfl ?_
      simp [ofKind?, Json.only?, Json.string?, Json.word?_natural h.2,
        Expr.ofJson?_toJson hexact h.1 true]
  | function definition =>
      refine ofJson?_of_kind (by decide) rfl ?_
      simp [ofKind?, FunctionDef.ofFields?_toFields hexact h true]

theorem Node.mapM_ofJson?_listToJson (hexact : Json.Exact float float?) {nodes : List Node}
    (h : areWritable nodes) (inside : Bool) :
    (listToJson float nodes).mapM (ofJson? float? inside) = some nodes := by
  cases nodes with
  | nil => rfl
  | cons node rest =>
      obtain ⟨hfirst, hrest⟩ := Bool.and_eq_true_iff.mp h
      rw [listToJson, List.mapM_cons, Node.ofJson?_toJson hexact hfirst inside,
        Node.mapM_ofJson?_listToJson hexact hrest inside]
      rfl

end

/-- Every sheet that has a form in JSON reads back from it, with any exact way to write floats. -/
theorem Sheet.ofJson?_toJson (hexact : Json.Exact float float?) {sheet : Sheet}
    (h : sheet.isWritable) : ofJson? float? (sheet.toJson float) = some sheet := by
  simp [ofJson?, toJson, Json.only?, Json.items?, Node.listOfJson?_eq_mapM,
    Node.mapM_ofJson?_listToJson hexact h false]

end RoundTrip

end Stylesheet
