import Stylesheet.Proofs.TreeRoundTrip

/-!
Other writings of one tree. A part of a JSON tree has a role in the sheet, and its role says which
names an object knows and what stands under each of them; an array in the same role has its items
under those names in order. Two writings differ by steps: the fields of an object change places, an
object gains a field under a name that it does not know, or such a change happens further down. What
is read stays the same, step by step, whatever stands in the fields that are passed over.

There is one exception. An object may stand for a name, as `add` is also written `{"add": null}`;
it has that one field, and with another one it is not read.
-/

namespace Stylesheet

/-- What a part of a JSON tree is to the sheet that is read from it. -/
inductive Role where
  | sheet
  /-- A node of the sheet itself, or one inside another node. -/
  | node (inside : Bool)
  | term
  | expression
  | param
  /-- The expression that stands in for an argument, or `null`. -/
  | standIn
  | value
  /-- A name that stands for itself, of an operator or of the kind of a value. -/
  | name
  /-- What stands under such a name in an object. -/
  | nothing
  /-- The content of a value with a unit. -/
  | dimension
  | color
  /-- An array of parts of one role. -/
  | list (item : Role)
  /-- A number, a word or a string, or what stands in a field that is passed over. -/
  | plain

namespace Role

/-- The names that a term of a kind knows beside its kind and line, with the roles of what stands
there. -/
def termParts : String → List (String × Role)
  | "constant" => [("value", .value)]
  | "variable" => [("name", .plain)]
  | "operator" => [("op", .name)]
  | "call" => [("name", .plain), ("argc", .plain)]
  | _ => [("nodes", .list .term)]

/-- The same for a node. -/
def nodeParts : String → List (String × Role)
  | "rule" => [("selectors", .list .plain), ("children", .list (.node true))]
  | "declaration" => [("property", .plain), ("values", .list .term)]
  | "variable" => [("name", .plain), ("value", .expression)]
  | _ => [("name", .plain), ("args", .list .param), ("body", .expression)]

/-- The role of the content of a value of a kind. -/
def ofContent : String → Role
  | "dimension" => .dimension
  | "color" => .color
  | _ => .plain

/-- The names that an object knows in a role, with the roles of what stands there. An object whose
kind cannot be read knows no names but those that all kinds share. -/
def parts : Role → List (String × Json) → List (String × Role)
  | .sheet, _ => [("children", .list (.node false))]
  | .node inside, fields =>
    ("type", .plain) :: ("line", .plain) ::
      ((Json.kindOf? Node.kinds inside fields).elim [] nodeParts)
  | .term, fields =>
    ("type", .plain) :: ("line", .plain) ::
      ((Json.kindOf? Term.kinds true fields).elim [] termParts)
  | .expression, _ | .standIn, _ => [("nodes", .list .term), ("line", .plain)]
  | .param, _ => [("name", .plain), ("default", .standIn)]
  | .value, fields =>
    [("kind", .name),
      ("value", (((Json.only? fields "kind").bind Json.name?).elim .plain ofContent))]
  | .name, fields => fields.map fun field => (field.1, .nothing)
  | .dimension, _ => [("value", .plain), ("unit", .plain)]
  | .color, _ => [("r", .plain), ("g", .plain), ("b", .plain)]
  | .nothing, _ | .list _, _ | .plain, _ => []

/-- The role of what stands under a name, if the object knows it. -/
def part? (role : Role) (fields : List (String × Json)) (name : String) : Option Role :=
  (role.parts fields).lookup name

/-- The fields that the items of an array stand for, in a role that can be written so. -/
def arrayFields? : Role → List Json → Option (List (String × Json))
  | .sheet, items => (Json.array items).record? Sheet.fieldNames
  | .node inside, items =>
    (Json.array items).tagged? (Json.choice? Node.kinds inside) Node.fieldNames
  | .term, items => (Json.array items).tagged? (Json.choice? Term.kinds true) Term.fieldNames
  | .expression, items | .standIn, items => (Json.array items).record? Expr.fieldNames
  | .param, items => (Json.array items).record? Param.fieldNames
  | .value, items => (Json.array items).record? Value.fieldNames
  | .color, items => (Json.array items).record? Color.fieldNames
  | _, _ => none

/-- The role of the item at a position of an array: that of the field which it stands for. -/
def item (role : Role) (items : List Json) (position : Nat) : Role :=
  match role with
  | .list item => item
  | _ => ((role.arrayFields? items).bind fun fields =>
      fields[position]?.bind fun field => role.part? fields field.1).getD .plain

/-- Does an object in the role pass over a field that it does not know? -/
def passesOver : Role → Bool
  | .name | .nothing => false
  | _ => true

end Role

/-- One change to the writing of a part of a JSON tree in a role. Only objects in some of the roles
may gain fields. -/
inductive Rearranges (gains : Role → Bool) : Role → Json → Json → Prop
  /-- The fields of an object change places. -/
  | reorder {role : Role} {fields fields' : List (String × Json)} (h : fields.Perm fields') :
    Rearranges gains role (.object fields) (.object fields')
  /-- An object gains a field under a name that it does not know. -/
  | extra {role : Role} {fields : List (String × Json)} {name : String} (value : Json)
    (hgains : gains role) (h : role.part? fields name = none) :
    Rearranges gains role (.object fields) (.object ((name, value) :: fields))
  /-- A change inside a field. -/
  | field {role : Role} {name : String} {value value' : Json} (left right : List (String × Json))
    (h : Rearranges gains ((role.part? (left ++ (name, value) :: right) name).getD .plain) value
      value') :
    Rearranges gains role (.object (left ++ (name, value) :: right))
      (.object (left ++ (name, value') :: right))
  /-- A change inside an item of an array. -/
  | item {role : Role} {value value' : Json} (left right : List Json)
    (h : Rearranges gains (role.item (left ++ value :: right) left.length) value value') :
    Rearranges gains role (.array (left ++ value :: right)) (.array (left ++ value' :: right))

/-- What the first one reads, the second one reads too. -/
def Retains {α : Type} (first second : Option α) : Prop :=
  ∀ x, first = some x → second = some x

namespace Retains

variable {α β : Type}

theorem refl (first : Option α) : Retains first first := fun _ h => h

theorem trans {first second third : Option α} (h : Retains first second)
    (h' : Retains second third) : Retains first third := fun x hx => h' x (h x hx)

/-- Nothing is lost where nothing is read. -/
theorem of_none {first second : Option α} (h : first = none) : Retains first second := by
  intro x hx
  rw [h] at hx
  cases hx

/-- Readers that retain what they read can be chained. -/
theorem bind {first second : Option α} {f g : α → Option β} (h : Retains first second)
    (hrest : ∀ x, Retains (f x) (g x)) : Retains (first >>= f) (second >>= g) := by
  intro y hy
  obtain ⟨x, hx, hfx⟩ := Option.bind_eq_some_iff.mp hy
  exact Option.bind_eq_some_iff.mpr ⟨x, h x hx, hrest x y hfx⟩

theorem map {first second : Option α} (f : α → β) (h : Retains first second) :
    Retains (first.map f) (second.map f) := by
  intro y hy
  obtain ⟨x, hx, rfl⟩ := Option.map_eq_some_iff.mp hy
  exact Option.map_eq_some_iff.mpr ⟨x, h x hx, rfl⟩

theorem mapM {read : Json → Option α} {items items' : List Json}
    (h : List.Forall₂ (fun j j' => Retains (read j) (read j')) items items') :
    Retains (items.mapM read) (items'.mapM read) := by
  induction h with
  | nil => exact refl _
  | cons hfirst _ ih =>
      rw [List.mapM_cons, List.mapM_cons]
      exact hfirst.bind fun x => ih.bind fun rest => refl _

end Retains

/-- Is it an array or an object? -/
def Json.isContainer : Json → Bool
  | .array _ | .object _ => true
  | _ => false

namespace Role

/-- What is read from the first writing in a role is read from the second one too. -/
def Keeps : Role → Json → Json → Prop
  | .sheet, j, j' => Retains (Sheet.ofJson? Json.float? j) (Sheet.ofJson? Json.float? j')
  | .node inside, j, j' =>
    Retains (Node.ofJson? Json.float? inside j) (Node.ofJson? Json.float? inside j')
  | .term, j, j' => Retains (Term.ofJson? Json.float? true j) (Term.ofJson? Json.float? true j')
  | .expression, j, j' =>
    Retains (Expr.ofJson? Json.float? true j) (Expr.ofJson? Json.float? true j')
  | .param, j, j' => Retains (Param.ofJson? Json.float? true j) (Param.ofJson? Json.float? true j')
  | .standIn, j, j' =>
    Retains (Param.defaultOfJson? Json.float? true (some j))
      (Param.defaultOfJson? Json.float? true (some j'))
  | .value, j, j' => Retains (Value.ofJson? Json.float? j) (Value.ofJson? Json.float? j')
  | .name, j, j' => Retains j.name? j'.name?
  | .nothing, j, j' => j.isNothing → j'.isNothing
  | .dimension, j, j' =>
    Retains (Value.ofContent? Json.float? "dimension" j)
      (Value.ofContent? Json.float? "dimension" j')
  | .color, j, j' => Retains (Color.ofJson? j) (Color.ofJson? j')
  | .list item, j, j' =>
    ∀ items, j = .array items → ∃ items', j' = .array items' ∧ List.Forall₂ item.Keeps items items'
  | .plain, j, j' => j.isContainer ∨ j' = j

theorem Keeps.refl (role : Role) (j : Json) : role.Keeps j j := by
  induction role generalizing j with
  | list item ih => exact fun items h => ⟨items, h, List.forall₂_same.mpr fun value _ => ih value⟩
  | plain => exact .inr rfl
  | nothing => exact id
  | _ => exact Retains.refl _

/-- A reader that takes neither arrays nor objects reads a plain part as before. -/
theorem Keeps.read {α : Type} {read : Json → Option α} {j j' : Json} (h : Role.plain.Keeps j j')
    (harray : ∀ items, read (.array items) = none)
    (hobject : ∀ fields, read (.object fields) = none) :
    Retains (read j) (read j') := by
  rcases h with h | rfl
  · cases j with
    | array items => exact Retains.of_none (harray items)
    | object fields => exact Retains.of_none (hobject fields)
    | _ => cases h
  · exact Retains.refl _

end Role

namespace Json

/-- Under every name of the list, the second object has what the first one has, with the same
meaning. -/
def FieldsKeep (parts : List (String × Role)) (fields fields' : List (String × Json)) : Prop :=
  ∀ name role, parts.lookup name = some role → ∀ found, atMostOne? fields name = some found →
    ∃ found', atMostOne? fields' name = some found' ∧ Option.Rel role.Keeps found found'

/-- A field that is there exactly once is one that is not repeated and not missing. -/
theorem only?_eq_some_iff {fields : List (String × Json)} {name : String} {value : Json} :
    only? fields name = some value ↔ atMostOne? fields name = some (some value) := by
  unfold only? atMostOne?
  generalize fields.filter (fun field => field.1 == name) = found
  match found with
  | [] => simp
  | [_] => simp
  | _ :: _ :: _ => simp

/-- What a name stands for does not depend on the order of the fields. -/
theorem atMostOne?_perm {fields fields' : List (String × Json)} (h : fields.Perm fields')
    (name : String) : atMostOne? fields name = atMostOne? fields' name := by
  have hfound := h.filter fun field => field.1 == name
  unfold atMostOne?
  generalize fields.filter (fun field => field.1 == name) = found at *
  generalize fields'.filter (fun field => field.1 == name) = found' at *
  match found, hfound with
  | [], hfound => rw [List.nil_perm.mp hfound]
  | [field], hfound => rw [List.singleton_perm.mp hfound]
  | first :: second :: rest, hfound =>
      match found', hfound.length_eq with
      | _ :: _ :: _, _ => rfl

theorem atMostOne?_cons_of_ne {name other : String} (h : other ≠ name) (value : Json)
    (fields : List (String × Json)) :
    atMostOne? ((other, value) :: fields) name = atMostOne? fields name := by
  unfold atMostOne?
  rw [List.filter_cons_of_neg (by simpa using h)]

/-- Fields that change places keep what stands under every name. -/
theorem keep_of_reorder (parts : List (String × Role)) {fields fields' : List (String × Json)}
    (h : fields.Perm fields') : FieldsKeep parts fields fields' := by
  intro name role _ found hfound
  refine ⟨found, (atMostOne?_perm h name).symm.trans hfound, ?_⟩
  cases found with
  | none => exact .none
  | some value => exact .some (Role.Keeps.refl role value)

/-- A field under another name than the known ones changes none of them. -/
theorem keep_of_extra {parts : List (String × Role)} {name : String} (h : parts.lookup name = none)
    (value : Json) (fields : List (String × Json)) :
    FieldsKeep parts fields ((name, value) :: fields) := by
  intro known role hknown found hfound
  have hne : name ≠ known := by
    rintro rfl
    rw [h] at hknown
    cases hknown
  obtain ⟨found', hfound', hrel⟩ :=
    keep_of_reorder parts (.refl fields) known role hknown found hfound
  exact ⟨found', (atMostOne?_cons_of_ne hne value fields).trans hfound', hrel⟩

/-- A change inside one field is seen under its name only, as a change that keeps its meaning. -/
theorem keep_of_field {parts : List (String × Role)} {name : String} {value value' : Json}
    (left right : List (String × Json)) (h : ((parts.lookup name).getD .plain).Keeps value value') :
    FieldsKeep parts (left ++ (name, value) :: right) (left ++ (name, value') :: right) := by
  -- Both objects are looked at with the changed field in front, since the order does not matter.
  have hfront (v : Json) : (left ++ (name, v) :: right).Perm ((name, v) :: (left ++ right)) :=
    List.perm_middle
  intro known role hknown found hfound
  rw [atMostOne?_perm (hfront value)] at hfound
  rw [atMostOne?_perm (hfront value')]
  by_cases hname : name = known
  · subst hname
    rw [hknown] at h
    unfold atMostOne? at hfound ⊢
    rw [List.filter_cons_of_pos (by simp)] at hfound ⊢
    cases hothers : (left ++ right).filter fun field => field.1 == name with
    | nil =>
        simp only [hothers, Option.some.injEq] at hfound ⊢
        subst hfound
        exact ⟨some value', rfl, .some h⟩
    | cons _ _ =>
        rw [hothers] at hfound
        cases hfound
  · rw [atMostOne?_cons_of_ne hname] at hfound ⊢
    exact keep_of_reorder parts (.refl (left ++ right)) known role hknown found hfound

namespace FieldsKeep

variable {parts : List (String × Role)} {fields fields' : List (String × Json)}

/-- A known field that is there stays there, with the same meaning. -/
theorem only (h : FieldsKeep parts fields fields') {name : String} {role : Role}
    (hpart : parts.lookup name = some role) {value : Json}
    (hvalue : only? fields name = some value) :
    ∃ value', only? fields' name = some value' ∧ role.Keeps value value' := by
  obtain ⟨found', hfound', hrel⟩ := h name role hpart _ (only?_eq_some_iff.mp hvalue)
  cases hrel with
  | some hkeeps => exact ⟨_, only?_eq_some_iff.mpr hfound', hkeeps⟩

/-- Reading goes on as before once a field is read. -/
theorem read {α β : Type} {read : Json → Option α} {f g : α → Option β}
    (h : FieldsKeep parts fields fields') {name : String} {role : Role}
    (hpart : parts.lookup name = some role)
    (hread : ∀ value value', role.Keeps value value' → Retains (read value) (read value'))
    (hrest : ∀ x, Retains (f x) (g x)) :
    Retains (only? fields name >>= fun value => read value >>= f)
      (only? fields' name >>= fun value => read value >>= g) := by
  intro y hy
  obtain ⟨value, hvalue, hy⟩ := Option.bind_eq_some_iff.mp hy
  obtain ⟨value', hvalue', hkeeps⟩ := h.only hpart hvalue
  exact Option.bind_eq_some_iff.mpr
    ⟨value', hvalue', (hread value value' hkeeps).bind hrest y hy⟩

/-- The same for a field with an array of parts. -/
theorem readAll {α β : Type} {read : Json → Option α} {f g : List α → Option β}
    (h : FieldsKeep parts fields fields') {name : String} {role : Role}
    (hpart : parts.lookup name = some (.list role))
    (hread : ∀ value value', role.Keeps value value' → Retains (read value) (read value'))
    (hrest : ∀ xs, Retains (f xs) (g xs)) :
    Retains
      (only? fields name >>= fun value => value.items? >>= fun items => items.mapM read >>= f)
      (only? fields' name >>=
        fun value => value.items? >>= fun items => items.mapM read >>= g) := by
  intro y hy
  obtain ⟨value, hvalue, hy⟩ := Option.bind_eq_some_iff.mp hy
  obtain ⟨items, hitems, hy⟩ := Option.bind_eq_some_iff.mp hy
  obtain ⟨value', hvalue', hkeeps⟩ := h.only hpart hvalue
  cases value with
  | array items =>
      obtain rfl := Option.some.inj hitems
      obtain ⟨items', rfl, hall⟩ := hkeeps items rfl
      refine Option.bind_eq_some_iff.mpr ⟨_, hvalue', Option.bind_eq_some_iff.mpr ⟨items', rfl, ?_⟩⟩
      exact (Retains.mapM (hall.imp fun {value value'} => hread value value')).bind hrest y hy
  | _ => cases hitems

end FieldsKeep

theorem mem_of_choice? {names : List String} {byPosition : Bool} {j : Json} {name : String}
    (h : j.choice? names byPosition = some name) : name ∈ names := by
  unfold choice? at h
  split at h
  · split at h
    · next s hmem =>
        obtain rfl := Option.some.inj h
        exact List.contains_iff_mem.mp hmem
    · cases h
  · split at h
    · exact List.mem_of_getElem? h
    · cases h
  · cases h

theorem mem_of_kindOf? {kinds : List String} {inside : Bool} {fields : List (String × Json)}
    {kind : String} (h : kindOf? kinds inside fields = some kind) : kind ∈ kinds := by
  obtain ⟨_, _, hchoice⟩ := Option.bind_eq_some_iff.mp h
  exact mem_of_choice? hchoice

/-- The kind stays the same, as no change touches a plain part that is read. -/
theorem FieldsKeep.kindOf? {parts : List (String × Role)} {fields fields' : List (String × Json)}
    (h : FieldsKeep parts fields fields') (hpart : parts.lookup "type" = some .plain)
    {kinds : List String} {inside : Bool} {kind : String}
    (hkind : kindOf? kinds inside fields = some kind) :
    kindOf? kinds inside fields' = some kind := by
  obtain ⟨tag, htag, hchoice⟩ := Option.bind_eq_some_iff.mp hkind
  obtain ⟨tag', htag', hkeeps⟩ := h.only hpart htag
  exact Option.bind_eq_some_iff.mpr
    ⟨tag', htag', hkeeps.read (fun _ => rfl) (fun _ => rfl) kind hchoice⟩

end Json

namespace Role

theorem Keeps.string? (j j' : Json) (h : plain.Keeps j j') : Retains j.string? j'.string? :=
  h.read (fun _ => rfl) (fun _ => rfl)

theorem Keeps.word? (j j' : Json) (h : plain.Keeps j j') : Retains j.word? j'.word? :=
  h.read (fun _ => rfl) (fun _ => rfl)

theorem Keeps.byte? (j j' : Json) (h : plain.Keeps j j') : Retains j.byte? j'.byte? :=
  h.read (fun _ => rfl) (fun _ => rfl)

theorem Keeps.float? (j j' : Json) (h : plain.Keeps j j') : Retains j.float? j'.float? :=
  h.read (fun _ => rfl) (fun _ => rfl)

theorem Keeps.bool? (j j' : Json) (h : plain.Keeps j j') : Retains j.bool? j'.bool? :=
  h.read (fun _ => rfl) (fun _ => rfl)

/-- The content of a value is read according to its kind. -/
theorem Keeps.ofContent? (kind : String) (j j' : Json) (h : (ofContent kind).Keeps j j') :
    Retains (Value.ofContent? Json.float? kind j) (Value.ofContent? Json.float? kind j') := by
  unfold Value.ofContent?
  split
  · exact (Keeps.float? j j' h).map _
  · exact h
  · exact Retains.map _ h
  · exact (Keeps.string? j j' h).map _
  · exact (Keeps.string? j j' h).map _
  · exact (Keeps.bool? j j' h).map _
  · exact Retains.refl _

section Objects

variable {fields fields' : List (String × Json)}

theorem keeps_color (h : Json.FieldsKeep (parts .color fields) fields fields') :
    color.Keeps (.object fields) (.object fields') :=
  h.read rfl Keeps.byte? fun _ => h.read rfl Keeps.byte? fun _ => h.read rfl Keeps.byte? fun _ =>
    Retains.refl _

theorem keeps_dimension (h : Json.FieldsKeep (parts .dimension fields) fields fields') :
    dimension.Keeps (.object fields) (.object fields') :=
  h.read rfl Keeps.float? fun _ => h.read rfl Keeps.string? fun _ => Retains.refl _

/-- The kind is read first, since it decides the role of the content. -/
theorem keeps_value (h : Json.FieldsKeep (parts .value fields) fields fields') :
    value.Keeps (.object fields) (.object fields') := by
  intro v hv
  obtain ⟨tag, htag, hv⟩ := Option.bind_eq_some_iff.mp hv
  obtain ⟨kind, hkind, hv⟩ := Option.bind_eq_some_iff.mp hv
  obtain ⟨content, hcontent, hv⟩ := Option.bind_eq_some_iff.mp hv
  have hpart : (parts .value fields).lookup "value" = some (ofContent kind) := by
    simp only [parts, htag, Option.bind_some, hkind, Option.elim_some]
    rfl
  have htagPart : (parts .value fields).lookup "kind" = some name := rfl
  obtain ⟨tag', htag', hkeeps⟩ := h.only htagPart htag
  obtain ⟨content', hcontent', hkeeps'⟩ := h.only hpart hcontent
  have hkind' : tag'.name? = some kind := hkeeps kind hkind
  have hv' := Keeps.ofContent? kind content content' hkeeps' v hv
  simp only [Value.ofJson?, Json.record?_object, Option.bind_eq_bind, Option.bind_some, htag',
    hkind', hcontent', hv']

theorem keeps_term (h : Json.FieldsKeep (parts .term fields) fields fields') :
    term.Keeps (.object fields) (.object fields') := by
  change Retains (Term.ofJson? Json.float? true _) (Term.ofJson? Json.float? true _)
  rw [Term.ofJson?_eq, Term.ofJson?_eq]
  simp only [Json.tagged?_object, Option.bind_eq_bind, Option.bind_some]
  -- The kind is read first: it decides which other names the object knows.
  cases hkind : Json.kindOf? Term.kinds true fields with
  | none => exact Retains.of_none rfl
  | some kind =>
      rw [h.kindOf? rfl hkind]
      simp only [parts, hkind, Option.elim_some] at h
      have hmem := Json.mem_of_kindOf? hkind
      refine h.read rfl Keeps.word? fun line => ?_
      simp only [Term.kinds, List.mem_cons, List.not_mem_nil, or_false] at hmem
      rcases hmem with rfl | rfl | rfl | rfl | rfl
      · exact h.read rfl (fun _ _ hkeeps => hkeeps) fun _ => Retains.refl _
      · exact h.read rfl Keeps.string? fun _ => Retains.refl _
      · exact h.read rfl (fun _ _ hkeeps => hkeeps) fun _ => Retains.refl _
      · exact h.read rfl Keeps.string? fun _ => h.read rfl Keeps.word? fun _ => Retains.refl _
      · exact h.readAll rfl (fun _ _ hkeeps => hkeeps) fun _ => Retains.refl _

theorem keeps_expression (h : Json.FieldsKeep (parts .expression fields) fields fields') :
    expression.Keeps (.object fields) (.object fields') := by
  change Retains (Expr.ofJson? Json.float? true _) (Expr.ofJson? Json.float? true _)
  simp only [Expr.ofJson?, Term.listOfJson?_eq_mapM]
  refine h.readAll rfl (fun _ _ hkeeps => hkeeps) fun _ => ?_
  exact h.read rfl Keeps.word? fun _ => Retains.refl _

theorem keeps_standIn (h : Json.FieldsKeep (parts .standIn fields) fields fields') :
    standIn.Keeps (.object fields) (.object fields') :=
  Retains.map some (keeps_expression h)

/-- A default may be missing, so that its field is looked up by itself. -/
theorem keeps_param (h : Json.FieldsKeep (parts .param fields) fields fields') :
    param.Keeps (.object fields) (.object fields') := by
  refine h.read rfl Keeps.string? fun name p hp => ?_
  obtain ⟨found, hfound, hp⟩ := Option.bind_eq_some_iff.mp hp
  obtain ⟨found', hfound', hrel⟩ := h "default" .standIn rfl found hfound
  refine Option.bind_eq_some_iff.mpr ⟨found', hfound', ?_⟩
  cases hrel with
  | none => exact hp
  | some hkeeps => exact hkeeps.bind (fun _ => Retains.refl _) p hp

theorem keeps_node {inside : Bool}
    (h : Json.FieldsKeep (parts (.node inside) fields) fields fields') :
    (node inside).Keeps (.object fields) (.object fields') := by
  change Retains (Node.ofJson? Json.float? inside _) (Node.ofJson? Json.float? inside _)
  rw [Node.ofJson?_eq, Node.ofJson?_eq]
  simp only [Json.tagged?_object, Option.bind_eq_bind, Option.bind_some]
  cases hkind : Json.kindOf? Node.kinds inside fields with
  | none => exact Retains.of_none rfl
  | some kind =>
      rw [h.kindOf? rfl hkind]
      simp only [parts, hkind, Option.elim_some] at h
      have hmem := Json.mem_of_kindOf? hkind
      simp only [Node.kinds, List.mem_cons, List.not_mem_nil, or_false] at hmem
      rcases hmem with rfl | rfl | rfl | rfl
      · refine h.readAll rfl Keeps.string? fun _ => ?_
        refine h.readAll rfl (fun _ _ hkeeps => hkeeps) fun _ => ?_
        exact h.read rfl Keeps.word? fun _ => Retains.refl _
      · refine h.read rfl Keeps.string? fun _ => ?_
        refine h.readAll rfl (fun _ _ hkeeps => hkeeps) fun _ => ?_
        exact h.read rfl Keeps.word? fun _ => Retains.refl _
      · refine h.read rfl Keeps.string? fun _ => ?_
        refine h.read rfl (fun _ _ hkeeps => hkeeps) fun _ => ?_
        exact h.read rfl Keeps.word? fun _ => Retains.refl _
      · have hdefinition : Retains (FunctionDef.ofFields? Json.float? true fields)
            (FunctionDef.ofFields? Json.float? true fields') := by
          refine h.read rfl Keeps.string? fun _ => ?_
          refine h.readAll rfl (fun _ _ hkeeps => hkeeps) fun _ => ?_
          refine h.read rfl (fun _ _ hkeeps => hkeeps) fun _ => ?_
          exact h.read rfl Keeps.word? fun _ => Retains.refl _
        exact hdefinition.bind fun _ => Retains.refl _

theorem keeps_sheet (h : Json.FieldsKeep (parts .sheet fields) fields fields') :
    sheet.Keeps (.object fields) (.object fields') := by
  change Retains (Sheet.ofJson? Json.float? _) (Sheet.ofJson? Json.float? _)
  simp only [Sheet.ofJson?, Node.listOfJson?_eq_mapM]
  exact h.readAll rfl (fun _ _ hkeeps => hkeeps) fun _ => Retains.refl _

/-- In every role whose objects pass over unknown fields, what is read depends on the known fields
only. -/
theorem keeps_object {role : Role} (hrole : role.passesOver)
    (h : Json.FieldsKeep (role.parts fields) fields fields') :
    role.Keeps (.object fields) (.object fields') := by
  cases role with
  | sheet => exact keeps_sheet h
  | node inside => exact keeps_node h
  | term => exact keeps_term h
  | expression => exact keeps_expression h
  | param => exact keeps_param h
  | standIn => exact keeps_standIn h
  | value => exact keeps_value h
  | name | nothing => cases hrole
  | dimension => exact keeps_dimension h
  | color => exact keeps_color h
  | list item => exact fun items hitems => nomatch hitems
  | plain => exact .inl rfl

/-- An object that stands for a name has one field, whose place cannot change. -/
theorem keeps_of_reorder {role : Role} (h : fields.Perm fields') :
    role.Keeps (.object fields) (.object fields') := by
  cases hrole : role.passesOver with
  | true => exact keeps_object hrole (Json.keep_of_reorder _ h)
  | false =>
      cases role with
      | name =>
          match fields, h with
          | [], _ => exact Retains.of_none rfl
          | [_], h =>
              rw [List.singleton_perm.mp h]
              exact Keeps.refl _ _
          | _ :: _ :: _, _ => exact Retains.of_none rfl
      | nothing =>
          match fields, h with
          | [], h => rw [List.nil_perm.mp h]; exact Keeps.refl _ _
          | _ :: _, _ => exact nofun
      | _ => cases hrole

/-- A change inside a field is a change to what the object is read as. Where the object stands for a
name, nothing can stand under it. -/
theorem keeps_of_field {role : Role} {name : String} {value value' : Json}
    (left right : List (String × Json))
    (h : ((role.part? (left ++ (name, value) :: right) name).getD .plain).Keeps value value') :
    role.Keeps (.object (left ++ (name, value) :: right))
      (.object (left ++ (name, value') :: right)) := by
  cases hrole : role.passesOver with
  | true => exact keeps_object hrole (Json.keep_of_field left right h)
  | false =>
      cases role with
      | name =>
          match left, right, h with
          | [], [], h =>
              have hnothing : nothing.Keeps value value' := by simpa [part?, parts] using h
              intro found hfound
              simp only [List.nil_append, Json.name?] at hfound ⊢
              split at hfound
              · next hvalue => rwa [if_pos (hnothing hvalue)]
              · cases hfound
          | [], _ :: _, _ => exact Retains.of_none rfl
          | _ :: [], _, _ => exact Retains.of_none rfl
          | _ :: _ :: _, _, _ => exact Retains.of_none rfl
      | nothing => cases left <;> exact nofun
      | _ => cases hrole

end Objects

end Role

namespace Json

/-- With enough names, a change of one item changes what stands under one of them. -/
theorem exists_zip_middle {names : List String} {left : List Json}
    (h : left.length < names.length) (right : List Json) :
    ∃ before name after, before.length = left.length ∧
      ∀ value, names.zip (left ++ value :: right) = before ++ (name, value) :: after := by
  induction left generalizing names with
  | nil =>
      cases names with
      | nil => cases h
      | cons name names => exact ⟨[], name, names.zip right, rfl, fun _ => rfl⟩
  | cons item left ih =>
      cases names with
      | nil => cases h
      | cons first names =>
          obtain ⟨before, name, after, hlength, hzip⟩ := ih (Nat.lt_of_succ_lt_succ h)
          refine ⟨(first, item) :: before, name, after, by simp [hlength], fun value => ?_⟩
          rw [List.cons_append, List.zip_cons_cons, hzip, List.cons_append]

section Middle

variable {left right : List Json} {value : Json} {fields : List (String × Json)}

/-- A change of one item of an array is the change of one field of its record. -/
theorem record?_middle {names : List String}
    (h : (array (left ++ value :: right)).record? names = some fields) (value' : Json) :
    ∃ before name after, before.length = left.length ∧
      fields = before ++ (name, value) :: after ∧
      (array (left ++ value' :: right)).record? names =
        some (before ++ (name, value') :: after) := by
  simp only [record?, List.length_append, List.length_cons] at h ⊢
  split at h
  · next hlength =>
      have hleft : left.length < names.length := by omega
      obtain ⟨before, name, after, hbefore, hzip⟩ := exists_zip_middle hleft right
      refine ⟨before, name, after, hbefore, ?_, ?_⟩
      · rw [← hzip]
        exact (Option.some.inj h).symm
      · rw [if_pos hlength, hzip]
  · cases h

variable {kind? : Json → Option String} {names : String → List String}

theorem tagged?_cons {tag : Json} {items : List Json}
    (h : (array (tag :: items)).tagged? kind? names = some fields) :
    ∃ kind others, kind? tag = some kind ∧ (array items).record? (names kind) = some others ∧
      fields = ("type", tag) :: others := by
  obtain ⟨kind, hkind, h⟩ := Option.bind_eq_some_iff.mp h
  obtain ⟨others, hothers, h⟩ := Option.bind_eq_some_iff.mp h
  exact ⟨kind, others, hkind, hothers, (Option.some.inj h).symm⟩

/-- The same for a record with a tag, which is its first item. -/
theorem tagged?_middle (h : (array (left ++ value :: right)).tagged? kind? names = some fields)
    {value' : Json} (htag : left = [] → Retains (kind? value) (kind? value')) :
    ∃ before name after, before.length = left.length ∧
      fields = before ++ (name, value) :: after ∧
      (array (left ++ value' :: right)).tagged? kind? names =
        some (before ++ (name, value') :: after) := by
  cases left with
  | nil =>
      obtain ⟨kind, others, hkind, hothers, rfl⟩ := tagged?_cons h
      refine ⟨[], "type", others, rfl, rfl, ?_⟩
      simp [tagged?, htag rfl kind hkind, hothers]
  | cons tag left =>
      obtain ⟨kind, others, hkind, hothers, rfl⟩ := tagged?_cons h
      obtain ⟨before, name, after, hlength, rfl, hrecord⟩ := record?_middle hothers value'
      refine ⟨("type", tag) :: before, name, after, by simp [hlength], rfl, ?_⟩
      simp [tagged?, hkind, hrecord]

end Middle

end Json

namespace Role

section Arrays

variable {role : Role} {items items' : List Json} {fields fields' : List (String × Json)}

/-- An array is read as the object of the fields that its items stand for. -/
theorem keeps_of_arrayFields? (h : role.arrayFields? items = some fields)
    (h' : role.arrayFields? items' = some fields')
    (hkeeps : role.Keeps (.object fields) (.object fields')) :
    role.Keeps (.array items) (.array items') := by
  cases role <;> simp only [arrayFields?, reduceCtorEq] at h h'
  all_goals
    simpa only [Keeps, Sheet.ofJson?, Node.ofJson?_eq, Term.ofJson?_eq, Expr.ofJson?, Param.ofJson?,
      Param.defaultOfJson?, Value.ofJson?, Color.ofJson?, Json.record?_object, Json.tagged?_object,
      h, h'] using hkeeps

/-- An array that stands for no fields is not read, but for a list. -/
theorem keeps_of_arrayFields?_none (h : role.arrayFields? items = none)
    (hrole : ∀ item, role ≠ .list item) (j : Json) : role.Keeps (.array items) j := by
  cases role with
  | list item => exact absurd rfl (hrole item)
  | plain => exact .inl rfl
  | nothing => exact nofun
  | name | dimension => exact Retains.of_none rfl
  | _ =>
      simp only [arrayFields?] at h
      refine Retains.of_none ?_
      simp [Sheet.ofJson?, Node.ofJson?_eq, Term.ofJson?_eq, Expr.ofJson?, Param.ofJson?,
        Param.defaultOfJson?, Value.ofJson?, Color.ofJson?, h]

theorem item_of_arrayFields? {before after : List (String × Json)} {name : String} {value : Json}
    (h : role.arrayFields? items = some (before ++ (name, value) :: after)) :
    role.item items before.length =
      (role.part? (before ++ (name, value) :: after) name).getD .plain := by
  cases role with
  | list item => cases h
  | _ => simp [item, h]

/-- A change inside an item is a change inside the field that it stands for. Where the item is the
tag of a record, the change does not touch it. -/
theorem arrayFields?_middle {left right : List Json} {value value' : Json}
    (h : role.arrayFields? (left ++ value :: right) = some fields)
    (hkeeps : (role.item (left ++ value :: right) left.length).Keeps value value') :
    ∃ before name after, before.length = left.length ∧
      fields = before ++ (name, value) :: after ∧
      role.arrayFields? (left ++ value' :: right) = some (before ++ (name, value') :: after) := by
  cases role with
  | node _ | term =>
      refine Json.tagged?_middle h ?_
      rintro rfl
      obtain ⟨kind, others, -, -, rfl⟩ := Json.tagged?_cons h
      have htag : item _ (value :: right) 0 = plain := @item_of_arrayFields? _ _ [] others _ _ h
      exact Keeps.read (htag ▸ hkeeps) (fun _ => rfl) (fun _ => rfl)
  | sheet | expression | param | standIn | value | color => exact Json.record?_middle h value'
  | name | nothing | dimension | list | plain => cases h

end Arrays

/-- A change inside an item keeps what the array is read as. -/
theorem keeps_of_item {role : Role} {value value' : Json} (left right : List Json)
    (h : (role.item (left ++ value :: right) left.length).Keeps value value') :
    role.Keeps (.array (left ++ value :: right)) (.array (left ++ value' :: right)) := by
  by_cases hlist : ∃ item, role = .list item
  · obtain ⟨item, rfl⟩ := hlist
    intro items hitems
    obtain rfl := Json.array.inj hitems
    have hsame (items : List Json) : List.Forall₂ item.Keeps items items :=
      List.forall₂_same.mpr fun value _ => Keeps.refl item value
    exact ⟨_, rfl, List.rel_append (hsame left) (.cons h (hsame right))⟩
  · cases hfields : role.arrayFields? (left ++ value :: right) with
    | none => exact keeps_of_arrayFields?_none hfields (fun item hrole => hlist ⟨item, hrole⟩) _
    | some fields =>
        obtain ⟨before, name, after, hlength, rfl, hfields'⟩ := arrayFields?_middle hfields h
        rw [← hlength, item_of_arrayFields? hfields] at h
        exact keeps_of_arrayFields? hfields hfields' (keeps_of_field before after h)

end Role

/-- A change to the writing keeps what is read from it. -/
theorem Rearranges.keeps {role : Role} {j j' : Json} (h : Rearranges Role.passesOver role j j') :
    role.Keeps j j' := by
  induction h with
  | reorder hperm => exact Role.keeps_of_reorder hperm
  | extra value hpasses hunknown =>
      exact Role.keeps_object hpasses (Json.keep_of_extra hunknown value _)
  | field left right _ ih => exact Role.keeps_of_field left right ih
  | item left right _ ih => exact Role.keeps_of_item left right ih

end Stylesheet
