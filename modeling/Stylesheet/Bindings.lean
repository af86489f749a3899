/-!
Names bound to things. A name has at most one binding, and binding it again replaces the first.
-/

namespace Stylesheet

/-- Bindings of names, the latest first. -/
structure Bindings (α : Type) where
  entries : List (String × α) := []

namespace Bindings

def empty {α : Type} : Bindings α := ⟨[]⟩

def find? {α : Type} (bindings : Bindings α) (name : String) : Option α :=
  bindings.entries.lookup name

def contains {α : Type} (bindings : Bindings α) (name : String) : Bool :=
  (bindings.find? name).isSome

/-- Binds a name, in place of what it was bound to. -/
def insert {α : Type} (bindings : Bindings α) (name : String) (a : α) : Bindings α :=
  ⟨(name, a) :: bindings.entries.filter fun entry => entry.1 != name⟩

/-- The bindings of a list of pairs, of which a later one replaces an earlier one. -/
def ofList {α : Type} (pairs : List (String × α)) : Bindings α :=
  pairs.foldl (fun bindings (name, a) => bindings.insert name a) empty

@[simp]
theorem find?_empty {α : Type} (name : String) : (empty : Bindings α).find? name = none := rfl

/-- A name just bound is found with what it was bound to. -/
@[simp]
theorem find?_insert_self {α : Type} (bindings : Bindings α) (name : String) (a : α) :
    (bindings.insert name a).find? name = some a := by
  simp [find?, insert]

/-- Binding one name leaves every other as it was. -/
theorem find?_insert_of_ne {α : Type} (bindings : Bindings α) {name other : String} (a : α)
    (h : other ≠ name) : (bindings.insert name a).find? other = bindings.find? other := by
  have hname : (other == name) = false := by simpa using h
  simp only [find?, insert, List.lookup_cons, hname]
  induction bindings.entries with
  | nil => rfl
  | cons entry rest ih =>
    obtain ⟨key, b⟩ := entry
    by_cases hkey : key = name
    · subst hkey
      simp [List.lookup_cons, hname, ih]
    · simp [List.lookup_cons, hkey, ih]

def size {α : Type} (bindings : Bindings α) : Nat :=
  bindings.entries.length

end Bindings

end Stylesheet
