import Stylesheet.Proofs.ScopePath

/-!
Reading a name after a definition, in scopes that may branch. Rendering keeps its scopes in a single
row; the operations on scopes by themselves do not ask for that. Whatever they lead to, each scope
stands inside an older one, so that every search for a name comes to an end at the first scope.

A definition changes one scope, its owner. It is seen exactly from those scopes whose search for the
name stops at the table of the owner, and for everything else the scopes are as before.
-/

namespace Stylesheet

/-- What the call under way in the scope binds a variable to. -/
def Scope.argument? (scope : Scope) (name : String) : Option (Option Value) :=
  scope.frames.head?.bind fun frame => frame.find? name

theorem Scope.value?_eq (scope : Scope) (name : String) :
    scope.value? name = (scope.argument? name <|> scope.values.find? name) := rfl

namespace Scopes

/-- What the operations on scopes lead to, if each is used on a live scope. The first scope is never
left. -/
inductive Reached : Scopes → Prop where
  | initial : Reached .initial
  | enter {scopes : Scopes} {parent : Nat} (h : Reached scopes) (hlive : parent < scopes.count) :
      Reached (scopes.enter parent)
  | leave {scopes : Scopes} {number : Nat} (h : Reached scopes) (hinner : 0 < number)
      (hlive : number < scopes.count) : Reached (scopes.leave number)
  | setVariable {scopes : Scopes} {number : Nat} (h : Reached scopes)
      (hlive : number < scopes.count) (name : String) (value : Option Value) :
      Reached (scopes.setVariable number name value)
  | setFunction {scopes : Scopes} {number : Nat} (h : Reached scopes)
      (hlive : number < scopes.count) (f : FunctionDef) : Reached (scopes.setFunction number f)
  | pushFrame {scopes : Scopes} {number : Nat} (h : Reached scopes)
      (hlive : number < scopes.count) (frame : Frame) : Reached (scopes.pushFrame number frame)
  | popFrame {scopes : Scopes} {number : Nat} (h : Reached scopes)
      (hlive : number < scopes.count) : Reached (scopes.popFrame number)

/-- The live scope with the given number. -/
def scope? (scopes : Scopes) (number : Nat) : Option Scope := scopes.stack.reverse[number]?

/-- The parents of scopes, the latest first: each is older than its child, and only the first scope
has none. -/
def Linked : List (Option Nat) → Prop
  | [] => True
  | none :: older => older = []
  | some parent :: older => parent < older.length ∧ Linked older

theorem Linked.drop {parents : List (Option Nat)} (h : Linked parents) (count : Nat) :
    Linked (parents.drop count) := by
  induction parents generalizing count with
  | nil => simp [Linked]
  | cons parent older ih =>
      cases count with
      | zero => exact h
      | succ count =>
          rw [List.drop_succ_cons]
          cases parent with
          | none =>
              have hnone : older = [] := h
              simp [hnone, Linked]
          | some parent => exact ih h.2 count

theorem map_parent_modifyIn {change : Scope → Scope}
    (hchange : ∀ scope, (change scope).parent = scope.parent) (stack : List Scope) (number : Nat) :
    (modifyIn change stack number).map Scope.parent = stack.map Scope.parent := by
  induction stack with
  | nil => rfl
  | cons scope older ih =>
      rw [modifyIn]
      split
      · simp [hchange]
      · simp [ih]

theorem Reached.linked {scopes : Scopes} (h : scopes.Reached) :
    Linked (scopes.stack.map Scope.parent) := by
  induction h with
  | initial => exact rfl
  | enter _ hlive ih => exact ⟨by simpa [count] using hlive, ih⟩
  | leave _ _ _ ih =>
      rw [Scopes.leave, List.map_drop]
      exact ih.drop _
  | setVariable _ _ _ _ ih =>
      rwa [Scopes.setVariable, modify, map_parent_modifyIn (by intro; rfl)]
  | setFunction _ _ _ ih =>
      rwa [Scopes.setFunction, bindFunction, modify, map_parent_modifyIn (by intro; rfl)]
  | pushFrame _ _ _ ih =>
      rwa [Scopes.pushFrame, modify, map_parent_modifyIn (by intro; rfl)]
  | popFrame _ _ ih =>
      rwa [Scopes.popFrame, modify, map_parent_modifyIn (by intro; rfl)]

theorem pathIn_cons_of_lt {older : List Scope} {number : Nat} (h : number < older.length)
    (scope : Scope) : pathIn (scope :: older) number = pathIn older number := by
  rw [pathIn, if_neg (Nat.ne_of_lt h)]

/-- The path of a live scope goes on with the path of its parent, which is older. Only the first
scope has no parent. -/
theorem exists_parent_of_linked {stack : List Scope} (h : Linked (stack.map Scope.parent))
    {number : Nat} (hlive : number < stack.length) :
    ∃ scope, stack.reverse[number]? = some scope ∧
      pathIn stack number = (number, scope) :: scope.parent.elim [] (pathIn stack) ∧
      (scope.parent = none ↔ number = 0) ∧
      ∀ parent, scope.parent = some parent → parent < number := by
  induction stack with
  | nil => cases hlive
  | cons latest older ih =>
      by_cases hnumber : number = older.length
      · subst hnumber
        refine ⟨latest, by simp, ?_⟩
        rw [pathIn, if_pos rfl]
        rw [List.map_cons] at h
        cases hparent : latest.parent with
        | none =>
            have holder : older = [] := by simpa [hparent, Linked] using h
            simp [holder]
        | some parent =>
            rw [hparent, Linked, List.length_map] at h
            have hpositive : older.length ≠ 0 := by omega
            refine ⟨?_, by simpa using hpositive, by simpa using h.1⟩
            simp only [Option.elim_some, pathIn_cons_of_lt h.1]
      · have hlt : number < older.length := by
          rw [List.length_cons] at hlive
          omega
        have hlinked : Linked (older.map Scope.parent) := by
          have htail := h.drop 1
          simpa using htail
        obtain ⟨scope, hscope, hpath, hfirst, holder⟩ := ih hlinked hlt
        refine ⟨scope, ?_, ?_, hfirst, holder⟩
        · rw [List.reverse_cons, List.getElem?_append_left (by simpa using hlt), hscope]
        · rw [pathIn_cons_of_lt hlt, hpath]
          cases hparent : scope.parent with
          | none => rfl
          | some parent =>
              have hbelow : parent < number := holder parent hparent
              simp only [Option.elim_some, pathIn_cons_of_lt (Nat.lt_trans hbelow hlt)]

section Search

variable {β : Type} {path : List (Nat × Scope)} {number : Nat} {change : Scope → Scope}
  {front look : Scope → Option β} {b : β}

/-- A search along a path comes to the scope with the given number before it finds anything, and
nothing stands in front of the table there. -/
def ComesTo (path : List (Nat × Scope)) (front look : Scope → Option β) (number : Nat) : Prop :=
  ∃ scope, path.find? (fun entry => entry.1 == number || (look entry.2).isSome) =
    some (number, scope) ∧ front scope = none

/-- The search for a name after a change that binds it in one scope, behind what stands in front of
the table there. Where the search comes to that table it finds the new binding; everywhere else it
finds what it found before. -/
theorem findSome?_map_changeAt (hfront : ∀ scope a, front scope = some a → look scope = some a)
    (hlook : ∀ scope, look (change scope) = (front scope <|> some b)) :
    (ComesTo path front look number →
      (path.map (changeAt number change)).findSome? (fun entry => look entry.2) = some b) ∧
    (¬ ComesTo path front look number →
      (path.map (changeAt number change)).findSome? (fun entry => look entry.2) =
        path.findSome? fun entry => look entry.2) := by
  unfold ComesTo
  induction path with
  | nil => simp
  | cons entry older ih =>
      obtain ⟨at_, scope⟩ := entry
      by_cases hat : at_ = number
      · subst hat
        cases hargument : front scope with
        | none => simp [changeAt, hlook, hargument]
        | some a => simp [changeAt, hlook, hargument, hfront scope a hargument]
      · cases hscope : look scope with
        | none => simpa [changeAt, hat, hscope] using ih
        | some a => simp [changeAt, hat, hscope]

/-- What is bound nowhere but in tables is found at the first table that binds it. -/
theorem comesTo_of_find? {binds : Scope → Bool} {found : Scope}
    (h : path.find? (fun entry => binds entry.2) = some (number, found))
    (hfront : ∀ entry ∈ path, front entry.2 = none)
    (hbinds : ∀ entry ∈ path, (look entry.2).isSome = binds entry.2) :
    ComesTo path front look number := by
  unfold ComesTo
  induction path with
  | nil => cases h
  | cons entry older ih =>
      obtain ⟨at_, scope⟩ := entry
      have hhere := hbinds _ List.mem_cons_self
      by_cases hat : at_ = number
      · subst hat
        exact ⟨scope, by simp, hfront _ List.mem_cons_self⟩
      · cases hscope : binds scope with
        | true =>
            simp only [List.find?_cons, hscope] at h
            cases h
            exact absurd rfl hat
        | false =>
            simp only [List.find?_cons, hscope] at h
            obtain ⟨last, hlast, hnone⟩ := ih h
              (fun entry hentry => hfront entry (List.mem_cons_of_mem _ hentry))
              (fun entry hentry => hbinds entry (List.mem_cons_of_mem _ hentry))
            refine ⟨last, ?_, hnone⟩
            rw [List.find?_cons_of_neg (by simp [hat, hhere, hscope]), hlast]

end Search

/-- From the scope that a definition is made in, the search comes to the owner, where nothing on the
way stands in front of a table. -/
theorem comesTo_owner {β : Type} {scopes : Scopes} {number : Nat} (hlive : number < scopes.count)
    {binds : Scope → Bool} {front look : Scope → Option β}
    (hfront : ∀ entry ∈ scopes.path number, front entry.2 = none)
    (hbinds : ∀ entry ∈ scopes.path number, (look entry.2).isSome = binds entry.2) :
    ComesTo (scopes.path number) front look (scopes.owner number binds) := by
  unfold owner
  cases hfind : (scopes.path number).find? fun entry => binds entry.2 with
  | some entry => exact comesTo_of_find? hfind hfront hbinds
  | none =>
      obtain ⟨scope, older, hpath, -⟩ := exists_path_cons hlive
      rw [hpath] at hfront ⊢
      exact ⟨scope, by simp, hfront _ List.mem_cons_self⟩

/-- A variable that is put into the table of the scope with the given number is seen from the
reader: no nearer scope binds it, and no call under way in that scope has it as an argument. -/
def SeesVariable (scopes : Scopes) (reader : Nat) (name : String) (number : Nat) : Prop :=
  ComesTo (scopes.path reader) (fun scope => scope.argument? name) (fun scope => scope.value? name)
    number

/-- A function that is put into the scope with the given number is seen from the reader: no nearer
scope defines it. -/
def SeesFunction (scopes : Scopes) (reader : Nat) (name : String) (number : Nat) : Prop :=
  ComesTo (scopes.path reader) (fun _ => none) (fun scope => scope.functions.find? name) number

variable {scopes : Scopes} {setter reader : Nat} {name other : String} {value : Option Value}
  {f : FunctionDef}

/-- A variable that is defined from one scope and looked up from another. -/
theorem value?_setVariable_self :
    let owner := scopes.owner setter fun scope => scope.values.contains name
    (scopes.SeesVariable reader name owner →
      (scopes.setVariable setter name value).value? reader name = some value) ∧
    (¬ scopes.SeesVariable reader name owner →
      (scopes.setVariable setter name value).value? reader name = scopes.value? reader name) := by
  dsimp only
  unfold SeesVariable value? setVariable
  rw [path_modify (by intro; rfl)]
  apply findSome?_map_changeAt
  · intro scope a ha
    rw [Scope.value?_eq, ha]
    rfl
  · intro scope
    rw [Scope.value?_eq, Bindings.find?_insert_self]
    rfl

/-- A variable is seen from the scope that defines it, unless some call under way has an argument of
its name. -/
theorem seesVariable_owner (hlive : setter < scopes.count)
    (hfree : ∀ entry ∈ scopes.path setter, entry.2.argument? name = none) :
    scopes.SeesVariable setter name
      (scopes.owner setter fun scope => scope.values.contains name) := by
  apply comesTo_owner hlive hfree
  intro entry hentry
  rw [Scope.value?_eq, hfree entry hentry]
  rfl

/-- A function is seen from the scope that defines it. -/
theorem seesFunction_owner (hlive : setter < scopes.count) :
    scopes.SeesFunction setter name
      (scopes.owner setter fun scope => scope.functions.contains name) :=
  comesTo_owner hlive (fun _ _ => rfl) fun _ _ => rfl

theorem value?_setVariable_of_ne (h : other ≠ name) :
    (scopes.setVariable setter name value).value? reader other = scopes.value? reader other := by
  apply findSome?_path_modify (by intro; rfl) fun scope => scope.value? other
  intro scope
  simp [Scope.value?, Bindings.find?_insert_of_ne _ _ h]

theorem function?_setVariable :
    (scopes.setVariable setter name value).function? reader other =
      scopes.function? reader other :=
  findSome?_path_modify (by intro; rfl) (fun scope => scope.functions.find? other) (by intro; rfl) _

/-- A function that is bound from one scope and looked up from another. -/
theorem function?_bindFunction_self :
    let owner := scopes.owner setter fun scope => scope.functions.contains name
    (scopes.SeesFunction reader name owner →
      (scopes.bindFunction setter name f).function? reader name = some f) ∧
    (¬ scopes.SeesFunction reader name owner →
      (scopes.bindFunction setter name f).function? reader name =
        scopes.function? reader name) := by
  dsimp only
  unfold SeesFunction function? bindFunction
  rw [path_modify (by intro; rfl)]
  apply findSome?_map_changeAt
  · intro scope a ha
    cases ha
  · intro scope
    simp

theorem function?_bindFunction_of_ne (h : other ≠ name) :
    (scopes.bindFunction setter name f).function? reader other =
      scopes.function? reader other := by
  apply findSome?_path_modify (by intro; rfl) fun scope => scope.functions.find? other
  intro scope
  exact Bindings.find?_insert_of_ne _ _ h

theorem value?_bindFunction :
    (scopes.bindFunction setter name f).value? reader other = scopes.value? reader other :=
  findSome?_path_modify (by intro; rfl) (fun scope => scope.value? other) (by intro; rfl) _

/-- From the scope that a function is bound in, it is the one found under its name. -/
theorem function?_bindFunction (hlive : setter < scopes.count) :
    (scopes.bindFunction setter name f).function? setter other =
      if other = name then some f else scopes.function? setter other := by
  split
  · next hother =>
      subst hother
      exact function?_bindFunction_self.1 (seesFunction_owner hlive)
  · next hother => exact function?_bindFunction_of_ne hother

/-- Whatever scopes the operations lead to, each but the first has an older live scope as its
parent, and the path of a scope goes on with the path of its parent.

A definition made in one scope and read from another, both live, is seen where the search for its
name comes to the table of the owner, as the scopes are before the definition. From everywhere else
the name is what it was before, and so are all other names, and names of the other kind. The owner
is the nearest scope that bound the name already, or else the scope that the definition is made in.
From that scope itself a function is always seen, and a variable wherever no call under way on the
path has an argument of its name. -/
theorem read_over_write (h : scopes.Reached) :
    (∀ number, number < scopes.count → ∃ scope, scopes.scope? number = some scope ∧
      scopes.path number = (number, scope) :: scope.parent.elim [] scopes.path ∧
      (scope.parent = none ↔ number = 0) ∧
      ∀ parent, scope.parent = some parent → parent < number) ∧
    ∀ setter, setter < scopes.count → ∀ reader, reader < scopes.count → ∀ host : Host,
      (∀ (name : String) (value : Option Value),
        let after := scopes.setVariable setter name value
        let owner := scopes.owner setter fun scope => scope.values.contains name
        (scopes.SeesVariable reader name owner → after.valueOf host reader name = value) ∧
        (¬ scopes.SeesVariable reader name owner →
          after.valueOf host reader name = scopes.valueOf host reader name) ∧
        (∀ other, other ≠ name →
          after.valueOf host reader other = scopes.valueOf host reader other) ∧
        (∀ other, after.function? reader other = scopes.function? reader other) ∧
        ((∀ entry ∈ scopes.path setter, entry.2.argument? name = none) →
          after.valueOf host setter name = value)) ∧
      ∀ f : FunctionDef,
        let after := scopes.setFunction setter f
        let owner := scopes.owner setter fun scope => scope.functions.contains f.name
        (scopes.SeesFunction reader f.name owner → after.function? reader f.name = some f) ∧
        (¬ scopes.SeesFunction reader f.name owner →
          after.function? reader f.name = scopes.function? reader f.name) ∧
        (∀ other, other ≠ f.name →
          after.function? reader other = scopes.function? reader other) ∧
        (∀ other, after.valueOf host reader other = scopes.valueOf host reader other) ∧
        after.function? setter f.name = some f := by
  refine ⟨fun number hlive => exists_parent_of_linked h.linked hlive, ?_⟩
  intro setter hlive reader _ host
  refine ⟨fun name value => ⟨?_, ?_, ?_, ?_, ?_⟩, fun f => ⟨?_, ?_, ?_, ?_, ?_⟩⟩
  · intro hsees
    rw [valueOf, value?_setVariable_self.1 hsees, Option.getD_some]
  · intro hhidden
    rw [valueOf, valueOf, value?_setVariable_self.2 hhidden]
  · intro other hother
    rw [valueOf, valueOf, value?_setVariable_of_ne hother]
  · exact fun other => function?_setVariable
  · intro hfree
    rw [valueOf, value?_setVariable_self.1 (seesVariable_owner hlive hfree), Option.getD_some]
  · exact function?_bindFunction_self.1
  · exact function?_bindFunction_self.2
  · exact fun other hother => function?_bindFunction_of_ne hother
  · intro other
    rw [valueOf, valueOf, setFunction, value?_bindFunction]
  · exact function?_bindFunction_self.1 (seesFunction_owner hlive)

/-- A first scope that binds `x` and defines `f`, with two scopes inside it. The later one is in a
call that has an absent `x` as its argument. -/
def scopesOfTwoBranches : Scopes :=
  let first := (initial.setVariable 0 "x" (some (.bool true))).setFunction 0
    ⟨"f", [], ⟨[], 1⟩, 1⟩
  ((first.enter 0).enter 0).pushFrame 2 (.ofList [("x", none)])

theorem reached_scopesOfTwoBranches : scopesOfTwoBranches.Reached :=
  ((((Reached.initial.setVariable (by decide) _ _).setFunction (by decide) _).enter
    (by decide)).enter (by decide)).pushFrame (by decide) _

/-- The earlier branch defines `x` and `f` anew, and a function `g`. The definition of `x` goes to
the first scope; it is seen from there and from the branch, but not from the other one, where the
argument hides it. That of `f` goes there too and is seen from the other branch. That of `g` stays
in the branch. -/
theorem read_over_write_from_branch :
    scopesOfTwoBranches.Reached ∧
      (scopesOfTwoBranches.setVariable 1 "x" none).valueOf .nothing 1 "x" = none ∧
      (scopesOfTwoBranches.setVariable 1 "x" (some (.bool false))).valueOf .nothing 0 "x" =
        some (.bool false) ∧
      (scopesOfTwoBranches.setVariable 1 "x" (some (.bool false))).valueOf .nothing 2 "x" =
        scopesOfTwoBranches.valueOf .nothing 2 "x" ∧
      (scopesOfTwoBranches.setFunction 1 ⟨"f", [], ⟨[], 2⟩, 2⟩).function? 2 "f" =
        some ⟨"f", [], ⟨[], 2⟩, 2⟩ ∧
      (scopesOfTwoBranches.setFunction 1 ⟨"g", [], ⟨[], 3⟩, 3⟩).function? 1 "g" =
        some ⟨"g", [], ⟨[], 3⟩, 3⟩ ∧
      (scopesOfTwoBranches.setFunction 1 ⟨"g", [], ⟨[], 3⟩, 3⟩).function? 2 "g" =
        scopesOfTwoBranches.function? 2 "g" := by
  have hlaws := (read_over_write reached_scopesOfTwoBranches).2 1 (by decide)
  have hbranch := ((hlaws 1 (by decide) .nothing).1 "x" none).1 ⟨_, rfl, rfl⟩
  have hfirst := ((hlaws 0 (by decide) .nothing).1 "x" (some (.bool false))).1 ⟨_, rfl, rfl⟩
  have hother := ((hlaws 2 (by decide) .nothing).1 "x" (some (.bool false))).2.1 (by
    rintro ⟨scope, hcomes, -⟩
    cases hcomes)
  have hshared := ((hlaws 2 (by decide) .nothing).2 ⟨"f", [], ⟨[], 2⟩, 2⟩).1 ⟨_, rfl, rfl⟩
  obtain ⟨-, haway, -, -, hown⟩ := (hlaws 2 (by decide) .nothing).2 ⟨"g", [], ⟨[], 3⟩, 3⟩
  exact ⟨reached_scopesOfTwoBranches, hbranch, hfirst, hother, hshared, hown, haway (by
    rintro ⟨scope, hcomes, -⟩
    cases hcomes)⟩

end Scopes

end Stylesheet
