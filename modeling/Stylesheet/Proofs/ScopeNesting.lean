import Mathlib.Data.List.Forall2
import Stylesheet.Proofs.Environment

/-!
The live scopes as rendering keeps them. Rules nest, so the scopes form a single path from the one
at hand to the first; no call is under way between two nodes; and since a definition overwrites the
nearest binding of its name, no name is bound in two scopes. Such scopes are `Tidy`.

A definition in tidy scopes changes one of them: the one that binds the name, or the latest one if
none does. Everything that is said here about definitions follows from that.
-/

namespace Stylesheet

namespace Bindings

theorem contains_insert {α : Type} (bindings : Bindings α) (name other : String) (a : α) :
    (bindings.insert name a).contains other = (other == name || bindings.contains other) := by
  by_cases h : other = name
  · subst h
    simp [contains]
  · simp [contains, find?_insert_of_ne bindings a h, h]

theorem contains_eq_false_iff {α : Type} {bindings : Bindings α} {name : String} :
    bindings.contains name = false ↔ bindings.find? name = none := by
  simp [contains]

end Bindings

/-- The two kinds of names that scopes bind. -/
inductive NameKind where
  | value
  | function
  deriving DecidableEq

/-- Does the scope itself bind the name? -/
def Scope.binds (scope : Scope) : NameKind → String → Bool
  | .value, name => scope.values.contains name
  | .function, name => scope.functions.contains name

/-- The second scope is the first after a definition in it. -/
structure Scope.Defines (kind : NameKind) (name : String) (before after : Scope) : Prop where
  parent : after.parent = before.parent
  frames : after.frames = before.frames
  binds : ∀ k n, after.binds k n = (decide (k = kind ∧ n = name) || before.binds k n)

/-- The second scope stands where the first does and binds the same names. -/
structure Scope.SameNames (before after : Scope) : Prop where
  parent : after.parent = before.parent
  binds : ∀ kind name, after.binds kind name = before.binds kind name

theorem Scope.defines_value (scope : Scope) (name : String) (value : Option Value) :
    Scope.Defines .value name scope { scope with values := scope.values.insert name value } where
  parent := rfl
  frames := rfl
  binds := by
    intro kind other
    cases kind with
    | value => simp [Scope.binds, Bindings.contains_insert, Bool.beq_eq_decide_eq]
    | function => simp [Scope.binds]

theorem Scope.defines_function (scope : Scope) (f : FunctionDef) :
    Scope.Defines .function f.name scope
      { scope with functions := scope.functions.insert f.name f } where
  parent := rfl
  frames := rfl
  binds := by
    intro kind other
    cases kind with
    | value => simp [Scope.binds]
    | function => simp [Scope.binds, Bindings.contains_insert, Bool.beq_eq_decide_eq]

theorem Scope.SameNames.refl (scope : Scope) : Scope.SameNames scope scope :=
  ⟨rfl, fun _ _ => rfl⟩

theorem Scope.SameNames.trans {first second third : Scope} (h : Scope.SameNames first second)
    (h' : Scope.SameNames second third) : Scope.SameNames first third :=
  ⟨h'.parent.trans h.parent, fun kind name => (h'.binds kind name).trans (h.binds kind name)⟩

theorem Scope.Defines.sameNames {kind : NameKind} {name : String} {before after : Scope}
    (h : Scope.Defines kind name before after) (hbound : before.binds kind name = true) :
    Scope.SameNames before after where
  parent := h.parent
  binds := by
    intro k n
    rw [h.binds k n]
    by_cases hsame : k = kind ∧ n = name
    · obtain ⟨rfl, rfl⟩ := hsame
      simp [hbound]
    · simp [hsame]

namespace Scopes

/-- Each scope but the oldest stands directly inside the next older one. -/
def Nested : List Scope → Prop
  | [] => False
  | [first] => first.parent = none
  | scope :: parent :: older => scope.parent = some older.length ∧ Nested (parent :: older)

/-- Scopes as they are between two nodes of a sheet: nested, without calls under way, and no name
bound in two of them. -/
structure Tidy (scopes : Scopes) : Prop where
  nested : Nested scopes.stack
  idle : ∀ scope ∈ scopes.stack, scope.frames = []
  apart : ∀ kind, scopes.stack.Pairwise fun newer older =>
    ∀ name, newer.binds kind name = true → older.binds kind name = false

/-- In nested scopes the path of the latest one goes through all of them. -/
theorem map_snd_pathIn_of_nested {scope : Scope} {older : List Scope}
    (h : Nested (scope :: older)) :
    (pathIn (scope :: older) older.length).map Prod.snd = scope :: older := by
  induction older generalizing scope with
  | nil =>
      have hparent : scope.parent = none := h
      simp [pathIn, hparent]
  | cons parent older ih =>
      obtain ⟨hparent, hrest⟩ := h
      rw [pathIn, if_pos rfl, hparent, List.map_cons, ih hrest]

theorem map_snd_path_of_nested {scopes : Scopes} (h : Nested scopes.stack) {number : Nat}
    (hnumber : number + 1 = scopes.count) : (scopes.path number).map Prod.snd = scopes.stack := by
  obtain ⟨stack⟩ := scopes
  cases stack with
  | nil => exact h.elim
  | cons scope older =>
      have hlast : number = older.length := by simpa [count] using hnumber
      rw [hlast]
      exact map_snd_pathIn_of_nested h

theorem findSome?_path_of_nested {β : Type} {scopes : Scopes} (h : Nested scopes.stack)
    {number : Nat} (hnumber : number + 1 = scopes.count) (f : Scope → Option β) :
    (scopes.path number).findSome? (fun entry => f entry.2) = scopes.stack.findSome? f := by
  rw [← map_snd_path_of_nested h hnumber, List.findSome?_map]
  rfl

/-- The first scope on the path that meets a condition is the nearest of all scopes that do, and a
change by its number changes it in place. -/
theorem modifyIn_of_find?_path {scope found : Scope} {older : List Scope} {number : Nat}
    {binds : Scope → Bool} (h : Nested (scope :: older))
    (hfind : (pathIn (scope :: older) older.length).find? (fun entry => binds entry.2) =
      some (number, found)) (change : Scope → Scope) :
    ∃ newer behind, scope :: older = newer ++ found :: behind ∧
      modifyIn change (scope :: older) number = newer ++ change found :: behind ∧
      binds found = true ∧ ∀ other ∈ newer, binds other = false := by
  induction older generalizing scope with
  | nil =>
      have hparent : scope.parent = none := h
      simp only [pathIn, if_pos, hparent, List.length_nil, List.find?_singleton] at hfind
      split at hfind
      · rename_i hbinds
        cases hfind
        exact ⟨[], [], rfl, by simp [modifyIn], hbinds, by simp⟩
      · simp at hfind
  | cons parent older ih =>
      obtain ⟨hparent, hrest⟩ := h
      rw [pathIn, if_pos rfl, hparent] at hfind
      simp only [List.find?_cons] at hfind
      split at hfind
      · rename_i hbinds
        cases hfind
        exact ⟨[], parent :: older, rfl, by simp [modifyIn], hbinds, by simp⟩
      · rename_i hbinds
        obtain ⟨newer, behind, hsplit, hchange, hfound, hnewer⟩ := ih hrest hfind
        have hlt : number < (parent :: older).length :=
          number_lt_of_mem_pathIn (List.mem_of_find?_eq_some hfind)
        refine ⟨scope :: newer, behind, by rw [hsplit, List.cons_append], ?_, hfound, ?_⟩
        · rw [modifyIn, if_neg (Nat.ne_of_lt hlt), hchange, List.cons_append]
        · intro other hother
          rcases List.mem_cons.mp hother with rfl | hmem
          · simpa using hbinds
          · exact hnewer other hmem

/-- What a definition made in the latest of nested scopes changes: the nearest scope that binds the
name, and the latest one where there is none. -/
theorem modify_owner_cases {scopes : Scopes} (h : Nested scopes.stack) {number : Nat}
    (hnumber : number + 1 = scopes.count) (binds : Scope → Bool) (change : Scope → Scope) :
    ∃ newer scope older, scopes.stack = newer ++ scope :: older ∧
      (scopes.modify (scopes.owner number binds) change).stack = newer ++ change scope :: older ∧
      ((binds scope = true ∧ ∀ other ∈ newer, binds other = false) ∨
        (newer = [] ∧ ∀ other ∈ scopes.stack, binds other = false)) := by
  obtain ⟨stack⟩ := scopes
  cases stack with
  | nil => exact h.elim
  | cons scope older =>
      have hlast : number = older.length := by simpa [count] using hnumber
      subst hlast
      simp only [modify, owner, path]
      cases hfind : (pathIn (scope :: older) older.length).find? fun entry => binds entry.2 with
      | some entry =>
          obtain ⟨newer, behind, hsplit, hchange, hfound, hnewer⟩ :=
            modifyIn_of_find?_path h hfind change
          exact ⟨newer, entry.2, behind, hsplit, hchange, Or.inl ⟨hfound, hnewer⟩⟩
      | none =>
          refine ⟨[], scope, older, rfl, by simp [modifyIn], Or.inr ⟨rfl, ?_⟩⟩
          intro other hother
          rw [← map_snd_pathIn_of_nested h] at hother
          obtain ⟨entry, hentry, rfl⟩ := List.mem_map.mp hother
          simpa using List.find?_eq_none.mp hfind entry hentry

theorem Nested.congr {before after : List Scope} (h : Nested before)
    (hparents : after.map Scope.parent = before.map Scope.parent) : Nested after := by
  fun_induction Nested before generalizing after with
  | case1 => exact h.elim
  | case2 first =>
      obtain ⟨other, rfl, hother⟩ : ∃ other, after = [other] ∧ other.parent = first.parent := by
        simpa [List.map_eq_singleton_iff] using hparents
      exact hother.trans h
  | case3 scope parent older ih =>
      obtain ⟨scope', rest', rfl, hscope, hrest⟩ := List.map_eq_cons_iff.mp hparents
      obtain ⟨parent', older', rfl, hparent, holder⟩ := List.map_eq_cons_iff.mp hrest
      have hlength : older'.length = older.length := by
        simpa using congrArg List.length holder
      obtain ⟨hlink, hnested⟩ := h
      exact ⟨by rw [hscope, hlink, hlength], ih hnested hrest⟩

/-- The same scopes are live, and all but the latest bind the same names. -/
structure Kept (before after : Scopes) : Prop where
  count : after.count = before.count
  names : List.Forall₂ Scope.SameNames before.stack.tail after.stack.tail

theorem Kept.refl (scopes : Scopes) : Kept scopes scopes where
  count := rfl
  names := List.forall₂_same.mpr fun scope _ => Scope.SameNames.refl scope

theorem forall₂_trans {R : Scope → Scope → Prop} {first second third : List Scope}
    (h : List.Forall₂ R first second) (h' : List.Forall₂ R second third)
    (hR : ∀ {first second third}, R first second → R second third → R first third) :
    List.Forall₂ R first third := by
  induction h generalizing third with
  | nil => exact h'
  | cons hhead _ ih =>
      cases h' with
      | cons hhead' htail' => exact .cons (hR hhead hhead') (ih htail')

theorem Kept.trans {first second third : Scopes} (h : Kept first second) (h' : Kept second third) :
    Kept first third where
  count := h'.count.trans h.count
  names := forall₂_trans h.names h'.names Scope.SameNames.trans

/-- The scope that a definition changes is the only one that binds the name afterwards. -/
theorem Tidy.binds_others {scopes : Scopes} (h : scopes.Tidy) {kind : NameKind} {name : String}
    {newer older : List Scope} {scope : Scope} (hstack : scopes.stack = newer ++ scope :: older)
    (hcases : (scope.binds kind name = true ∧ ∀ other ∈ newer, other.binds kind name = false) ∨
      (newer = [] ∧ ∀ other ∈ scopes.stack, other.binds kind name = false)) :
    ∀ other ∈ newer ++ older, other.binds kind name = false := by
  intro other hother
  have hapart := h.apart kind
  rw [hstack] at hapart hcases
  rcases hcases with ⟨hbound, hnewer⟩ | ⟨-, hnone⟩
  · rcases List.mem_append.mp hother with hmem | hmem
    · exact hnewer other hmem
    · have hbehind := (List.pairwise_cons.mp (List.pairwise_append.mp hapart).2.1).1
      exact hbehind other hmem name hbound
  · apply hnone
    simp only [List.mem_append, List.mem_cons] at hother ⊢
    tauto

/-- A definition keeps scopes tidy, and adds a name to none but the latest. -/
theorem Tidy.define {before after : Scopes} (h : before.Tidy) {kind : NameKind} {name : String}
    {newer older : List Scope} {scope changed : Scope}
    (hbefore : before.stack = newer ++ scope :: older)
    (hafter : after.stack = newer ++ changed :: older)
    (hdefines : Scope.Defines kind name scope changed)
    (hcases : (scope.binds kind name = true ∧ ∀ other ∈ newer, other.binds kind name = false) ∨
      (newer = [] ∧ ∀ other ∈ before.stack, other.binds kind name = false)) :
    after.Tidy ∧ Kept before after := by
  have hnested : Nested after.stack := by
    apply h.nested.congr
    simp [hbefore, hafter, hdefines.parent]
  have hidle : ∀ other ∈ after.stack, other.frames = [] := by
    intro other hother
    rw [hafter] at hother
    have hold := h.idle
    rw [hbefore] at hold
    rcases List.mem_append.mp hother with hnewer | hrest
    · exact hold other (by simp [hnewer])
    · rcases List.mem_cons.mp hrest with rfl | holder
      · rw [hdefines.frames]
        exact hold scope (by simp)
      · exact hold other (by simp [holder])
  have hapart (k : NameKind) : after.stack.Pairwise fun newer older =>
      ∀ n, newer.binds k n = true → older.binds k n = false := by
    have hold := h.apart k
    have hothers : ∀ other ∈ newer ++ older, other.binds kind name = false :=
      h.binds_others hbefore hcases
    rw [hbefore, List.pairwise_append, List.pairwise_cons] at hold
    obtain ⟨hnewer, ⟨hscope, holder⟩, hacross⟩ := hold
    rw [hafter, List.pairwise_append, List.pairwise_cons]
    refine ⟨hnewer, ⟨?_, holder⟩, ?_⟩
    · intro other hother n hn
      rw [hdefines.binds k n, Bool.or_eq_true, decide_eq_true_eq] at hn
      rcases hn with ⟨rfl, rfl⟩ | hn
      · exact hothers other (by simp [hother])
      · exact hscope other hother n hn
    · intro other hother behind hbehind n hn
      rcases List.mem_cons.mp hbehind with rfl | hmem
      · have hnew : ¬ (k = kind ∧ n = name) := by
          rintro ⟨rfl, rfl⟩
          have hfalse := hothers other (by simp [hother])
          simp [hfalse] at hn
        rw [hdefines.binds k n]
        simpa [hnew] using hacross other hother scope (by simp) n hn
      · exact hacross other hother behind (by simp [hmem]) n hn
  have hkept : List.Forall₂ Scope.SameNames before.stack.tail after.stack.tail := by
    have hsame (stack : List Scope) : List.Forall₂ Scope.SameNames stack stack :=
      List.forall₂_same.mpr fun scope _ => Scope.SameNames.refl scope
    rw [hbefore, hafter]
    cases newer with
    | nil => exact hsame older
    | cons first newer =>
        rcases hcases with ⟨hbound, -⟩ | ⟨hnil, -⟩
        · exact List.rel_append (hsame newer) (.cons (hdefines.sameNames hbound) (hsame older))
        · simp at hnil
  exact ⟨⟨hnested, hidle, hapart⟩, ⟨by simp [count, hbefore, hafter], hkept⟩⟩

def boundValue? (scopes : Scopes) (name : String) : Option (Option Value) :=
  scopes.stack.findSome? fun scope => scope.values.find? name

def boundFunction? (scopes : Scopes) (name : String) : Option FunctionDef :=
  scopes.stack.findSome? fun scope => scope.functions.find? name

theorem findSome?_value?_of_idle {stack : List Scope} (h : ∀ scope ∈ stack, scope.frames = [])
    (name : String) :
    stack.findSome? (fun scope => scope.value? name) =
      stack.findSome? (fun scope => scope.values.find? name) := by
  induction stack with
  | nil => rfl
  | cons scope older ih =>
      have hscope : scope.value? name = scope.values.find? name := by
        simp [Scope.value?, h scope (by simp)]
      have hrest := ih fun other hother => h other (by simp [hother])
      rw [List.findSome?_cons, List.findSome?_cons, hscope, hrest]

/-- From the latest of tidy scopes nothing is in sight but what the scopes bind. -/
theorem Tidy.env_eq {scopes : Scopes} (h : scopes.Tidy) {number : Nat}
    (hnumber : number + 1 = scopes.count) (host : Host) :
    scopes.env host number =
      { frame? := none
        base := fun name => (scopes.boundValue? name).getD (host.value? name)
        function? := scopes.boundFunction?
        hostFunction? := host.function? } := by
  have hlive : number < scopes.count := by omega
  have hframe : scopes.frame? number = none := by
    obtain ⟨scope, older, hpath, -⟩ := exists_path_cons hlive
    have hmem : scope ∈ scopes.stack := by
      rw [← map_snd_path_of_nested h.nested hnumber, hpath]
      simp
    simp [frame?, hpath, h.idle scope hmem]
  have hvalue (name : String) : scopes.value? number name = scopes.boundValue? name :=
    calc
      scopes.value? number name = scopes.stack.findSome? (fun scope => scope.value? name) :=
        findSome?_path_of_nested h.nested hnumber fun scope => scope.value? name
      _ = scopes.boundValue? name := findSome?_value?_of_idle h.idle name
  have hbase (name : String) : (scopes.env host number).base name =
      (scopes.boundValue? name).getD (host.value? name) := by
    have hall := valueOf_eq_env_value hlive host name
    simpa [Env.value, env, hframe, valueOf, hvalue name] using hall.symm
  have hfunction (name : String) : scopes.function? number name = scopes.boundFunction? name :=
    findSome?_path_of_nested h.nested hnumber fun scope => scope.functions.find? name
  rw [env, Env.mk.injEq]
  exact ⟨hframe, funext hbase, funext hfunction, rfl⟩

section Search

variable {β : Type} {find : Scope → Option β} {newer older : List Scope} {scope changed : Scope}

theorem findSome?_change (h : find changed = find scope) :
    (newer ++ changed :: older).findSome? find = (newer ++ scope :: older).findSome? find := by
  simp [List.findSome?_append, List.findSome?_cons, h]

theorem findSome?_changed {b : β} (hnewer : ∀ other ∈ newer, find other = none)
    (hchanged : find changed = some b) :
    (newer ++ changed :: older).findSome? find = some b := by
  have hnone : newer.findSome? find = none := List.findSome?_eq_none_iff.mpr hnewer
  simp [List.findSome?_append, hnone, hchanged]

end Search

/-- A definition from the latest of tidy scopes keeps them tidy. A search that does not look at what
it changes finds the same as before, and one for the name itself finds what it defines. -/
theorem Tidy.assign {scopes : Scopes} (h : scopes.Tidy) {number : Nat}
    (hnumber : number + 1 = scopes.count) {kind : NameKind} {name : String}
    {change : Scope → Scope} (hchange : ∀ scope, Scope.Defines kind name scope (change scope))
    {after : Scopes} (hafter : after = scopes.modify
      (scopes.owner number fun scope => scope.binds kind name) change) :
    after.Tidy ∧ Kept scopes after ∧
      (∀ {β : Type} (find : Scope → Option β), (∀ scope, find (change scope) = find scope) →
        after.stack.findSome? find = scopes.stack.findSome? find) ∧
      (∀ {β : Type} (find : Scope → Option β) (b : β),
        (∀ scope, scope.binds kind name = false → find scope = none) →
        (∀ scope, find (change scope) = some b) → after.stack.findSome? find = some b) := by
  obtain ⟨newer, scope, older, hbefore, hstack, hcases⟩ :=
    modify_owner_cases h.nested hnumber (fun scope => scope.binds kind name) change
  rw [← hafter] at hstack
  obtain ⟨htidy, hkept⟩ := h.define hbefore hstack (hchange scope) hcases
  refine ⟨htidy, hkept, ?_, ?_⟩
  · intro β find hfind
    rw [hstack, hbefore]
    exact findSome?_change (hfind scope)
  · intro β find b hnone hsome
    rw [hstack]
    apply findSome?_changed
    · intro other hother
      exact hnone other (h.binds_others hbefore hcases other (by simp [hother]))
    · exact hsome scope

theorem Tidy.setVariable {scopes : Scopes} (h : scopes.Tidy) {number : Nat}
    (hnumber : number + 1 = scopes.count) (name : String) (value : Option Value) :
    (scopes.setVariable number name value).Tidy ∧
      Kept scopes (scopes.setVariable number name value) ∧
      (∀ other, (scopes.setVariable number name value).boundValue? other =
        if other = name then some value else scopes.boundValue? other) ∧
      (scopes.setVariable number name value).boundFunction? = scopes.boundFunction? := by
  obtain ⟨htidy, hkept, hsame, hnew⟩ := h.assign hnumber
    (fun scope => Scope.defines_value scope name value)
    (Eq.refl (scopes.setVariable number name value))
  refine ⟨htidy, hkept, ?_, funext fun other => hsame _ fun _ => rfl⟩
  intro other
  by_cases hother : other = name
  · subst hother
    rw [if_pos rfl]
    exact hnew _ _ (fun _ => Bindings.contains_eq_false_iff.mp) (fun _ => by simp)
  · rw [if_neg hother]
    exact hsame _ fun _ => Bindings.find?_insert_of_ne _ _ hother

theorem Tidy.setFunction {scopes : Scopes} (h : scopes.Tidy) {number : Nat}
    (hnumber : number + 1 = scopes.count) (f : FunctionDef) :
    (scopes.setFunction number f).Tidy ∧
      Kept scopes (scopes.setFunction number f) ∧
      (scopes.setFunction number f).boundValue? = scopes.boundValue? ∧
      (∀ other, (scopes.setFunction number f).boundFunction? other =
        if other = f.name then some f else scopes.boundFunction? other) := by
  obtain ⟨htidy, hkept, hsame, hnew⟩ := h.assign hnumber
    (fun scope => Scope.defines_function scope f) (Eq.refl (scopes.setFunction number f))
  refine ⟨htidy, hkept, funext fun other => hsame _ fun _ => rfl, ?_⟩
  intro other
  by_cases hother : other = f.name
  · subst hother
    rw [if_pos rfl]
    exact hnew _ _ (fun _ => Bindings.contains_eq_false_iff.mp) (fun _ => by simp)
  · rw [if_neg hother]
    exact hsame _ fun _ => Bindings.find?_insert_of_ne _ _ hother

theorem Tidy.enter {scopes : Scopes} (h : scopes.Tidy) {number : Nat}
    (hnumber : number + 1 = scopes.count) :
    (scopes.enter number).Tidy ∧ (scopes.enter number).boundValue? = scopes.boundValue? ∧
      (scopes.enter number).boundFunction? = scopes.boundFunction? := by
  have hnested : Nested (scopes.enter number).stack := by
    obtain ⟨stack⟩ := scopes
    cases stack with
    | nil => exact h.nested.elim
    | cons parent older =>
        have hlast : number = older.length := by simpa [count] using hnumber
        exact ⟨by rw [hlast], h.nested⟩
  refine ⟨⟨hnested, ?_, ?_⟩, funext fun name => ?_, funext fun name => ?_⟩
  · intro scope hscope
    rcases List.mem_cons.mp hscope with rfl | hold
    · rfl
    · exact h.idle scope hold
  · intro kind
    refine List.pairwise_cons.mpr ⟨?_, h.apart kind⟩
    intro other _ name hbinds
    cases kind with
    | value => cases hbinds
    | function => cases hbinds
  · rfl
  · rfl

/-- What a search for a name finds in the older scopes, given what it finds in all of them: the same
for the names bound there, since these are not bound in the latest scope, and else nothing. -/
theorem findSome?_older {β : Type} {find : Scope → Option β} {kind : NameKind} {name : String}
    (hfind : ∀ scope, scope.binds kind name = false ↔ find scope = none) {latest : Scope}
    {older : List Scope}
    (hapart : ∀ other ∈ older, latest.binds kind name = true → other.binds kind name = false) :
    older.findSome? find =
      if older.any (fun scope => scope.binds kind name) then (latest :: older).findSome? find
      else none := by
  split
  · rename_i hany
    obtain ⟨scope, hscope, hbinds⟩ := List.any_eq_true.mp hany
    have hlatest : latest.binds kind name = false := by
      rw [← Bool.not_eq_true]
      intro hbound
      have hfalse := hapart scope hscope hbound
      simp [hfalse] at hbinds
    rw [List.findSome?_cons, (hfind latest).mp hlatest]
  · rename_i hnone
    rw [List.findSome?_eq_none_iff]
    intro scope hscope
    apply (hfind scope).mp
    simpa using fun hbinds => hnone (List.any_eq_true.mpr ⟨scope, hscope, hbinds⟩)

theorem any_binds_congr {before after : List Scope} (h : List.Forall₂ Scope.SameNames before after)
    (kind : NameKind) (name : String) :
    after.any (fun scope => scope.binds kind name) =
      before.any (fun scope => scope.binds kind name) := by
  induction h with
  | nil => rfl
  | cons hhead _ ih => rw [List.any_cons, List.any_cons, hhead.binds kind name, ih]

/-- Leaving a scope that was entered from tidy scopes. The scopes from before are live again with
the names they had, and a name bound in them is bound to what it was bound to at the end. -/
theorem Tidy.leave {outer inner : Scopes} {number : Nat} (hinner : inner.Tidy)
    (hkept : Kept (outer.enter number) inner) (houter : outer.Tidy) :
    (inner.leave outer.count).Tidy ∧
      List.Forall₂ Scope.SameNames outer.stack (inner.leave outer.count).stack ∧
      (∀ name, (inner.leave outer.count).boundValue? name =
        if outer.stack.any (fun scope => scope.binds .value name) then inner.boundValue? name
        else none) ∧
      (∀ name, (inner.leave outer.count).boundFunction? name =
        if outer.stack.any (fun scope => scope.binds .function name) then
          inner.boundFunction? name
        else none) := by
  obtain ⟨stack⟩ := inner
  cases stack with
  | nil => exact hinner.nested.elim
  | cons latest older =>
      have hnames : List.Forall₂ Scope.SameNames outer.stack older := hkept.names
      have hlength : older.length = outer.count := hnames.length_eq.symm
      have hleave : (Scopes.leave ⟨latest :: older⟩ outer.count).stack = older := by
        simp [Scopes.leave, count, hlength]
      have hnested : Nested older := by
        cases older with
        | nil =>
            have hnone : outer.stack = [] := List.forall₂_nil_right_iff.mp hnames
            have hfalse := houter.nested
            rw [hnone] at hfalse
            exact hfalse.elim
        | cons parent older => exact hinner.nested.2
      have hapart (kind : NameKind) := List.pairwise_cons.mp (hinner.apart kind)
      refine ⟨⟨?_, ?_, ?_⟩, ?_, ?_, ?_⟩
      · rwa [hleave]
      · intro scope hscope
        rw [hleave] at hscope
        exact hinner.idle scope (by simp [hscope])
      · intro kind
        rw [hleave]
        exact (hapart kind).2
      · rwa [hleave]
      · intro name
        rw [boundValue?, hleave, ← any_binds_congr hnames]
        apply findSome?_older
        · intro scope
          exact Bindings.contains_eq_false_iff
        · intro other hother
          exact (hapart .value).1 other hother name
      · intro name
        rw [boundFunction?, hleave, ← any_binds_congr hnames]
        apply findSome?_older
        · intro scope
          exact Bindings.contains_eq_false_iff
        · intro other hother
          exact (hapart .function).1 other hother name

end Scopes

end Stylesheet
