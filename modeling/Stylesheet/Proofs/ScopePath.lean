import Stylesheet.Scopes

/-!
The path of a scope, and what a change of one scope does to it. Numbers fall along a path, so a
change of one scope shows in at most one place of it.
-/

namespace Stylesheet.Scopes

theorem number_lt_of_mem_pathIn {stack : List Scope} {number : Nat} {entry : Nat × Scope}
    (h : entry ∈ pathIn stack number) : entry.1 < stack.length := by
  induction stack generalizing number with
  | nil => simp [pathIn] at h
  | cons scope older ih =>
      rw [pathIn] at h
      split at h
      · rename_i hnumber
        rcases List.mem_cons.mp h with rfl | hrest
        · simp [hnumber]
        · cases hparent : scope.parent with
          | none => simp [hparent] at hrest
          | some parent =>
              simp only [hparent] at hrest
              exact Nat.lt_succ_of_lt (ih hrest)
      · exact Nat.lt_succ_of_lt (ih h)

/-- The path of a live scope starts with the scope itself, and all others on it are older. -/
theorem exists_pathIn_cons {stack : List Scope} {number : Nat} (h : number < stack.length) :
    ∃ scope older, pathIn stack number = (number, scope) :: older ∧
      ∀ entry ∈ older, entry.1 < number := by
  induction stack with
  | nil => simp at h
  | cons scope older ih =>
      rw [pathIn]
      split
      · rename_i hnumber
        refine ⟨scope, _, rfl, ?_⟩
        intro entry hentry
        cases hparent : scope.parent with
        | none => simp [hparent] at hentry
        | some parent =>
            simp only [hparent] at hentry
            rw [hnumber]
            exact number_lt_of_mem_pathIn hentry
      · rename_i hnumber
        have hlt : number < older.length := by
          simp only [List.length_cons] at h
          omega
        exact ih hlt

theorem exists_path_cons {scopes : Scopes} {number : Nat} (h : number < scopes.count) :
    ∃ scope older, scopes.path number = (number, scope) :: older ∧
      ∀ entry ∈ older, entry.1 < number :=
  exists_pathIn_cons h

@[simp]
theorem length_modifyIn (change : Scope → Scope) (stack : List Scope) (number : Nat) :
    (modifyIn change stack number).length = stack.length := by
  induction stack with
  | nil => rfl
  | cons scope older ih =>
      rw [modifyIn]
      split <;> simp [ih]

@[simp]
theorem count_modify (scopes : Scopes) (number : Nat) (change : Scope → Scope) :
    (scopes.modify number change).count = scopes.count :=
  length_modifyIn change scopes.stack number

def changeAt (number : Nat) (change : Scope → Scope) (entry : Nat × Scope) : Nat × Scope :=
  if entry.1 = number then (entry.1, change entry.2) else entry

theorem map_changeAt_of_lt {number : Nat} (change : Scope → Scope) {path : List (Nat × Scope)}
    (h : ∀ entry ∈ path, entry.1 < number) : path.map (changeAt number change) = path := by
  calc
    path.map (changeAt number change) = path.map id := by
      apply List.map_congr_left
      intro entry hentry
      simp [changeAt, Nat.ne_of_lt (h entry hentry)]
    _ = path := List.map_id path

/-- A change that keeps the parent of a scope changes that scope in every path and nothing else. -/
theorem pathIn_modifyIn {change : Scope → Scope}
    (hchange : ∀ scope, (change scope).parent = scope.parent) (stack : List Scope)
    (changed number : Nat) :
    pathIn (modifyIn change stack changed) number =
      (pathIn stack number).map (changeAt changed change) := by
  induction stack generalizing number with
  | nil => rfl
  | cons scope older ih =>
      by_cases hchanged : changed = older.length
      · have hold (n : Nat) : (pathIn older n).map (changeAt changed change) = pathIn older n := by
          apply map_changeAt_of_lt
          intro entry hentry
          rw [hchanged]
          exact number_lt_of_mem_pathIn hentry
        rw [modifyIn, if_pos hchanged, pathIn, pathIn]
        by_cases hnumber : number = older.length
        · rw [if_pos hnumber, if_pos hnumber, hchange scope]
          cases scope.parent with
          | none => simp [changeAt, hnumber, hchanged]
          | some parent =>
              simp only [List.map_cons, hold parent]
              simp [changeAt, hnumber, hchanged]
        · rw [if_neg hnumber, if_neg hnumber, hold number]
      · rw [modifyIn, if_neg hchanged, pathIn, pathIn, length_modifyIn]
        by_cases hnumber : number = older.length
        · have hne : number ≠ changed := fun h => hchanged (h ▸ hnumber)
          rw [if_pos hnumber, if_pos hnumber]
          cases scope.parent with
          | none => simp [changeAt, hne]
          | some parent => simp [changeAt, hne, ih parent]
        · rw [if_neg hnumber, if_neg hnumber, ih number]

theorem path_modify {change : Scope → Scope}
    (hchange : ∀ scope, (change scope).parent = scope.parent) (scopes : Scopes)
    (changed number : Nat) :
    (scopes.modify changed change).path number =
      (scopes.path number).map (changeAt changed change) :=
  pathIn_modifyIn hchange scopes.stack changed number

/-- A path without its first scope is not touched by a change of that scope. -/
theorem path_modify_self {change : Scope → Scope}
    (hchange : ∀ scope, (change scope).parent = scope.parent) {scopes : Scopes} {number : Nat}
    {scope : Scope} {older : List (Nat × Scope)}
    (hpath : scopes.path number = (number, scope) :: older)
    (holder : ∀ entry ∈ older, entry.1 < number) :
    (scopes.modify number change).path number = (number, change scope) :: older := by
  rw [path_modify hchange, hpath, List.map_cons, map_changeAt_of_lt change holder]
  simp [changeAt]

/-- A change of one scope is not seen where it does not concern what is searched for. -/
theorem findSome?_path_modify {β : Type} {scopes : Scopes} {number : Nat} {change : Scope → Scope}
    (hparent : ∀ scope, (change scope).parent = scope.parent) (look : Scope → Option β)
    (hlook : ∀ scope, look (change scope) = look scope) (changed : Nat) :
    ((scopes.modify changed change).path number).findSome? (fun entry => look entry.2) =
      (scopes.path number).findSome? fun entry => look entry.2 := by
  rw [path_modify hparent, List.findSome?_map]
  congr 1
  funext entry
  by_cases hentry : entry.1 = changed
  · simp [changeAt, hentry, hlook]
  · simp [changeAt, hentry]

theorem modify_modify (scopes : Scopes) (number : Nat) (first second : Scope → Scope) :
    (scopes.modify number first).modify number second =
      scopes.modify number fun scope => second (first scope) := by
  obtain ⟨stack⟩ := scopes
  simp only [modify, mk.injEq]
  induction stack with
  | nil => rfl
  | cons scope older ih =>
      by_cases hnumber : number = older.length
      · simp [modifyIn, hnumber]
      · simp [modifyIn, hnumber, ih]

theorem modify_comm_of_ne (scopes : Scopes) {number other : Nat} (h : number ≠ other)
    (first second : Scope → Scope) :
    (scopes.modify number first).modify other second =
      (scopes.modify other second).modify number first := by
  obtain ⟨stack⟩ := scopes
  simp only [modify, mk.injEq]
  induction stack with
  | nil => rfl
  | cons scope older ih =>
      by_cases hnumber : number = older.length
      · subst hnumber
        simp [modifyIn, h.symm]
      · by_cases hother : other = older.length
        · subst hother
          simp [modifyIn, h]
        · simp [modifyIn, hnumber, hother, ih]

/-- Changes of scopes may trade places, if they may where both concern one scope. -/
theorem modify_comm (scopes : Scopes) (number other : Nat) {first second : Scope → Scope}
    (h : ∀ scope, second (first scope) = first (second scope)) :
    (scopes.modify number first).modify other second =
      (scopes.modify other second).modify number first := by
  by_cases hnumber : number = other
  · subst hnumber
    rw [modify_modify, modify_modify, funext h]
  · exact modify_comm_of_ne scopes hnumber first second

theorem modify_id (scopes : Scopes) (number : Nat) :
    (scopes.modify number fun scope => scope) = scopes := by
  obtain ⟨stack⟩ := scopes
  simp only [modify, mk.injEq]
  induction stack with
  | nil => rfl
  | cons scope older ih =>
      by_cases hnumber : number = older.length
      · simp [modifyIn, hnumber]
      · simp [modifyIn, hnumber, ih]

/-- Taking off the frame that was just put on a scope restores all scopes. -/
@[simp]
theorem popFrame_pushFrame (scopes : Scopes) (number : Nat) (frame : Frame) :
    (scopes.pushFrame number frame).popFrame number = scopes := by
  rw [popFrame, pushFrame, modify_modify]
  exact modify_id scopes number

end Stylesheet.Scopes
