import Mathlib.Data.List.Forall2
import Stylesheet.Proofs.StackUnderflow

/-!
Programs that only concatenate. Whatever the order in which the values are put together, the text
that comes out is that of all values in the order they were pushed. At each moment a value on the
stack stands for a portion of what was pushed, as it was or joined to one text; the portions on the
stack, from the bottom up, are all that was pushed so far.
-/

namespace Stylesheet

namespace Term

/-- Does the term push a value as it is, or concatenate two? -/
def joins : Term → Bool
  | .constant .. | .reference .. | .operator .concat _ => true
  | _ => false

def isConcat : Term → Bool
  | .operator .concat _ => true
  | _ => false

/-- The value that a term pushes without taking any, if variables have the given values. -/
def pushed? (value : String → Option Value) : Term → Option (Option Value)
  | .constant v _ => some (some v)
  | .reference name _ => some (value name)
  | _ => none

/-- The values that are pushed, in the order of the program; nested expressions push theirs where
they stand. -/
def pushed (value : String → Option Value) (terms : List Term) : List (Option Value) :=
  (flatAll terms).filterMap (pushed? value)

section Pushed

variable (value : String → Option Value) (line : Nat) (rest : List Term)

@[simp] theorem pushed_constant (v : Value) :
    pushed value (.constant v line :: rest) = some v :: pushed value rest := rfl

@[simp] theorem pushed_reference (name : String) :
    pushed value (.reference name line :: rest) = value name :: pushed value rest := rfl

@[simp] theorem pushed_operator (op : Operator) :
    pushed value (.operator op line :: rest) = pushed value rest := rfl

/-- What a group pushes by its terms comes before the rest. -/
@[simp] theorem pushed_group (inner : List Term) :
    pushed value (.group inner line :: rest) = pushed value inner ++ pushed value rest := by
  rw [pushed, flatAll, flat, List.filterMap_append]
  rfl

end Pushed

/-- The terms push values and concatenate them, and do nothing else. They may do so in nested
expressions, if each of these leaves one value. -/
structure OnlyJoins (terms : List Term) : Prop where
  joins : ∀ t ∈ flatAll terms, t.joins
  nested : ∀ inner ∈ groups terms, height? 0 inner = some 1

namespace OnlyJoins

variable {first : Term} {inner rest : List Term} {line : Nat}

/-- The terms behind the first one only join, too. -/
theorem behind (h : OnlyJoins (first :: rest)) : OnlyJoins rest where
  joins t ht := by
    apply h.joins t
    rw [flatAll]
    exact List.mem_append_right _ ht
  nested deeper hdeeper := h.nested deeper (groups_mono (nestedAll_behind first rest) hdeeper)

/-- So do the terms of a group. -/
theorem inside (h : OnlyJoins (.group inner line :: rest)) : OnlyJoins inner where
  joins t ht := by
    apply h.joins t
    rw [flatAll, flat]
    exact List.mem_append_left _ ht
  nested deeper hdeeper := h.nested deeper (mem_groups_inside (List.mem_cons_of_mem _ hdeeper))

theorem height?_inside (h : OnlyJoins (.group inner line :: rest)) : height? 0 inner = some 1 :=
  h.nested inner (mem_groups_inside List.mem_cons_self)

/-- The only operator is concatenation. -/
theorem eq_concat {op : Operator} (h : OnlyJoins (.operator op line :: rest)) : op = .concat := by
  have hjoins : (Term.operator op line).joins := h.joins _ List.mem_cons_self
  cases op <;> simp [Term.joins] at hjoins
  rfl

theorem not_call {name : String} {argc : Nat} : ¬ OnlyJoins (.call name argc line :: rest) := by
  intro h
  have hjoins : (Term.call name argc line).joins := h.joins _ List.mem_cons_self
  cases hjoins

end OnlyJoins

/-- Each concatenation makes one value of two, so the values pushed are as many as those left and
the concatenations. -/
theorem height_add_pushed (value : String → Option Value) :
    ∀ (terms : List Term) {height last : Nat}, OnlyJoins terms →
    height? height terms = some last →
    height + (pushed value terms).length = last + (flatAll terms).countP isConcat
  | [], _, _, _, h => by
      cases h
      rfl
  | first :: rest, height, last, hjoins, h => by
      obtain ⟨htakes, hrest⟩ := height?_cons h
      have hlater := height_add_pushed value rest hjoins.behind hrest
      rw [flatAll, List.countP_append]
      cases first with
      | constant | reference =>
          simp [flat, isConcat, takes] at hlater ⊢
          omega
      | operator op line =>
          obtain rfl := hjoins.eq_concat
          simp [flat, isConcat, takes, Operator.arity] at hlater htakes ⊢
          omega
      | call name argc line => exact absurd hjoins OnlyJoins.not_call
      | group inner line =>
          have hinner := height_add_pushed value inner hjoins.inside hjoins.height?_inside
          simp [flat, takes] at hlater hinner ⊢
          omega

end Term

/-- A value of the stack stands for some of the values that were pushed: for one as it is, or for
more, which are joined to one text. -/
inductive StandsFor : Option Value → List (Option Value) → Prop where
  | alone (v : Option Value) : StandsFor v [v]
  | joined {values : List (Option Value)} (h : 2 ≤ values.length) :
      StandsFor (some (.str (String.join (values.map Operator.plainText)))) values

namespace StandsFor

variable {v w : Option Value} {values others : List (Option Value)}

/-- The plain text of a joined value is that of its parts in order. -/
theorem plainText_eq (h : StandsFor v values) :
    Operator.plainText v = String.join (values.map Operator.plainText) := by
  cases h with
  | alone => simp
  | joined => rfl

theorem length_pos (h : StandsFor v values) : 0 < values.length := by
  cases h with
  | alone => simp
  | joined hmany => omega

/-- A text that is read again for the next concatenation adds just its content. -/
theorem concat (hv : StandsFor v values) (hw : StandsFor w others) :
    StandsFor (some (.str (Operator.plainText v ++ Operator.plainText w))) (values ++ others) := by
  have hmany : 2 ≤ (values ++ others).length := by
    have hfirst := hv.length_pos
    have hsecond := hw.length_pos
    rw [List.length_append]
    omega
  rw [hv.plainText_eq, hw.plainText_eq, ← String.join_append, ← List.map_append]
  exact .joined hmany

/-- A value that was joined is a string. -/
theorem eq_str (h : StandsFor v values) (hmany : 2 ≤ values.length) :
    v = some (.str (String.join (values.map Operator.plainText))) := by
  cases h with
  | alone => simp at hmany
  | joined => rfl

end StandsFor

namespace Eval

variable {host : Host} {invoke : Invoke} {scope : Nat}

theorem run_constant (v : Value) (line : Nat) (rest : List Term) (stack : Stack) :
    run host invoke scope stack (.constant v line :: rest) =
      run host invoke scope (some v :: stack) rest := by
  rw [run_cons]
  rfl

theorem run_reference (name : String) (line : Nat) (rest : List Term) (stack : Stack)
    (scopes : Scopes) :
    run host invoke scope stack (.reference name line :: rest) scopes =
      run host invoke scope (scopes.valueOf host scope name :: stack) rest scopes := by
  rw [run_cons]
  rfl

theorem run_concat (line : Nat) (rest : List Term) (below : Stack) (v w : Option Value) :
    run host invoke scope (w :: v :: below) (.operator .concat line :: rest) =
      run host invoke scope
        (some (.str (Operator.plainText v ++ Operator.plainText w)) :: below) rest := by
  rw [run_cons]
  rfl

/-- A group leaves its single value on the stack. -/
theorem run_group {inner : List Term} {scopes last : Scopes} {v : Option Value}
    (h : run host invoke scope [] inner scopes = .ok [v] last) (line : Nat) (rest : List Term)
    (stack : Stack) :
    run host invoke scope stack (.group inner line :: rest) scopes =
      run host invoke scope (v :: stack) rest last := by
  have hterm : term host invoke scope (.group inner line) scopes = .ok v last := by
    rw [term, Render.bind_of_ok h]
    rfl
  rw [run, Render.bind_of_ok hterm]
  all_goals simp

/-- One value that is left stands for everything. -/
theorem standsFor_alone {terms : List Term} {scopes last : Scopes} {left : Stack}
    {whole : List (List (Option Value))} {values : List (Option Value)}
    (hrun : run host invoke scope [] terms scopes = .ok left last)
    (hone : Term.height? 0 terms = some 1) (hleft : List.Forall₂ StandsFor left whole)
    (hwhole : whole.reverse.flatten = values) : ∃ v, left = [v] ∧ StandsFor v values := by
  obtain ⟨v, rfl⟩ := List.length_eq_one_iff.mp (length_of_run hrun hone)
  obtain ⟨portion, rfl⟩ := List.length_eq_one_iff.mp hleft.length_eq.symm
  obtain rfl : portion = values := by simpa using hwhole
  exact ⟨v, rfl, (List.forall₂_cons.mp hleft).1⟩

/-- Terms that only concatenate succeed without a change of the scopes, and what is on the stack
afterwards stands for what it stood for before and for all that they push. -/
theorem run_standsFor (scopes : Scopes) : ∀ (terms : List Term) {stack : Stack}
    {portions : List (List (Option Value))} {height : Nat}, Term.OnlyJoins terms →
    Term.height? stack.length terms = some height → List.Forall₂ StandsFor stack portions →
    ∃ next after, run host invoke scope stack terms scopes = .ok next scopes ∧
      List.Forall₂ StandsFor next after ∧
      after.reverse.flatten =
        portions.reverse.flatten ++ Term.pushed (scopes.valueOf host scope) terms
  | [], stack, portions, _, _, _, hstack =>
      ⟨stack, portions, rfl, hstack, (List.append_nil _).symm⟩
  | .constant v line :: rest, stack, portions, _, hjoins, hheight, hstack => by
      have hrest : Term.height? (some v :: stack).length rest = some _ :=
        (Term.height?_cons hheight).2
      obtain ⟨next, after, hrun, hnext, hall⟩ :=
        run_standsFor scopes rest hjoins.behind hrest (.cons (.alone (some v)) hstack)
      refine ⟨next, after, (congrFun (run_constant v line rest stack) scopes).trans hrun, hnext, ?_⟩
      simp [hall]
  | .reference name line :: rest, stack, portions, _, hjoins, hheight, hstack => by
      have hrest : Term.height? (scopes.valueOf host scope name :: stack).length rest = some _ :=
        (Term.height?_cons hheight).2
      obtain ⟨next, after, hrun, hnext, hall⟩ := run_standsFor scopes rest hjoins.behind hrest
        (.cons (.alone (scopes.valueOf host scope name)) hstack)
      refine ⟨next, after, (run_reference name line rest stack scopes).trans hrun, hnext, ?_⟩
      simp [hall]
  | .operator op line :: rest, stack, portions, _, hjoins, hheight, hstack => by
      obtain rfl := hjoins.eq_concat
      obtain ⟨htakes, hrest⟩ := Term.height?_cons hheight
      cases hstack with
      | nil => simp [Term.takes, Operator.arity] at htakes
      | @cons w others stack portions hw hstack =>
          cases hstack with
          | nil => simp [Term.takes, Operator.arity] at htakes
          | @cons v values below portions hv hbelow =>
              have hrest : Term.height?
                  (some (.str (Operator.plainText v ++ Operator.plainText w)) :: below).length
                  rest = some _ := hrest
              obtain ⟨next, after, hrun, hnext, hall⟩ :=
                run_standsFor scopes rest hjoins.behind hrest (.cons (hv.concat hw) hbelow)
              refine ⟨next, after, (congrFun (run_concat line rest below v w) scopes).trans hrun,
                hnext, ?_⟩
              simp [hall]
  | .call name argc line :: rest, _, _, _, hjoins, _, _ => absurd hjoins Term.OnlyJoins.not_call
  | .group inner line :: rest, stack, portions, _, hjoins, hheight, hstack => by
      have hinner : Term.height? ([] : Stack).length inner = some 1 := hjoins.height?_inside
      obtain ⟨left, whole, hleft, hstands, hwhole⟩ :=
        run_standsFor scopes inner hjoins.inside hinner .nil
      obtain ⟨v, rfl, hv⟩ := standsFor_alone hleft hinner hstands hwhole
      have hrest : Term.height? (v :: stack).length rest = some _ := (Term.height?_cons hheight).2
      obtain ⟨next, after, hrun, hnext, hall⟩ :=
        run_standsFor scopes rest hjoins.behind hrest (.cons hv hstack)
      refine ⟨next, after, (run_group hleft line rest stack).trans hrun, hnext, ?_⟩
      simp [hall]

end Eval

/-- An expression that only pushes values and concatenates them, at least once, and that leaves one
value by count: it succeeds, in whatever order it concatenates, and its value is the text of all
that it pushes in the order of the program. A string adds its content as it is, an absent value
adds nothing, and the scopes stay as they are. -/
theorem concatenation_in_push_order (host : Host) (invoke : Invoke) (scope : Nat) (scopes : Scopes)
    (e : Expr) (hjoins : Term.OnlyJoins e.terms) (hone : Term.height? 0 e.terms = some 1)
    (hconcat : ∃ line, .operator .concat line ∈ Term.flatAll e.terms) :
    Eval.expr host invoke scope e scopes =
      .ok (some (.str (String.join
        ((Term.pushed (scopes.valueOf host scope) e.terms).map Operator.plainText)))) scopes := by
  have hcount := Term.height_add_pushed (scopes.valueOf host scope) e.terms hjoins hone
  have hsome : 0 < (Term.flatAll e.terms).countP Term.isConcat := by
    obtain ⟨line, hline⟩ := hconcat
    exact List.countP_pos_iff.mpr ⟨_, hline, rfl⟩
  have hempty : Term.height? ([] : Stack).length e.terms = some 1 := hone
  obtain ⟨left, whole, hrun, hstands, hwhole⟩ :=
    Eval.run_standsFor scopes e.terms hjoins hempty .nil
  obtain ⟨v, rfl, hv⟩ := Eval.standsFor_alone hrun hone hstands hwhole
  have hmany : 2 ≤ (Term.pushed (scopes.valueOf host scope) e.terms).length := by omega
  rw [Eval.expr, Render.bind_of_ok hrun, hv.eq_str hmany]
  rfl

/-- Values are kept back and concatenated from the right, some in a nested expression, around a
variable that has no value. -/
def joinedFromRight : Expr :=
  ⟨[.constant (.str "a\"") 1, .reference "x" 1, .constant (.ident "b") 1, .operator .concat 1,
    .group [.constant (.bool true) 2, .constant (.str "\\") 2, .operator .concat 2] 2,
    .operator .concat 1, .operator .concat 1], 1⟩

theorem concatenation_in_push_order_joinedFromRight :
    Term.OnlyJoins joinedFromRight.terms ∧ Term.height? 0 joinedFromRight.terms = some 1 ∧
      (∃ line, .operator .concat line ∈ Term.flatAll joinedFromRight.terms) ∧
      Eval.expr .nothing (Eval.invoke .nothing 0 0) 0 joinedFromRight .initial =
        .ok (some (.str "a\"btrue\\")) .initial := by
  have hjoins : Term.OnlyJoins joinedFromRight.terms := ⟨by decide, by decide⟩
  have hone : Term.height? 0 joinedFromRight.terms = some 1 := rfl
  have hconcat : ∃ line, .operator .concat line ∈ Term.flatAll joinedFromRight.terms :=
    ⟨2, by simp [joinedFromRight, Term.flatAll, Term.flat]⟩
  have hvalue := concatenation_in_push_order .nothing (Eval.invoke .nothing 0 0) 0 .initial
    joinedFromRight hjoins hone hconcat
  exact ⟨hjoins, hone, hconcat, hvalue.trans rfl⟩

end Stylesheet
