import Mathlib.Algebra.BigOperators.Group.List.Basic
import Mathlib.Data.List.ProdSigma
import Mathlib.Tactic.Ring
import Stylesheet.Proofs.BetweenNodes

/-!
The selectors of rules inside rules. An own selector adds the same suffix to every selector around
it, and flattening goes through all pairs, the own selectors in the outer loop. Over many levels
this makes the selectors of the innermost rule a table with one dimension for each rule on the way
to it, the top rule varying fastest.

Three levels may be flattened from the outside or from the inside. The two agree unless the suffix
of an inner selector shows up at the very start of the combined one, where its marker would be read
a second time: this takes an empty selector in the middle and a doubled marker behind it.
-/

namespace Stylesheet

namespace Selector

/-- What an own selector adds to each selector around it: the rest of it behind the marker, or
itself behind a space. -/
def suffix (own : String) : String :=
  match own.toList with
  | '&' :: rest => String.ofList rest
  | _ => " " ++ own

theorem extend_eq (outer own : String) : extend outer own = outer ++ suffix own := by
  unfold extend suffix
  grind [String.append_assoc]

theorem suffix_of_marker {own : String} {rest : List Char} (h : own.toList = '&' :: rest) :
    suffix own = String.ofList rest := by
  simp only [suffix, h]

theorem suffix_of_no_marker {own : String} (h : own.toList.head? ≠ some '&') :
    suffix own = " " ++ own := by
  unfold suffix
  split
  · next hmarker => simp [hmarker] at h
  · rfl

/-- Only the first character decides between the two forms, so what stands behind a selector that
is not empty stands behind its suffix too. -/
theorem suffix_append {own : String} (hown : own ≠ "") (more : String) :
    suffix (own ++ more) = suffix own ++ more := by
  obtain ⟨first, rest, hchars⟩ : ∃ first rest, own.toList = first :: rest :=
    List.exists_cons_of_ne_nil (by simpa using hown)
  have hmore : (own ++ more).toList = first :: (rest ++ more.toList) := by
    rw [String.toList_append, hchars, List.cons_append]
  by_cases hmarker : first = '&'
  · subst hmarker
    rw [suffix_of_marker hchars, suffix_of_marker hmore, String.ofList_append, String.ofList_toList]
  · have hfirst : some first ≠ some '&' := by simpa using hmarker
    rw [suffix_of_no_marker (by rwa [hmore]), suffix_of_no_marker (by rwa [hchars]),
      String.append_assoc]

/-- A suffix with a marker in front comes from a doubled marker. -/
theorem head_suffix_iff (own : String) :
    (suffix own).toList.head? = some '&' ↔ ['&', '&'] <+: own.toList := by
  by_cases hmarker : own.toList.head? = some '&'
  · obtain ⟨rest, hchars⟩ : ∃ rest, own.toList = '&' :: rest :=
      List.head?_eq_some_iff.mp hmarker
    rw [suffix_of_marker hchars, String.toList_ofList, hchars, List.cons_prefix_cons]
    cases rest <;> simp [eq_comm]
  · rw [suffix_of_no_marker hmarker, String.toList_append]
    refine iff_of_false (by simp) fun hdouble => hmarker ?_
    obtain ⟨rest, hchars⟩ := hdouble
    rw [← hchars]
    rfl

/-- Alone in the middle, a suffix keeps its place exactly if no marker is in front of it. -/
theorem suffix_suffix_iff (own : String) :
    suffix (suffix own) = " " ++ suffix own ↔ ¬ ['&', '&'] <+: own.toList := by
  rw [← head_suffix_iff]
  refine ⟨fun hsame hmarker => ?_, suffix_of_no_marker⟩
  obtain ⟨rest, hchars⟩ := List.head?_eq_some_iff.mp hmarker
  -- the marker is gone on one side, and a space has come on the other
  have hlength := congrArg (fun text => text.toList.length) hsame
  simp [suffix_of_marker hchars, String.toList_append, hchars] at hlength
  omega

theorem suffix_extend_iff (middle own : String) :
    suffix (extend middle own) = suffix middle ++ suffix own ↔
      middle ≠ "" ∨ ¬ ['&', '&'] <+: own.toList := by
  rw [extend_eq]
  by_cases hmiddle : middle = ""
  · subst hmiddle
    have hempty : suffix "" = " " := by decide
    rw [String.empty_append, hempty, suffix_suffix_iff]
    simp
  · exact iff_of_true (suffix_append hmiddle _) (.inl hmiddle)

/-- Flattening takes each own selector in turn, and for it all selectors around. -/
theorem flatten_eq_map (own outer : List String) :
    flatten own (some outer) = (own ×ˢ outer).map fun pair => pair.2 ++ suffix pair.1 := by
  simp [flatten, SProd.sprod, List.product, List.map_flatMap, Function.comp_def, extend_eq]

theorem flatten_from_outside (top middle own : List String) :
    flatten own (some (flatten middle (some top))) =
      (own ×ˢ middle ×ˢ top).map fun pick =>
        pick.2.2 ++ (suffix pick.2.1 ++ suffix pick.1) := by
  simp [flatten, SProd.sprod, List.product, List.map_flatMap, Function.comp_def, extend_eq,
    String.append_assoc]

theorem flatten_from_inside (top middle own : List String) :
    flatten (flatten own (some middle)) (some top) =
      (own ×ˢ middle ×ˢ top).map fun pick =>
        pick.2.2 ++ suffix (extend pick.2.1 pick.1) := by
  simp [flatten, SProd.sprod, List.product, List.map_flatMap, List.flatMap_assoc,
    List.flatMap_map, Function.comp_def, extend_eq]

/-- Three levels of selectors may be flattened from the outside or from the inside, with the same
selectors in the same order, but for one exception: there is a selector at the top, an empty one in
the middle and one inside that starts with a doubled marker. -/
theorem flatten_assoc_iff (top middle own : List String) :
    flatten own (some (flatten middle (some top))) =
        flatten (flatten own (some middle)) (some top) ↔
      top = [] ∨ "" ∉ middle ∨ ∀ selector ∈ own, ¬ ['&', '&'] <+: selector.toList := by
  rw [flatten_from_outside, flatten_from_inside, List.map_inj_left]
  have hpoint (pick : String × String × String) :
      pick.2.2 ++ (suffix pick.2.1 ++ suffix pick.1) =
          pick.2.2 ++ suffix (extend pick.2.1 pick.1) ↔
        pick.2.1 ≠ "" ∨ ¬ ['&', '&'] <+: pick.1.toList := by
    rw [String.append_right_inj, eq_comm, suffix_extend_iff]
  refine ⟨fun hall => ?_, ?_⟩
  · by_contra hexception
    push Not at hexception
    obtain ⟨htop, hempty, selector, hselector, hmarkers⟩ := hexception
    obtain ⟨around, haround⟩ := List.exists_mem_of_ne_nil top htop
    have hpick : (selector, "", around) ∈ own ×ˢ middle ×ˢ top :=
      List.mem_product.mpr ⟨hselector, List.mem_product.mpr ⟨hempty, haround⟩⟩
    rcases (hpoint _).mp (hall _ hpick) with hfilled | hsingle
    · exact hfilled rfl
    · exact hsingle hmarkers
  · rintro hcase ⟨selector, between, around⟩ hpick
    obtain ⟨hselector, hothers⟩ := List.mem_product.mp hpick
    obtain ⟨hbetween, haround⟩ := List.mem_product.mp hothers
    apply (hpoint _).mpr
    rcases hcase with rfl | hmiddle | hown
    · cases haround
    · exact .inl fun hempty => hmiddle (hempty ▸ hbetween)
    · exact .inr (hown selector hselector)

/-- The exception: the second marker is kept where the space comes first, and read as a marker where
it comes first. -/
example :
    flatten ["&&b"] (some (flatten [""] (some ["a"]))) = ["a &b"] ∧
      flatten (flatten ["&&b"] (some [""])) (some ["a"]) = ["ab"] := by
  decide

/-- The selectors of the innermost of nested rules, from the own selectors of each of them: those of
the top rule as they are, then one level after the other. -/
def nested (top : List String) (inner : List (List String)) : List String :=
  inner.foldl (fun outer own => flatten own (some outer)) (flatten top none)

theorem nested_append (top : List String) (inner : List (List String)) (own : List String) :
    nested top (inner ++ [own]) = flatten own (some (nested top inner)) := by
  rw [nested, List.foldl_append]
  rfl

/-- One selector out of the own ones of a rule. -/
structure Pick where
  own : List String
  index : Fin own.length

namespace Pick

def selector (pick : Pick) : String := pick.own.get pick.index

/-- Where the picked selectors of nested rules meet in the flattened list: a number with one digit
for each rule, the top rule coming first here and counting least. -/
def position : List Pick → Nat
  | [] => 0
  | pick :: inner => position inner * pick.own.length + pick.index

end Pick

@[simp] theorem length_flatten (own outer : List String) :
    (flatten own (some outer)).length = own.length * outer.length := by
  rw [flatten_eq_map, List.length_map, List.length_product]

theorem getElem?_flatten {own outer : List String} {j i : Nat} {selector around : String}
    (hown : own[j]? = some selector) (houter : outer[i]? = some around) :
    (flatten own (some outer))[j * outer.length + i]? = some (around ++ suffix selector) := by
  have hi : i < outer.length := (List.getElem?_eq_some_iff.mp houter).1
  induction own generalizing j with
  | nil => simp at hown
  | cons first rest ih =>
      have hsplit : flatten (first :: rest) (some outer) =
          outer.map (extend · first) ++ flatten rest (some outer) := rfl
      rw [hsplit]
      cases j with
      | zero =>
          obtain rfl : first = selector := by simpa using hown
          rw [List.getElem?_append_left (by simpa using hi)]
          simp [houter, extend_eq]
      | succ j =>
          have hpast : (j + 1) * outer.length + i = outer.length + (j * outer.length + i) := by ring
          rw [hpast, List.getElem?_append_right (by simp)]
          simpa using ih (by simpa using hown)

/-- From selectors around on, every rule inside multiplies their number and goes on with what it has
picked. -/
theorem getElem?_foldl_flatten (picks : List Pick) {outer : List String} {i : Nat} {around : String}
    (houter : outer[i]? = some around) :
    ((picks.map Pick.own).foldl (fun outer own => flatten own (some outer)) outer)[
        Pick.position picks * outer.length + i]? =
      some (around ++ String.join (picks.map fun pick => suffix pick.selector)) := by
  induction picks generalizing outer i around with
  | nil => simpa [Pick.position] using houter
  | cons pick inner ih =>
      have hnext := getElem?_flatten (List.getElem?_eq_getElem pick.index.isLt) houter
      have hposition : Pick.position (pick :: inner) * outer.length + i =
          Pick.position inner * (flatten pick.own (some outer)).length +
            (pick.index * outer.length + i) := by
        rw [Pick.position, length_flatten]
        ring
      rw [List.map_cons, List.foldl_cons, hposition, ih hnext, List.map_cons, String.join_cons,
        String.append_assoc]
      rfl

theorem length_foldl_flatten (inner : List (List String)) (outer : List String) :
    (inner.foldl (fun outer own => flatten own (some outer)) outer).length =
      outer.length * (inner.map List.length).prod := by
  induction inner generalizing outer with
  | nil => simp
  | cons own inner ih =>
      rw [List.foldl_cons, ih, length_flatten, List.map_cons, List.prod_cons]
      ring

end Selector

namespace Render

variable {σ : Type} [Sink σ] {setting : Setting}

theorem block_of_write {act : Page.Write σ Unit} {block after written : Block}
    {progress last : Progress σ} {pieces : List String} {blocks : Nat}
    (hputs : Page.Puts act progress.page block pieces blocks written)
    (h : write block act progress = .ok after last) : after = written := by
  unfold write at h
  cases hall : Sink.writeAll pieces progress.page.sink with
  | ok _ sink =>
      rw [hputs.ok hall] at h
      cases h
      rfl
  | error reason sink =>
      obtain ⟨count, state, herror⟩ := hputs.error hall
      rw [herror] at h
      cases h

/-- A block is opened and closed on the way, but its head stays. -/
theorem head_of_node {scope : Nat} {selectors : List String} {block after : Block} {n : Node}
    {progress last : Progress σ}
    (h : node setting scope selectors block n progress = .ok after last) :
    after.head = block.head := by
  cases n with
  | rule own children line =>
      obtain ⟨closed, middle, hclose, hinside⟩ := ok_of_bind h
      obtain ⟨_, _, -, hlast⟩ := ok_of_bind hinside
      cases hlast
      rw [block_of_write (Page.close_puts _ _) hclose]
  | declaration property terms line =>
      obtain ⟨present, middle, -, hwrite⟩ := ok_of_bind h
      rw [block_of_write (Page.declaration_puts _ _ _ _) hwrite]
  | assignment name e line =>
      obtain ⟨_, _, -, hlast⟩ := ok_of_bind h
      cases hlast
      rfl
  | function definition =>
      obtain ⟨_, _, -, hlast⟩ := ok_of_bind h
      cases hlast
      rfl

/-- The rule at hand has the selectors that belong to its place, and its block their head. -/
def Point.HeadedBy (point : Point σ) : List (List String) → Prop
  | [] => point.around = none
  | top :: inner => ∃ around, point.around = some around ∧
      around.selectors = Selector.nested top inner ∧
      around.block.head = Selector.head (Selector.nested top inner)

namespace Point.HeadedBy

variable {point next : Point σ} {path : List (List String)}

theorem passes (h : point.HeadedBy path) (hstep : point.Passes setting next) :
    next.HeadedBy path := by
  cases hstep with
  | top hrun =>
      cases path with
      | nil => rfl
      | cons top inner =>
          obtain ⟨around, hnone, -⟩ := h
          cases hnone
  | within hrun =>
      cases path with
      | nil => cases h
      | cons top inner =>
          obtain ⟨around, haround, hselectors, hhead⟩ := h
          cases haround
          exact ⟨_, rfl, hselectors, (head_of_node hrun).trans hhead⟩

theorem enters (h : point.HeadedBy path) {own : List String} {children rest : List Node}
    {line : Nat} (hrest : point.rest = .rule own children line :: rest)
    (hstep : point.Enters next) : next.HeadedBy (path ++ [own]) := by
  cases hstep with
  | top =>
      cases hrest
      cases path with
      | nil => exact ⟨_, rfl, rfl, rfl⟩
      | cons top inner =>
          obtain ⟨around, hnone, -⟩ := h
          cases hnone
  | within hclose =>
      cases hrest
      cases path with
      | nil => cases h
      | cons top inner =>
          obtain ⟨around, haround, hselectors, -⟩ := h
          cases haround
          rw [List.cons_append, HeadedBy, Selector.nested_append, ← hselectors]
          exact ⟨_, rfl, rfl, rfl⟩

end Point.HeadedBy

end Render

namespace Sheet

open Render

variable {σ : Type} [Sink σ]

/-- The points that a rendering of the sheet comes by, each with the own selectors of the rules
around it, the top one first. -/
inductive ReachesIn (sheet : Sheet) (setting : Setting) (sink : σ) :
    List (List String) → Point σ → Prop where
  | start : ReachesIn sheet setting sink [] ⟨none, sheet.children, { page := { sink } }⟩
  | passes {path : List (List String)} {point next : Point σ}
      (h : ReachesIn sheet setting sink path point) (hstep : point.Passes setting next) :
      ReachesIn sheet setting sink path next
  | enters {path : List (List String)} {point next : Point σ} {own : List String}
      {children rest : List Node} {line : Nat} (h : ReachesIn sheet setting sink path point)
      (hrest : point.rest = .rule own children line :: rest) (hstep : point.Enters next) :
      ReachesIn sheet setting sink (path ++ [own]) next

theorem ReachesIn.headedBy {sheet : Sheet} {setting : Setting} {sink : σ}
    {path : List (List String)} {point : Point σ} (h : sheet.ReachesIn setting sink path point) :
    point.HeadedBy path := by
  induction h with
  | start => rfl
  | passes _ hstep ih => exact ih.passes hstep
  | enters _ hrest hstep ih => exact ih.enters hrest hstep

end Sheet

/-- The selectors of nested rules, told apart by what is picked in each rule. There are as many as
ways to pick; the picks in all rules, read as the digits of a number, tell where their selector
stands; and it is the one picked in the top rule with the suffix of each further pick behind it.
These are the selectors that a rendering works with inside these rules, and the head of the block
it writes there is made of them. -/
theorem nested_selectors_by_picks :
    (∀ (top : List String) (inner : List (List String)),
      (Selector.nested top inner).length = ((top :: inner).map List.length).prod) ∧
    (∀ (first : Selector.Pick) (others : List Selector.Pick),
      (Selector.nested first.own (others.map Selector.Pick.own))[
          Selector.Pick.position (first :: others)]? =
        some (first.selector ++
          String.join (others.map fun pick => Selector.suffix pick.selector))) ∧
    (∀ (σ : Type) [Sink σ] (sheet : Sheet) (setting : Render.Setting) (sink : σ)
      (top : List String) (inner : List (List String)) (point : Render.Point σ),
      sheet.ReachesIn setting sink (top :: inner) point →
        ∃ around, point.around = some around ∧
          around.selectors = Selector.nested top inner ∧
          around.block.head = Selector.head (Selector.nested top inner)) := by
  refine ⟨?_, ?_, fun σ _ sheet setting sink top inner point h => h.headedBy⟩
  · intro top inner
    rw [List.map_cons, List.prod_cons]
    exact Selector.length_foldl_flatten inner top
  · intro first others
    exact Selector.getElem?_foldl_flatten others
      (List.getElem?_eq_getElem first.index.isLt)

/-- Three levels, with selectors of both forms inside. -/
def sheetOfLevels : Sheet :=
  ⟨[.rule ["a", "b"] [
    .declaration "top" [] 2,
    .rule ["i", "&:c"] [.rule ["&&", "u", "v"] [.declaration "left" [] 4] 4] 3] 1]⟩

/-- There are twelve selectors, and the sixth comes from the second at the top, the first in the
middle and the second inside. -/
theorem nested_selectors_by_picks_sheetOfLevels :
    ∃ (point : Render.Point Buffer) (around : Render.Surroundings),
      sheetOfLevels.ReachesIn ⟨.nothing, 0⟩ ({} : Buffer)
        [["a", "b"], ["i", "&:c"], ["&&", "u", "v"]] point ∧
      point.around = some around ∧ around.selectors.length = 12 ∧
      around.selectors[5]? = some "b i u" ∧
      around.block.head = Selector.head around.selectors := by
  have hstart : sheetOfLevels.ReachesIn ⟨.nothing, 0⟩ ({} : Buffer) []
      ⟨none, sheetOfLevels.children, { page := { sink := {} } }⟩ := .start
  have htop := hstart.enters rfl .top
  have hmiddle := (htop.passes (.within rfl)).enters rfl (.within rfl)
  have hinside := hmiddle.enters rfl (.within rfl)
  obtain ⟨hlength, hentry, hrendered⟩ := nested_selectors_by_picks
  obtain ⟨around, haround, hselectors, hhead⟩ := hrendered _ _ _ _ _ _ _ hinside
  refine ⟨_, around, hinside, haround, ?_, ?_, hselectors ▸ hhead⟩
  · rw [hselectors, hlength]
    rfl
  · rw [hselectors]
    exact hentry ⟨["a", "b"], 1⟩ [⟨["i", "&:c"], 0⟩, ⟨["&&", "u", "v"], 1⟩]

end Stylesheet
