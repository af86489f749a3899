import Stylesheet.Proofs.BetweenNodes

/-!
Rules at the top of a sheet do not see each other. What a rule defines goes into its own scope, as
long as it does not define a name of the sheet anew, and is gone when the rule ends; what it writes
depends on the definitions before it and not on what was written before. Rules that follow the same
definitions can therefore be rendered one by one, and in any order.
-/

namespace Stylesheet

namespace Bindings

variable {α : Type} (bindings : Bindings α)

theorem restrict_names : bindings.restrict bindings.names = bindings := by
  have hall (entry : String × α) (hentry : entry ∈ bindings.entries) :
      bindings.names.contains entry.1 = true := by
    have hname : entry.1 ∈ bindings.names := List.mem_map.mpr ⟨entry, hentry, rfl⟩
    simpa using hname
  rw [restrict, List.filter_eq_self.mpr hall]

/-- A new name is dropped again when the rule is left. -/
theorem restrict_insert {names : List String} {name : String} (h : name ∉ names) (a : α) :
    (bindings.insert name a).restrict names = bindings.restrict names := by
  have hother (entry : String × α) (hkept : names.contains entry.1 = true) :
      (entry.1 != name) = true := by
    have hmem : entry.1 ∈ names := by simpa using hkept
    have hne : entry.1 ≠ name := fun heq => h (heq ▸ hmem)
    simpa using hne
  simp only [restrict, insert, List.filter_cons, List.filter_filter]
  rw [if_neg (by simpa using h)]
  congr 1
  apply List.filter_congr
  intro entry _
  cases hkept : names.contains entry.1 with
  | false => rfl
  | true => simp [hother entry hkept]

theorem restrict_restrict {names more : List String} (h : names ⊆ more) :
    (bindings.restrict more).restrict names = bindings.restrict names := by
  simp only [restrict, List.filter_filter]
  congr 1
  apply List.filter_congr
  intro entry _
  cases hkept : names.contains entry.1 with
  | false => rfl
  | true =>
      have hmem : entry.1 ∈ names := by simpa using hkept
      simpa using h hmem

/-- Bindings that restrict to the base have all of its names. -/
theorem names_subset_of_restrict {base : Bindings α} (h : bindings.restrict base.names = base) :
    base.names ⊆ bindings.names := by
  intro name hname
  have hfound : (base.find? name).isSome := mem_names_iff.mp hname
  rw [← h, find?_restrict, if_pos hname] at hfound
  exact mem_names_iff.mpr hfound

end Bindings

namespace Store

/-- Without the names that the base does not bind, the store is the base. -/
structure Extends (base store : Store) : Prop where
  values : store.values.restrict base.values.names = base.values
  functions : store.functions.restrict base.functions.names = base.functions

variable {base store before after : Store}

theorem Extends.refl (base : Store) : base.Extends base :=
  ⟨base.values.restrict_names, base.functions.restrict_names⟩

/-- A store that extends the base gives it back. -/
theorem Extends.restrict_eq (h : base.Extends store) : store.restrict base.domain = base := by
  rw [Store.restrict, domain, h.values, h.functions]

/-- A variable that the base does not bind extends it. -/
theorem Extends.setVariable (h : base.Extends store) {name : String}
    (hname : ¬ base.Binds .value name) (value : Option Value) :
    base.Extends (store.setVariable name value) where
  values := by
    have hnew : name ∉ base.values.names := mt Bindings.mem_names_iff.mp hname
    rw [Store.setVariable, Bindings.restrict_insert _ hnew, h.values]
  functions := h.functions

theorem Extends.setFunction (h : base.Extends store) {f : FunctionDef}
    (hname : ¬ base.Binds .function f.name) : base.Extends (store.setFunction f) where
  values := h.values
  functions := by
    have hnew : f.name ∉ base.functions.names := mt Bindings.mem_names_iff.mp hname
    rw [Store.setFunction, Bindings.restrict_insert _ hnew, h.functions]

theorem Extends.restrict (hbefore : base.Extends before) (hafter : base.Extends after) :
    base.Extends (after.restrict before.domain) where
  values := by
    have hnames := before.values.names_subset_of_restrict hbefore.values
    rw [Store.restrict, domain, Bindings.restrict_restrict _ hnames, hafter.values]
  functions := by
    have hnames := before.functions.names_subset_of_restrict hbefore.functions
    rw [Store.restrict, domain, Bindings.restrict_restrict _ hnames, hafter.functions]

/-- Extending the base is kept by all that rendering does to a store. -/
theorem extends_invariant {σ : Type} [Sink σ] (base : Store) :
    FlatRender.Invariant σ base.Extends fun _ => True where
  sink := fun _ _ => trivial
  restrict := Extends.restrict

end Store

namespace FlatRender

variable {σ : Type} [Sink σ] {setting : Render.Setting} {base : Store}

/-- A leaf that defines none of the base's names keeps extending it. -/
theorem leafAgrees_of_apart {leaf : Node}
    (h : ∀ kind name, leaf.definition? = some (kind, name) → ¬ base.Binds kind name) :
    LeafAgrees setting setting base.Extends (fun _ => True) leaf := by
  cases leaf with
  | rule own children line => trivial
  | declaration property values line => exact fun _ _ _ _ => ⟨rfl, fun _ _ => trivial⟩
  | assignment name e line =>
      intro store hstore
      exact ⟨⟨rfl, fun _ _ => trivial⟩, hstore.setVariable (h .value name rfl)⟩
  | function f =>
      intro store hstore
      exact hstore.setFunction (h .function f.name rfl)

/-- A rule that defines no name of the store leaves the store as it was. -/
theorem rule_restores_store {r : Node} (hrule : r.isRule)
    (h : ∀ kind name, r.Defines kind name → ¬ base.Binds kind name) :
    Agrees (· = base) (· = base) (fun _ => True) (topNodes setting [r] : FlatRender σ Unit)
      (topNodes setting [r]) := by
  refine Agrees.bind ?_ fun _ => .pure ()
  cases r with
  | declaration property values line => cases hrule
  | assignment name e line => cases hrule
  | function f => cases hrule
  | rule own children line =>
      intro progress hstart
      have hI : Invariant σ base.Extends fun _ => True := Store.extends_invariant base
      have hend : Agrees base.Extends (· = base) (fun _ => True)
          (changeStore fun store => store.restrict progress.store.domain : FlatRender σ Unit)
          (changeStore fun store => store.restrict progress.store.domain) := by
        apply changeStore_agrees
        intro store hstore
        rw [hstart, hstore.restrict_eq]
      have hleaves (leaf : Node) (hleaf : leaf ∈ Node.leavesOf children) :
          LeafAgrees setting setting base.Extends (fun _ => True) leaf :=
        leafAgrees_of_apart fun kind name hname => h kind name ⟨leaf, hleaf, hname⟩
      have hinside := (nodes_agrees hI (Selector.flatten own none)
        { head := Selector.head (Selector.flatten own none) } children hleaves).bind
          fun block => (close_agrees hI block).bind fun _ => hend
      exact hinside progress (hstart ▸ Store.Extends.refl base)

theorem topNode_of_definition {d : Node} (hd : d.definition?.isSome)
    {progress last : FlatProgress σ} (hrun : topNode setting d progress = .ok () last) :
    last.page = progress.page ∧ ∀ kind name, last.store.Binds kind name →
      progress.store.Binds kind name ∨ d.definition? = some (kind, name) := by
  cases d with
  | rule own children line => cases hd
  | declaration property values line => cases hd
  | function f =>
      cases hrun
      refine ⟨rfl, fun kind name hname => ?_⟩
      exact (Store.binds_setFunction.mp hname).imp_right fun heq => congrArg some heq.symm
  | assignment target e line =>
      obtain ⟨value, middle, hvalue, hset⟩ := Render.ok_of_bind hrun
      cases hset
      unfold compute at hvalue
      dsimp only at hvalue
      split at hvalue
      · cases hvalue
        refine ⟨rfl, fun kind name hname => ?_⟩
        exact (Store.binds_setVariable.mp hname).imp_right fun heq => congrArg some heq.symm
      · cases hvalue

/-- What definitions do: they write nothing, and bind no other names than their own. -/
theorem topNodes_of_definitions {definitions : List Node}
    (hdefinitions : ∀ d ∈ definitions, d.definition?.isSome) {progress last : FlatProgress σ}
    (hrun : topNodes setting definitions progress = .ok () last) :
    last.page = progress.page ∧ ∀ kind name, last.store.Binds kind name →
      progress.store.Binds kind name ∨
        ∃ d ∈ definitions, d.definition? = some (kind, name) := by
  induction definitions generalizing progress with
  | nil =>
      cases hrun
      exact ⟨rfl, fun _ _ => .inl⟩
  | cons d rest ih =>
      obtain ⟨_, middle, hfirst, hothers⟩ := Render.ok_of_bind hrun
      obtain ⟨hpage, hbinds⟩ := topNode_of_definition (hdefinitions d List.mem_cons_self) hfirst
      obtain ⟨hlater, hlaterBinds⟩ :=
        ih (fun n hn => hdefinitions n (List.mem_cons_of_mem _ hn)) hothers
      refine ⟨hlater.trans hpage, fun kind name hname => ?_⟩
      rcases hlaterBinds kind name hname with hmiddle | ⟨n, hn, hdefines⟩
      · exact (hbinds kind name hmiddle).imp_right fun hself => ⟨d, List.mem_cons_self, hself⟩
      · exact .inr ⟨n, List.mem_cons_of_mem _ hn, hdefines⟩

/-- Two runs of a rule from the same store, one of them after pieces that were written before. -/
inductive Echoes (base : Store) (before : List String) :
    EStateM.Result Error (FlatProgress Record) Unit →
      EStateM.Result Error (FlatProgress Record) Unit → Prop where
  | ok {new : List String} {blocks others : Nat} :
      Echoes base before (.ok () ⟨base, ⟨before ++ new⟩, blocks⟩) (.ok () ⟨base, ⟨new⟩, others⟩)
  | error {error : Error} {new : List String} {store other : Store} {blocks others : Nat} :
      Echoes base before (.error error ⟨store, ⟨before ++ new⟩, blocks⟩)
        (.error error ⟨other, ⟨new⟩, others⟩)

/-- Behind definitions, a rule writes what it writes alone and gives back the store. -/
theorem rule_echoes (setting : Render.Setting) {scopes : Scopes}
    (hscopes : InStep .initial scopes base) {r : Node} (hrule : r.isRule)
    (h : ∀ kind name, r.Defines kind name → ¬ base.Binds kind name) (before : List String)
    (blocks : Nat) :
    Echoes base before (topNodes setting [r] ⟨base, ⟨before⟩, blocks⟩)
      (topNodes setting [r] ⟨base, ({} : Record), 0⟩) := by
  have hfollows := Render.topNodes_replays setting [r] scopes (⟨before⟩ : Record) [] blocks 0
  have hrun := topNodes_simulates setting [r] scopes base ⟨(⟨before⟩ : Record), blocks⟩ hscopes
  have halone := topNodes_simulates setting [r] scopes base ⟨({} : Record), 0⟩ hscopes
  have hkeeps (page : Page Record) :
      Keeps (· = base) (fun _ => True) (topNodes setting [r] ⟨base, page⟩) :=
    (rule_restores_store hrule h ⟨base, page⟩ rfl).2
  have hstore := hkeeps ⟨⟨before⟩, blocks⟩
  have hstoreAlone := hkeeps ⟨{}, 0⟩
  revert hfollows hrun halone hstore hstoreAlone
  generalize topNodes setting [r] ⟨base, (⟨before⟩ : Record), blocks⟩ = flat
  generalize topNodes setting [r] ⟨base, ({} : Record), 0⟩ = flatAlone
  generalize Render.topNodes setting [r] ⟨scopes, (⟨before⟩ : Record), blocks⟩ = result
  generalize Render.topNodes setting [r] ⟨scopes, ({} : Record), 0⟩ = resultAlone
  intro hfollows hrun halone hstore hstoreAlone
  cases hfollows with
  | @ok _ _ _ _ new after hpieces htaken =>
      rw [Record.writeAll_eq] at htaken
      cases htaken
      cases hrun
      cases halone
      cases hstore
      cases hstoreAlone
      subst hpieces
      exact .ok
  | @error _ _ _ _ new after hpieces htaken =>
      rw [Record.writeAll_eq] at htaken
      cases htaken
      cases hrun
      cases halone
      subst hpieces
      exact .error
  | refused hpieces hrefused =>
      rw [Record.writeAll_eq] at hrefused
      cases hrefused

/-- A rule that succeeds alone succeeds after others. -/
theorem Echoes.of_ok {before : List String}
    {result single : EStateM.Result Error (FlatProgress Record) Unit}
    (h : Echoes base before result single) (hok : (rendering single).result = .ok ()) :
    ∃ blocks, result =
      .ok () ⟨base, ⟨before ++ (rendering single).page.sink.pieces⟩, blocks⟩ := by
  cases h with
  | ok => exact ⟨_, rfl⟩
  | error => cases hok

/-- A rule that fails alone fails after others, and its output stands behind theirs. -/
theorem Echoes.of_error {before : List String} {error : Error}
    {result single : EStateM.Result Error (FlatProgress Record) Unit}
    (h : Echoes base before result single) (herror : (rendering single).result = .error error) :
    ∃ store blocks, result =
      .error error ⟨store, ⟨before ++ (rendering single).page.sink.pieces⟩, blocks⟩ := by
  cases h with
  | ok => cases herror
  | error =>
      cases herror
      exact ⟨_, _, rfl⟩

/-- What a single rule comes to from a store. -/
def alone (setting : Render.Setting) (base : Store) (r : Node) : Rendering Record :=
  rendering (topNodes setting [r] ⟨base, {}, 0⟩)

/-- Rules write one after the other what each of them writes alone. -/
theorem rules_in_turn {scopes : Scopes} (hscopes : InStep .initial scopes base) {rules : List Node}
    (hrules : ∀ r ∈ rules, r.isRule)
    (h : ∀ r ∈ rules, ∀ kind name, r.Defines kind name → ¬ base.Binds kind name)
    (hok : ∀ r ∈ rules, (alone setting base r).result = .ok ()) (before : List String)
    (blocks : Nat) :
    ∃ count, topNodes setting rules ⟨base, (⟨before⟩ : Record), blocks⟩ = .ok () ⟨base,
      ⟨before ++ rules.flatMap fun r => (alone setting base r).page.sink.pieces⟩, count⟩ := by
  induction rules generalizing before blocks with
  | nil =>
      refine ⟨blocks, ?_⟩
      rw [List.flatMap_nil, List.append_nil]
      rfl
  | cons r rest ih =>
      have hechoes := rule_echoes setting hscopes (hrules r List.mem_cons_self)
        (h r List.mem_cons_self) before blocks
      obtain ⟨after, hfirst⟩ := hechoes.of_ok (hok r List.mem_cons_self)
      obtain ⟨count, hrest⟩ := ih (fun n hn => hrules n (List.mem_cons_of_mem _ hn))
        (fun n hn => h n (List.mem_cons_of_mem _ hn))
        (fun n hn => hok n (List.mem_cons_of_mem _ hn))
        (before ++ (alone setting base r).page.sink.pieces) after
      refine ⟨count, ?_⟩
      rw [← List.singleton_append, topNodes_append, Render.bind_of_ok hfirst]
      rw [List.singleton_append, List.flatMap_cons, ← List.append_assoc]
      exact hrest

end FlatRender

namespace Sheet

variable {setting : Render.Setting}

theorem transcript_eq_rendering (sheet : Sheet) (setting : Render.Setting) :
    sheet.transcript setting = FlatRender.rendering
      (FlatRender.topNodes setting sheet.children ⟨{}, ({} : Record), 0⟩) := by
  have hrun := topNodes_simulates setting sheet.children .initial {} ⟨({} : Record), 0⟩
    ⟨Agree.initial, Scopes.Kept.refl _⟩
  unfold transcript renderIn
  revert hrun
  generalize Render.topNodes setting sheet.children ⟨.initial, ({} : Record), 0⟩ = result
  generalize FlatRender.topNodes setting sheet.children ⟨{}, ({} : Record), 0⟩ = flat
  intro hrun
  cases hrun with
  | ok _ => rfl
  | error => rfl

/-- The store that definitions lead to. It binds no names but theirs. -/
theorem exists_base {definitions : List Node}
    (hdefinitions : ∀ d ∈ definitions, d.definition?.isSome)
    (hok : (Sheet.transcript ⟨definitions⟩ setting).result = .ok ()) :
    ∃ scopes base, InStep .initial scopes base ∧
      FlatRender.topNodes setting definitions ⟨{}, ({} : Record), 0⟩ = .ok () ⟨base, {}, 0⟩ ∧
      ∀ kind name, base.Binds kind name →
        ∃ d ∈ definitions, d.definition? = some (kind, name) := by
  rw [transcript_eq_rendering] at hok
  cases hflat : FlatRender.topNodes setting definitions ⟨{}, ({} : Record), 0⟩ with
  | error error last =>
      rw [hflat] at hok
      cases hok
  | ok _ last =>
      obtain ⟨hpage, hbinds⟩ := FlatRender.topNodes_of_definitions hdefinitions hflat
      obtain ⟨scopes, -, hstep⟩ := (topNodes_simulates setting definitions).ok_of_flat
        ⟨Agree.initial, Scopes.Kept.refl _⟩ hflat
      obtain ⟨base, page⟩ := last
      cases hpage
      refine ⟨scopes, base, hstep, rfl, fun kind name hname => ?_⟩
      have hempty : ¬ ({} : Store).Binds kind name := by cases kind <;> simp [Store.Binds]
      exact (hbinds kind name hname).resolve_left hempty

/-- The transcript of rules behind definitions starts from the store that these leave. -/
theorem transcript_behind {definitions : List Node} {base : Store}
    (hbase : FlatRender.topNodes setting definitions ⟨{}, ({} : Record), 0⟩ = .ok () ⟨base, {}, 0⟩)
    (rules : List Node) :
    Sheet.transcript ⟨definitions ++ rules⟩ setting =
      FlatRender.rendering (FlatRender.topNodes setting rules ⟨base, {}, 0⟩) := by
  rw [transcript_eq_rendering, FlatRender.topNodes_append, Render.bind_of_ok hbase]

/-- Renders rules behind definitions to memory. -/
def renderBehind (definitions : List Node) (setting : Render.Setting) (rules : List Node) :
    Rendering Buffer :=
  Sheet.renderIn ⟨definitions ++ rules⟩ setting {}

theorem toUTF8_join_flatMap (rules : List Node) (pieces : Node → List String) :
    (String.join (rules.flatMap pieces)).toUTF8 =
      (rules.map fun r => (String.join (pieces r)).toUTF8).foldr (· ++ ·) .empty := by
  induction rules with
  | nil => rfl
  | cons r rest ih => simpa [String.join_append] using ih

/-- Rules behind definitions are rendered as if each stood alone behind them, provided that the
definitions succeed and that no rule defines one of their names. Where all rules succeed alone, the
text is that of one after the other. Otherwise the first that fails ends the rendering with its
error, and with its text behind those before it. Rules in another order have their texts in that
order. -/
theorem rules_are_isolated (setting : Render.Setting) (definitions rules : List Node)
    (hdefinitions : ∀ d ∈ definitions, d.definition?.isSome) (hrules : ∀ r ∈ rules, r.isRule)
    (hapart : ∀ r ∈ rules, ∀ kind name, r.Defines kind name →
      ∀ d ∈ definitions, d.definition? ≠ some (kind, name))
    (hok : (Sheet.renderIn ⟨definitions⟩ setting ({} : Buffer)).result = .ok ())
    (order : List Node) (horder : order.Perm rules) :
    ((∀ r ∈ rules, (renderBehind definitions setting [r]).result = .ok ()) →
      (renderBehind definitions setting order).result = .ok () ∧
      (renderBehind definitions setting order).page.sink.bytes =
        (order.map fun r => (renderBehind definitions setting [r]).page.sink.bytes).foldr
          (· ++ ·) .empty) ∧
    ∀ earlier failing later error, order = earlier ++ failing :: later →
      (∀ r ∈ earlier, (renderBehind definitions setting [r]).result = .ok ()) →
      (renderBehind definitions setting [failing]).result = .error error →
      (renderBehind definitions setting order).result = .error error ∧
      (renderBehind definitions setting order).page.sink.bytes =
        (earlier.map fun r => (renderBehind definitions setting [r]).page.sink.bytes).foldr
          (· ++ ·) .empty ++ (renderBehind definitions setting [failing]).page.sink.bytes := by
  rw [(renderIn_unfailing _ setting rfl rfl).1] at hok
  obtain ⟨scopes, base, hscopes, hbase, hbinds⟩ := exists_base hdefinitions hok
  have hrule (r : Node) (hr : r ∈ order) : r.isRule := hrules r (horder.mem_iff.mp hr)
  have hnew (r : Node) (hr : r ∈ order) (kind : NameKind) (name : String)
      (hdefines : r.Defines kind name) : ¬ base.Binds kind name := by
    intro hbound
    obtain ⟨d, hd, hsame⟩ := hbinds kind name hbound
    exact hapart r (horder.mem_iff.mp hr) kind name hdefines d hd hsame
  have hresult (nodes : List Node) : (renderBehind definitions setting nodes).result =
      (FlatRender.rendering (FlatRender.topNodes setting nodes
        ⟨base, ({} : Record), 0⟩)).result := by
    rw [renderBehind, (renderIn_unfailing _ setting rfl rfl).1, transcript_behind hbase]
  have hbytes (nodes : List Node) : (renderBehind definitions setting nodes).page.sink.bytes =
      (String.join (FlatRender.rendering (FlatRender.topNodes setting nodes
        ⟨base, ({} : Record), 0⟩)).page.sink.pieces).toUTF8 := by
    rw [renderBehind, (renderIn_unfailing _ setting rfl rfl).2, transcript_behind hbase]
    simp
  simp only [hresult, hbytes]
  constructor
  · intro hall
    obtain ⟨count, hrun⟩ := FlatRender.rules_in_turn hscopes hrule hnew
      (fun r hr => hall r (horder.mem_iff.mp hr)) [] 0
    rw [hrun]
    exact ⟨rfl, toUTF8_join_flatMap order _⟩
  · rintro earlier failing later error rfl hearlier hfails
    have hmem : failing ∈ earlier ++ failing :: later := by simp
    obtain ⟨count, hrun⟩ := FlatRender.rules_in_turn hscopes
      (fun r hr => hrule r (List.mem_append_left _ hr))
      (fun r hr => hnew r (List.mem_append_left _ hr)) hearlier [] 0
    have hechoes := FlatRender.rule_echoes setting hscopes (hrule failing hmem) (hnew failing hmem)
      ([] ++ earlier.flatMap fun r => (FlatRender.alone setting base r).page.sink.pieces) count
    obtain ⟨store, blocks, hfailed⟩ := hechoes.of_error hfails
    rw [FlatRender.topNodes_append, Render.bind_of_ok hrun, ← List.singleton_append,
      FlatRender.topNodes_append, Render.bind_of_error hfailed]
    refine ⟨rfl, ?_⟩
    rw [← toUTF8_join_flatMap]
    simp [FlatRender.rendering, FlatRender.alone, String.join_append]

end Sheet

def sharedDefinitions : List Node :=
  [.assignment "x" ⟨[.constant (.ident "red") 1], 1⟩ 1,
    .function ⟨"f", [], ⟨[.reference "x" 2], 2⟩, 2⟩]

/-- A rule with a variable and a function of its own. -/
def selfContainedRule : Node :=
  .rule ["a"] [
    .assignment "y" ⟨[.call "f" 0 4], 4⟩ 4,
    .function ⟨"g", [], ⟨[.reference "y" 5], 5⟩, 5⟩,
    .rule ["b"] [.declaration "color" [.group [.call "g" 0 7] 7] 7] 6] 3

def readingRule : Node :=
  .rule ["c"] [.declaration "color" [.reference "x" 9, .reference "y" 9] 9] 8

/-- A rule that calls the function of another one. -/
def strayingRule : Node :=
  .rule ["d"] [
    .declaration "color" [.reference "x" 11] 11,
    .declaration "width" [.group [.call "g" 0 12] 12] 12] 10

theorem rules_are_isolated_straying :
    (Sheet.renderBehind sharedDefinitions ⟨.nothing, 1⟩ [strayingRule]).result =
        .error (.functionNotFound "g" 12) ∧
      (Sheet.renderBehind sharedDefinitions ⟨.nothing, 1⟩
        [selfContainedRule, strayingRule, readingRule]).result =
          .error (.functionNotFound "g" 12) ∧
      (Sheet.renderBehind sharedDefinitions ⟨.nothing, 1⟩
        [selfContainedRule, strayingRule, readingRule]).page.sink.bytes =
          ((Sheet.renderBehind sharedDefinitions ⟨.nothing, 1⟩
            [selfContainedRule]).page.sink.bytes ++ .empty) ++
          (Sheet.renderBehind sharedDefinitions ⟨.nothing, 1⟩ [strayingRule]).page.sink.bytes := by
  have hdistinct : ∀ r ∈ [readingRule, selfContainedRule, strayingRule], ∀ leaf ∈ r.leaves,
      ∀ d ∈ sharedDefinitions, leaf.definition? = none ∨ d.definition? ≠ leaf.definition? := by
    decide
  have hapart : ∀ r ∈ [readingRule, selfContainedRule, strayingRule], ∀ kind name,
      r.Defines kind name → ∀ d ∈ sharedDefinitions, d.definition? ≠ some (kind, name) := by
    rintro r hr kind name ⟨leaf, hleaf, hdefines⟩ d hd
    rcases hdistinct r hr leaf hleaf d hd with hnone | hne
    · rw [hnone] at hdefines
      cases hdefines
    · rwa [hdefines] at hne
  have hfails : (Sheet.renderBehind sharedDefinitions ⟨.nothing, 1⟩ [strayingRule]).result =
      .error (.functionNotFound "g" 12) := by
    decide +kernel
  have hperm : [selfContainedRule, strayingRule, readingRule].Perm
      [readingRule, selfContainedRule, strayingRule] := by
    change ([selfContainedRule, strayingRule] ++ [readingRule]).Perm _
    exact List.perm_append_comm
  have hisolated := Sheet.rules_are_isolated ⟨.nothing, 1⟩ sharedDefinitions
    [readingRule, selfContainedRule, strayingRule] (by decide) (by decide) hapart
    (by decide +kernel) _ hperm
  exact ⟨hfails, hisolated.2 [selfContainedRule] strayingRule [readingRule] _ rfl
    (by decide +kernel) hfails⟩

end Stylesheet
