import Stylesheet.Proofs.BetweenNodes
import Stylesheet.Proofs.Mentions

/-!
Definitions that can be left out. A list of drafts is a sheet with some of its definitions marked, at
any depth; it stands for two sheets, the one with the marked definitions and the one without. The
two are rendered abreast: their stores agree on every name that the sheet mentions. Where the marked
definitions are of names that it does not mention, the only other trace they can leave is a failure
to compute their value.
-/

namespace Stylesheet

/-- A node in which a definition may be marked as left out. -/
inductive Draft where
  | rule (selectors : List String) (children : List Draft) (line : Nat)
  | declaration (property : String) (values : List Term) (line : Nat)
  | assignment (name : String) (value : Expr) (line : Nat) (kept : Bool)
  | function (definition : FunctionDef) (kept : Bool)

namespace Draft

mutual

/-- The node with all of its definitions. -/
def whole : Draft → Node
  | .rule own children line => .rule own (wholes children) line
  | .declaration property values line => .declaration property values line
  | .assignment name e line _ => .assignment name e line
  | .function f _ => .function f

def wholes : List Draft → List Node
  | [] => []
  | first :: rest => first.whole :: wholes rest

end

mutual

/-- What is left of the node. -/
def trimmed : Draft → List Node
  | .rule own children line => [.rule own (trims children) line]
  | .declaration property values line => [.declaration property values line]
  | .assignment name e line kept => if kept then [.assignment name e line] else []
  | .function f kept => if kept then [.function f] else []

def trims : List Draft → List Node
  | [] => []
  | first :: rest => first.trimmed ++ trims rest

end

mutual

/-- The definitions that are left out. -/
def omitted : Draft → List Node
  | .rule _ children _ => omittedAll children
  | .declaration .. => []
  | .assignment name e line kept => if kept then [] else [.assignment name e line]
  | .function f kept => if kept then [] else [.function f]

def omittedAll : List Draft → List Node
  | [] => []
  | first :: rest => first.omitted ++ omittedAll rest

end

/-- The points that the rendering with all definitions comes by, with the drafts that follow. -/
inductive Reaches {σ : Type} [Sink σ] (setting : Render.Setting) (drafts : List Draft) (sink : σ) :
    Render.Point σ → List Draft → Prop where
  | start : Reaches setting drafts sink ⟨none, wholes drafts, { page := { sink } }⟩ drafts
  | passes {point next : Render.Point σ} {first : Draft} {rest : List Draft}
      (h : Reaches setting drafts sink point (first :: rest))
      (hstep : point.Passes setting next) : Reaches setting drafts sink next rest
  | enters {point next : Render.Point σ} {own : List String} {children rest : List Draft}
      {line : Nat} (h : Reaches setting drafts sink point (.rule own children line :: rest))
      (hstep : point.Enters next) : Reaches setting drafts sink next children

/-- What is left out of the nodes still ahead is left out of the sheet. -/
theorem Reaches.omitted_subset {σ : Type} [Sink σ] {setting : Render.Setting}
    {drafts rest : List Draft} {sink : σ} {point : Render.Point σ}
    (h : Reaches setting drafts sink point rest) : omittedAll rest ⊆ omittedAll drafts := by
  induction h with
  | start => exact List.Subset.refl _
  | passes _ _ ih =>
      rw [omittedAll] at ih
      exact List.Subset.trans (List.subset_append_right _ _) ih
  | enters _ _ ih =>
      rw [omittedAll, omitted] at ih
      exact List.Subset.trans (List.subset_append_left _ _) ih

end Draft

/-- Both stores have the same to offer under the names in use, and the functions of the first keep
to these names. -/
structure Store.SameOn (used : NameKind → String → Prop) (store other : Store) : Prop where
  values : ∀ name, used .value name → other.values.find? name = store.values.find? name
  functions : ∀ name, used .function name → other.functions.find? name = store.functions.find? name
  keeps : store.EachFunction fun _ f => f.KeepsTo used

namespace Store.SameOn

variable {used : NameKind → String → Prop} {store other before beforeOther : Store}

theorem empty : SameOn used {} {} := ⟨fun _ _ => rfl, fun _ _ => rfl, .empty⟩

/-- Stores that agree on the names in use give environments that do. -/
theorem env (h : SameOn used store other) (host : Host) :
    Env.SameOn used (store.env host) (other.env host) where
  frame := rfl
  base := fun name hname => by simp only [Store.env, h.values name hname]
  function := h.functions
  host := fun _ _ _ => rfl
  keeps := fun name f _ hf => h.keeps name f hf

/-- A definition that is made in both stores keeps them the same. -/
theorem setVariable (h : SameOn used store other) (name : String) (value : Option Value) :
    SameOn used (store.setVariable name value) (other.setVariable name value) where
  values := by
    intro n hn
    by_cases hname : n = name
    · simp [Store.setVariable, hname]
    · simp only [Store.setVariable, Bindings.find?_insert_of_ne _ _ hname, h.values n hn]
  functions := h.functions
  keeps := h.keeps

theorem setFunction (h : SameOn used store other) {f : FunctionDef} (hf : f.KeepsTo used) :
    SameOn used (store.setFunction f) (other.setFunction f) where
  values := h.values
  functions := by
    intro n hn
    by_cases hname : n = f.name
    · simp [Store.setFunction, hname]
    · simp only [Store.setFunction, Bindings.find?_insert_of_ne _ _ hname, h.functions n hn]
  keeps := h.keeps.setFunction hf

/-- A definition in the first store alone, of a name that is not in use. -/
theorem setVariable_left (h : SameOn used store other) {name : String}
    (hname : ¬ used .value name) (value : Option Value) :
    SameOn used (store.setVariable name value) other where
  values := by
    intro n hn
    have hne : n ≠ name := fun heq => hname (heq ▸ hn)
    rw [h.values n hn, Store.setVariable, Bindings.find?_insert_of_ne _ _ hne]
  functions := h.functions
  keeps := h.keeps

/-- A function that is defined on one side only makes no difference if its name is not in use. -/
theorem setFunction_left (h : SameOn used store other) {f : FunctionDef}
    (hname : ¬ used .function f.name) (hf : f.KeepsTo used) :
    SameOn used (store.setFunction f) other where
  values := h.values
  functions := by
    intro n hn
    have hne : n ≠ f.name := fun heq => hname (heq ▸ hn)
    rw [h.functions n hn, Store.setFunction, Bindings.find?_insert_of_ne _ _ hne]
  keeps := h.keeps.setFunction hf

/-- The end of a rule. A name in use was bound in both stores at its start, or in neither. -/
theorem restrict (hbefore : SameOn used before beforeOther) (h : SameOn used store other) :
    SameOn used (store.restrict before.domain) (other.restrict beforeOther.domain) where
  values := by
    intro name hname
    simp only [Store.restrict, domain, Bindings.find?_restrict, Bindings.mem_names_iff,
      hbefore.values name hname, h.values name hname]
  functions := by
    intro name hname
    simp only [Store.restrict, domain, Bindings.find?_restrict, Bindings.mem_names_iff,
      hbefore.functions name hname, h.functions name hname]
  keeps := h.keeps.restrict _

end Store.SameOn

namespace FlatRender

section Abreast

variable {σ α β : Type} {used : NameKind → String → Prop} {setting : Render.Setting}
  {store other : Store} {page : Page σ}

/-- Two runs that ended alike, with the same page. After a success their stores agree on the names
in use. -/
inductive Abreast (used : NameKind → String → Prop) :
    EStateM.Result Error (FlatProgress σ) α → EStateM.Result Error (FlatProgress σ) α → Prop where
  | ok {a : α} {store other : Store} {page : Page σ} (h : Store.SameOn used store other) :
      Abreast used (.ok a ⟨store, page⟩) (.ok a ⟨other, page⟩)
  | error {error : Error} {store other : Store} {page : Page σ} :
      Abreast used (.error error ⟨store, page⟩) (.error error ⟨other, page⟩)

/-- Runs that go abreast step by step do so as a whole. -/
theorem Abreast.bind {act against : FlatRender σ α} {next nextAgainst : α → FlatRender σ β}
    {start startAgainst : FlatProgress σ} (h : Abreast used (act start) (against startAgainst))
    (hnext : ∀ a store other page, act start = .ok a ⟨store, page⟩ →
      Store.SameOn used store other →
      Abreast used (next a ⟨store, page⟩) (nextAgainst a ⟨other, page⟩)) :
    Abreast used ((act >>= next) start) ((against >>= nextAgainst) startAgainst) := by
  change Abreast used (EStateM.bind act next start) (EStateM.bind against nextAgainst startAgainst)
  unfold EStateM.bind
  revert h hnext
  generalize act start = result
  generalize against startAgainst = resultAgainst
  intro h hnext
  cases h with
  | ok hsame => exact hnext _ _ _ _ rfl hsame
  | error => exact .error

/-- Runs that went abreast have the same outcome on the same page. -/
theorem Abreast.rendering_eq {result against : EStateM.Result Error (FlatProgress σ) Unit}
    (h : Abreast used result against) : rendering against = rendering result := by
  cases h with
  | ok _ => rfl
  | error => rfl

theorem write_abreast (h : Store.SameOn used store other) (block : Block)
    (act : Page.Write σ Unit) :
    Abreast used (write block act ⟨store, page⟩) (write block act ⟨other, page⟩) := by
  unfold write
  dsimp only
  cases act (page, block) with
  | ok _ state => exact .ok h
  | error reason state => exact .error

/-- What both stores compute to the same value is computed abreast. -/
theorem compute_abreast (h : Store.SameOn used store other)
    {f : Env.Call → Env → Except Error α}
    (hf : f (Env.invoke setting.depth) (other.env setting.host) =
      f (Env.invoke setting.depth) (store.env setting.host)) :
    Abreast used (compute setting f ⟨store, page⟩) (compute setting f ⟨other, page⟩) := by
  unfold compute
  dsimp only
  rw [hf]
  cases f (Env.invoke setting.depth) (store.env setting.host) with
  | ok a => exact .ok h
  | error error => exact .error

theorem values_abreast (h : Store.SameOn used store other) {terms : List Term}
    (hterms : Term.KeepTo used terms) :
    Abreast used (values setting terms ⟨store, page⟩) (values setting terms ⟨other, page⟩) := by
  apply compute_abreast h
  have hall := Matches.mapM (E := fun _ => True) fun t ht =>
    ⟨(h.env setting.host).term_eq setting.depth (hterms.alone ht), fun _ _ => trivial⟩
  rw [hall.1]

/-- A definition of names in use is made on both sides. -/
theorem define_abreast (h : Store.SameOn used store other) {n : Node}
    (hn : ∀ kind, ∀ name ∈ n.ownMentions kind, used kind name) :
    Abreast used (define setting n ⟨store, page⟩) (define setting n ⟨other, page⟩) := by
  cases n with
  | rule own children line => exact .error
  | declaration property values line => exact .error
  | function f => exact .ok (h.setFunction hn)
  | assignment name e line =>
      refine (compute_abreast h ((h.env setting.host).expr_eq setting.depth hn)).bind ?_
      intro value store other page _ hsame
      exact .ok (hsame.setVariable name value)

variable [Sink σ]

theorem inRule_abreast (h : Store.SameOn used store other) {selectors : List String}
    {body against : Block → FlatRender σ Block}
    (hbody : Abreast used (body { head := Selector.head selectors } ⟨store, page⟩)
      (against { head := Selector.head selectors } ⟨other, page⟩)) :
    Abreast used (inRule selectors body ⟨store, page⟩)
      (inRule selectors against ⟨other, page⟩) := by
  -- what is dropped at the end differs, as the names bound at the start do
  have hend (block : Block) (start against : Store) (page : Page σ)
      (hsame : Store.SameOn used start against) :
      Abreast used
        ((write block Page.close >>= fun _ =>
          changeStore fun after => after.restrict store.domain : FlatRender σ Unit) ⟨start, page⟩)
        ((write block Page.close >>= fun _ =>
          changeStore fun after => after.restrict other.domain : FlatRender σ Unit)
            ⟨against, page⟩) :=
    (write_abreast hsame block Page.close).bind fun _ _ _ _ _ hlast => .ok (h.restrict hlast)
  have hinside : Abreast used
      ((body { head := Selector.head selectors } >>= fun block =>
        write block Page.close >>= fun _ =>
          changeStore fun after => after.restrict store.domain) ⟨store, page⟩)
      ((against { head := Selector.head selectors } >>= fun block =>
        write block Page.close >>= fun _ =>
          changeStore fun after => after.restrict other.domain) ⟨other, page⟩) :=
    hbody.bind fun block start against page _ hsame => hend block start against page hsame
  exact hinside

end Abreast

end FlatRender

namespace Draft

variable {σ : Type} [Sink σ] {setting : Render.Setting} {drafts : List Draft} {sink : σ}

/-- The rendering with all definitions comes to the given drafts, and a store in place of its scopes
would be this one. -/
def At (setting : Render.Setting) (drafts : List Draft) (sink : σ)
    (around : Option Render.Surroundings) (rest : List Draft) (progress : FlatProgress σ) : Prop :=
  ∃ scopes, Reaches setting drafts sink ⟨around, wholes rest, scopes, progress.page⟩ rest ∧
    Agree scopes progress.store ∧ (around.map Render.Surroundings.scope).getD 0 + 1 = scopes.count

/-- The run begins at the top, with everything ahead. -/
theorem At.start (setting : Render.Setting) (drafts : List Draft) (sink : σ) :
    At setting drafts sink none drafts { page := { sink } } :=
  ⟨.initial, .start, Agree.initial, rfl⟩

variable {around : Render.Surroundings} {first : Draft} {rest : List Draft}
  {progress last : FlatProgress σ}

/-- A node that was rendered lies behind. -/
theorem At.passes (h : At setting drafts sink (some around) (first :: rest) progress)
    {block : Block}
    (hrun : FlatRender.node setting around.selectors around.block first.whole progress =
      .ok block last) :
    At setting drafts sink (some { around with block }) rest last := by
  obtain ⟨scopes, hreached, hagree, hcount⟩ := h
  obtain ⟨after, hnode, hagreeAfter, hkept⟩ :=
    (node_simulates setting hcount around.selectors around.block first.whole).ok_of_flat
      ⟨hagree, Scopes.Kept.refl _⟩ hrun
  exact ⟨after, hreached.passes (.within hnode), hagreeAfter, hcount.trans hkept.count.symm⟩

theorem At.passes_top (h : At setting drafts sink none (first :: rest) progress)
    (hrun : FlatRender.topNode setting first.whole progress = .ok () last) :
    At setting drafts sink none rest last := by
  obtain ⟨scopes, hreached, hagree, hcount⟩ := h
  obtain ⟨after, hnode, hagreeAfter, hkept⟩ :=
    (topNode_simulates setting hcount first.whole).ok_of_flat ⟨hagree, Scopes.Kept.refl _⟩ hrun
  exact ⟨after, hreached.passes (.top hnode), hagreeAfter, hcount.trans hkept.count.symm⟩

variable {own : List String} {children : List Draft} {line : Nat}

/-- A rule is entered in the block that its selectors give. -/
theorem At.enters
    (h : At setting drafts sink (some around) (.rule own children line :: rest) progress)
    {closed : Block} (hclose : FlatRender.write around.block Page.close progress = .ok closed last)
    {inner : List String} (hinner : inner = Selector.flatten own (some around.selectors)) :
    ∃ scope, At setting drafts sink (some ⟨scope, inner, { head := Selector.head inner }⟩)
      children last := by
  subst hinner
  obtain ⟨scopes, hreached, hagree, hcount⟩ := h
  obtain ⟨after, hwrite, hagreeAfter, hkept⟩ := (write_simulates around.block Page.close).ok_of_flat
    (P := InStep scopes) ⟨hagree, Scopes.Kept.refl _⟩ hclose
  have hlatest := hcount.trans hkept.count.symm
  exact ⟨_, _, hreached.enters (.within hwrite), hagreeAfter.enter hlatest, rfl⟩

theorem At.enters_top (h : At setting drafts sink none (.rule own children line :: rest) progress)
    {inner : List String} (hinner : inner = Selector.flatten own none) :
    ∃ scope, At setting drafts sink (some ⟨scope, inner, { head := Selector.head inner }⟩)
      children progress := by
  subst hinner
  obtain ⟨scopes, hreached, hagree, hcount⟩ := h
  exact ⟨_, _, hreached.enters .top, hagree.enter hcount, rfl⟩

/-- Wherever the rendering with all definitions comes to one of a variable that is left out, its
value can be computed. -/
def Harmless (setting : Render.Setting) (drafts : List Draft) (sink : σ) : Prop :=
  ∀ point name e line rest,
    Reaches setting drafts sink point (.assignment name e line false :: rest) →
    ∀ error last, Render.expr setting point.scope e point.progress ≠ .error error last

/-- A definition that is left out has a value where the run comes to it. -/
theorem Harmless.exists_value (h : Harmless setting drafts sink)
    {place : Option Render.Surroundings} {name : String} {e : Expr}
    (hat : At setting drafts sink place (.assignment name e line false :: rest) progress) :
    ∃ value, Env.expr (Env.invoke setting.depth) (progress.store.env setting.host) e =
      .ok value := by
  obtain ⟨scopes, hreached, hagree, hcount⟩ := hat
  have hlive : (place.map Render.Surroundings.scope).getD 0 <
      (⟨scopes, progress.page⟩ : Progress σ).scopes.count := by
    dsimp only
    omega
  have hsettle := Render.expr_eq_settle setting hlive e
  rw [hagree.env_eq hcount] at hsettle
  cases hvalue : Env.expr (Env.invoke setting.depth) (progress.store.env setting.host) e with
  | ok value => exact ⟨value, rfl⟩
  | error error =>
      rw [hvalue] at hsettle
      exact absurd hsettle (h _ name e line rest hreached error _)

/-- The leaves keep to the names in use, and what is left out defines none of these. -/
structure Spares (used : NameKind → String → Prop) (leaves omitted : List Node) : Prop where
  keeps : ∀ leaf ∈ leaves, ∀ kind, ∀ name ∈ leaf.ownMentions kind, used kind name
  dead : ∀ n ∈ omitted, ∀ kind name, n.definition? = some (kind, name) → ¬ used kind name

variable {used : NameKind → String → Prop}

/-- Fewer leaves with fewer left out are spared as well. -/
theorem Spares.mono {leaves more omitted others : List Node} (h : Spares used more others)
    (hleaves : leaves ⊆ more) (homitted : omitted ⊆ others) : Spares used leaves omitted where
  keeps := fun leaf hleaf => h.keeps leaf (hleaves hleaf)
  dead := fun n hn => h.dead n (homitted hn)

theorem Spares.head
    (h : Spares used (Node.leavesOf (wholes (first :: rest))) (omittedAll (first :: rest))) :
    Spares used first.whole.leaves first.omitted := by
  rw [wholes, Node.leavesOf, omittedAll] at h
  exact h.mono (List.subset_append_left _ _) (List.subset_append_left _ _)

theorem Spares.tail
    (h : Spares used (Node.leavesOf (wholes (first :: rest))) (omittedAll (first :: rest))) :
    Spares used (Node.leavesOf (wholes rest)) (omittedAll rest) := by
  rw [wholes, Node.leavesOf, omittedAll] at h
  exact h.mono (List.subset_append_right _ _) (List.subset_append_right _ _)

open FlatRender

/-- A definition that is left out has no effect on the names in use. -/
theorem define_dropped {draft : Draft} {place : Option Render.Surroundings} {store other : Store}
    {page : Page σ} (hharmless : Harmless setting drafts sink)
    (h : Spares used [draft.whole] draft.omitted) (hdropped : draft.trimmed = [])
    (hat : At setting drafts sink place (draft :: rest) ⟨store, page⟩)
    (hsame : Store.SameOn used store other) :
    ∃ after, define setting draft.whole ⟨store, page⟩ = .ok () ⟨after, page⟩ ∧
      Store.SameOn used after other := by
  cases draft with
  | rule own children line => simp [trimmed] at hdropped
  | declaration property values line => simp [trimmed] at hdropped
  | assignment name e line kept =>
      cases kept with
      | true => simp [trimmed] at hdropped
      | false =>
          obtain ⟨value, hvalue⟩ := hharmless.exists_value hat
          have hcompute : (compute setting fun call env => Env.expr call env e :
              FlatRender σ (Option Value)) ⟨store, page⟩ = .ok value ⟨store, page⟩ := by
            simp only [compute, hvalue]
          have hdead : ¬ used .value name := h.dead _ List.mem_cons_self .value name rfl
          exact ⟨_, Render.bind_of_ok hcompute, hsame.setVariable_left hdead value⟩
  | function f kept =>
      cases kept with
      | true => simp [trimmed] at hdropped
      | false =>
          have hdead : ¬ used .function f.name := h.dead _ List.mem_cons_self .function f.name rfl
          exact ⟨_, rfl, hsame.setFunction_left hdead (h.keeps _ List.mem_cons_self)⟩

-- The induction is on the drafts. `At` goes along with the run that has all definitions, since a
-- variable that is left out is known to have a value only there.
mutual

/-- A node and its trimmed form are rendered abreast, by induction on the nesting of rules. -/
theorem node_abreast (hharmless : Harmless setting drafts sink) (around : Render.Surroundings)
    {store other : Store} {page : Page σ} (hsame : Store.SameOn used store other) :
    ∀ (draft : Draft) (rest : List Draft), Spares used draft.whole.leaves draft.omitted →
      At setting drafts sink (some around) (draft :: rest) ⟨store, page⟩ →
      Abreast used (node setting around.selectors around.block draft.whole ⟨store, page⟩)
        (nodes setting around.selectors around.block draft.trimmed ⟨other, page⟩)
  | .rule own children line, rest, h, hat => by
      rw [whole, trimmed, nodes_singleton, node, node]
      refine (write_abreast hsame around.block Page.close).bind ?_
      intro closed store other page hclose hsame
      obtain ⟨scope, hinside⟩ := hat.enters hclose rfl
      refine (inRule_abreast hsame ?_).bind fun _ _ _ _ _ hlast => .ok hlast
      exact nodes_abreast hharmless ⟨scope, _, _⟩ hsame children h hinside
  | .declaration property values line, rest, h, hat => by
      rw [whole, trimmed, nodes_singleton, node]
      refine (values_abreast hsame (h.keeps _ List.mem_cons_self)).bind ?_
      intro present store other page _ hlast
      exact write_abreast hlast around.block _
  | .assignment name e line true, rest, h, hat => by
      rw [whole, trimmed, if_pos rfl, nodes_singleton, node]
      refine (define_abreast hsame (h.keeps _ List.mem_cons_self)).bind ?_
      exact fun _ _ _ _ _ hlast => .ok hlast
  | .assignment name e line false, rest, h, hat => by
      obtain ⟨after, hrun, hlast⟩ := define_dropped hharmless h rfl hat hsame
      rw [whole] at hrun ⊢
      rw [node, Render.bind_of_ok hrun]
      exact .ok hlast
  | .function f true, rest, h, hat => by
      rw [whole, trimmed, if_pos rfl, nodes_singleton, node]
      refine (define_abreast hsame (h.keeps _ List.mem_cons_self)).bind ?_
      exact fun _ _ _ _ _ hlast => .ok hlast
  | .function f false, rest, h, hat => by
      obtain ⟨after, hrun, hlast⟩ := define_dropped hharmless h rfl hat hsame
      rw [whole] at hrun ⊢
      rw [node, Render.bind_of_ok hrun]
      exact .ok hlast

theorem nodes_abreast (hharmless : Harmless setting drafts sink) (around : Render.Surroundings)
    {store other : Store} {page : Page σ} (hsame : Store.SameOn used store other) :
    ∀ children : List Draft, Spares used (Node.leavesOf (wholes children)) (omittedAll children) →
      At setting drafts sink (some around) children ⟨store, page⟩ →
      Abreast used (nodes setting around.selectors around.block (wholes children) ⟨store, page⟩)
        (nodes setting around.selectors around.block (trims children) ⟨other, page⟩)
  | [], _, _ => .ok hsame
  | first :: rest, h, hat => by
      rw [wholes, trims, nodes, nodes_append]
      refine (node_abreast hharmless around hsame first rest h.head hat).bind ?_
      intro block store other page hrun hsame
      exact nodes_abreast hharmless { around with block } hsame rest h.tail (hat.passes hrun)

end

theorem topNode_abreast (hharmless : Harmless setting drafts sink) {store other : Store}
    {page : Page σ} (hsame : Store.SameOn used store other) {draft : Draft}
    (h : Spares used draft.whole.leaves draft.omitted)
    (hat : At setting drafts sink none (draft :: rest) ⟨store, page⟩) :
    Abreast used (topNode setting draft.whole ⟨store, page⟩)
      (topNodes setting draft.trimmed ⟨other, page⟩) := by
  have hkept (n : Node) (hleaf : n ∈ draft.whole.leaves) :
      Abreast used (define setting n ⟨store, page⟩) (define setting n ⟨other, page⟩) :=
    define_abreast hsame (h.keeps n hleaf)
  cases draft with
  | rule own children line =>
      rw [whole, trimmed, topNodes_singleton, topNode, topNode]
      obtain ⟨scope, hinside⟩ := hat.enters_top rfl
      exact inRule_abreast hsame (nodes_abreast hharmless ⟨scope, _, _⟩ hsame children h hinside)
  | declaration property values line =>
      rw [trimmed, topNodes_singleton]
      exact hkept _ List.mem_cons_self
  | assignment name e line kept =>
      cases kept with
      | true =>
          rw [trimmed, if_pos rfl, topNodes_singleton]
          exact hkept _ List.mem_cons_self
      | false =>
          obtain ⟨after, hrun, hlast⟩ := define_dropped hharmless h rfl hat hsame
          have htop : topNode setting (whole (.assignment name e line false)) ⟨store, page⟩ =
              .ok () ⟨after, page⟩ := hrun
          rw [htop]
          exact .ok hlast
  | function f kept =>
      cases kept with
      | true =>
          rw [trimmed, if_pos rfl, topNodes_singleton]
          exact hkept _ List.mem_cons_self
      | false =>
          obtain ⟨after, hrun, hlast⟩ := define_dropped hharmless h rfl hat hsame
          have htop : topNode setting (whole (.function f false)) ⟨store, page⟩ =
              .ok () ⟨after, page⟩ := hrun
          rw [htop]
          exact .ok hlast

/-- The same for the nodes at the top of a sheet. -/
theorem topNodes_abreast (hharmless : Harmless setting drafts sink) {store other : Store}
    {page : Page σ} (hsame : Store.SameOn used store other) {children : List Draft}
    (h : Spares used (Node.leavesOf (wholes children)) (omittedAll children))
    (hat : At setting drafts sink none children ⟨store, page⟩) :
    Abreast used (topNodes setting (wholes children) ⟨store, page⟩)
      (topNodes setting (trims children) ⟨other, page⟩) := by
  induction children generalizing store other page with
  | nil => exact .ok hsame
  | cons first rest ih =>
      rw [wholes, trims, topNodes, topNodes_append]
      refine (topNode_abreast hharmless hsame h.head hat).bind ?_
      intro _ store other page hrun hsame
      exact ih hsame h.tail (hat.passes_top hrun)

/-- Definitions of names that are not mentioned can be left out together, variables and functions
alike. -/
theorem renderIn_trims (hharmless : Harmless setting drafts sink)
    (hdead : ∀ n ∈ omittedAll drafts, ∀ kind name, n.definition? = some (kind, name) →
      ∀ child ∈ wholes drafts, name ∉ child.mentions kind) :
    Sheet.renderIn ⟨trims drafts⟩ setting sink = Sheet.renderIn ⟨wholes drafts⟩ setting sink := by
  -- the names in use are those that are mentioned somewhere
  let used (kind : NameKind) (name : String) : Prop :=
    ∃ child ∈ wholes drafts, name ∈ child.mentions kind
  have hspares : Spares used (Node.leavesOf (wholes drafts)) (omittedAll drafts) := by
    constructor
    · intro leaf hleaf kind name hname
      obtain ⟨child, hchild, hinside⟩ := Node.mem_leavesOf.mp hleaf
      exact ⟨child, hchild, Node.mem_mentions_of_leaf hinside hname⟩
    · rintro n hn kind name hdefines ⟨child, hchild, hname⟩
      exact hdead n hn kind name hdefines child hchild hname
  have habreast := topNodes_abreast hharmless Store.SameOn.empty hspares
    (At.start setting drafts sink)
  exact Sheet.renderIn_congr habreast.rendering_eq

end Draft

/-- Dead definitions can be removed without a change to the rendering, at any depth and any choice
of them: functions of a name that is not called anywhere in the sheet, and variables of a name that
is not referred to anywhere, provided that the rendering does not fail at one of those that are
removed. -/
theorem Sheet.dead_definitions_removed (drafts : List Draft) (setting : Render.Setting) {σ : Type}
    [Sink σ] (sink : σ) :
    (∀ g, (∀ n ∈ Draft.omittedAll drafts, n.definition? = some (.function, g)) →
      (∀ child ∈ Draft.wholes drafts, g ∉ child.mentions .function) →
      Sheet.renderIn ⟨Draft.trims drafts⟩ setting sink =
        Sheet.renderIn ⟨Draft.wholes drafts⟩ setting sink) ∧
    ∀ x, (∀ n ∈ Draft.omittedAll drafts, n.definition? = some (.value, x)) →
      (∀ child ∈ Draft.wholes drafts, x ∉ child.mentions .value) →
      Draft.Harmless setting drafts sink →
      Sheet.renderIn ⟨Draft.trims drafts⟩ setting sink =
        Sheet.renderIn ⟨Draft.wholes drafts⟩ setting sink := by
  have hdead {kind : NameKind} {name : String}
      (honly : ∀ n ∈ Draft.omittedAll drafts, n.definition? = some (kind, name))
      (hunused : ∀ child ∈ Draft.wholes drafts, name ∉ child.mentions kind) :
      ∀ n ∈ Draft.omittedAll drafts, ∀ kind name, n.definition? = some (kind, name) →
        ∀ child ∈ Draft.wholes drafts, name ∉ child.mentions kind := by
    intro n hn kind name hdefines
    rw [honly n hn] at hdefines
    cases hdefines
    exact hunused
  constructor
  · intro g honly hunused
    -- a function has no value to compute
    have hharmless : Draft.Harmless setting drafts sink := by
      intro point name e line rest hreached
      have homitted := hreached.omitted_subset (List.mem_append_left _ List.mem_cons_self)
      cases honly _ homitted
    exact Draft.renderIn_trims hharmless (hdead honly hunused)
  · intro x honly hunused hharmless
    exact Draft.renderIn_trims hharmless (hdead honly hunused)

/-- A variable that is not referred to, defined three times and left out twice. A function of the
same name is called. -/
def draftOfDeadVariable : List Draft :=
  [.assignment "x" ⟨[.reference "y" 1], 1⟩ 1 false,
    .function ⟨"x", [], ⟨[.constant (.ident "red") 2], 2⟩, 2⟩ true,
    .rule ["a"] [
      .assignment "x" ⟨[.call "x" 0 4], 4⟩ 4 true,
      .rule ["b"] [
        .assignment "x" ⟨[.reference "y" 6], 6⟩ 6 false,
        .declaration "color" [.group [.call "x" 0 7] 7] 7] 5] 3]

/-- A function that is not called, left out in a rule. What it would call is not there. -/
def draftOfDeadFunction : List Draft :=
  [.function ⟨"g", [], ⟨[.constant (.ident "red") 1], 1⟩, 1⟩ true,
    .rule ["a"] [
      .function ⟨"g", [], ⟨[.call "missing" 0 3], 3⟩, 3⟩ false,
      .declaration "color" [.reference "g" 4] 4] 2]

theorem harmless_draftOfDeadVariable :
    Draft.Harmless ⟨.nothing, 1⟩ draftOfDeadVariable ({} : Buffer) := by
  intro point name e line rest hreached error last hfails
  have homitted := hreached.omitted_subset (List.mem_append_left _ List.mem_cons_self)
  simp only [draftOfDeadVariable, Draft.omittedAll, Draft.omitted, Bool.false_eq_true, if_false,
    if_true, List.append_nil, List.nil_append, List.cons_append, List.mem_cons, List.not_mem_nil,
    Node.assignment.injEq, or_false] at homitted
  rcases homitted with ⟨-, rfl, -⟩ | ⟨-, rfl, -⟩
  · cases hfails
  · cases hfails

theorem dead_definitions_removed_at_depth :
    (Draft.trims draftOfDeadVariable).length = 2 ∧
      Sheet.renderIn ⟨Draft.trims draftOfDeadVariable⟩ ⟨.nothing, 1⟩ ({} : Buffer) =
        Sheet.renderIn ⟨Draft.wholes draftOfDeadVariable⟩ ⟨.nothing, 1⟩ {} ∧
      Sheet.renderIn ⟨Draft.trims draftOfDeadFunction⟩ ⟨.nothing, 0⟩ ({} : Buffer) =
        Sheet.renderIn ⟨Draft.wholes draftOfDeadFunction⟩ ⟨.nothing, 0⟩ {} :=
  ⟨by decide,
    (Sheet.dead_definitions_removed draftOfDeadVariable ⟨.nothing, 1⟩ ({} : Buffer)).2 "x"
      (by decide) (by decide) harmless_draftOfDeadVariable,
    (Sheet.dead_definitions_removed draftOfDeadFunction ⟨.nothing, 0⟩ ({} : Buffer)).1 "g"
      (by decide) (by decide)⟩

end Stylesheet
