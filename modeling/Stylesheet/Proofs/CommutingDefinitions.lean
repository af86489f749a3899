import Stylesheet.Proofs.DefinitionOrder

/-!
Two definitions of a sheet trade places. The rendering of the sheet and that of the other are the
same up to the first of the two definitions, and after the second one they go on from scopes that
answer every search alike. From there they go side by side, in step with a single store, through the
rules that end and the nodes that follow, to the end of the sheet.
-/

namespace Stylesheet

open Relation (ReflTransGen)

/-- A step that succeeds from one of two scopes that are in step with a store does so from the
other, and both are in step with a store afterwards. -/
theorem Simulates.ok_of_ok {σ α : Type} {P Q : Scopes → Store → Prop} {act : Render σ α}
    {flat : FlatRender σ α} (h : Simulates P Q act flat) {scopes other : Scopes} {store : Store}
    {page : Page σ} (hscopes : P scopes store) (hother : P other store) {a : α} {last : Progress σ}
    (hrun : act ⟨scopes, page⟩ = .ok a last) :
    ∃ after, act ⟨other, page⟩ = .ok a ⟨after, last.page⟩ ∧
      ∃ store, Q last.scopes store ∧ Q after store := by
  have hflat := h scopes store page hscopes
  rw [hrun] at hflat
  cases hresult : flat ⟨store, page⟩ with
  | error error final =>
      rw [hresult] at hflat
      cases hflat
  | ok b final =>
      rw [hresult] at hflat
      cases hflat with
      | ok hQ =>
          obtain ⟨after, hafter, hQ'⟩ := h.ok_of_flat hother hresult
          exact ⟨after, hafter, _, hQ, hQ'⟩

theorem Agree.of_same {scopes other : Scopes} {store : Store} (h : Agree scopes store)
    (hsame : scopes.Same other) (htidy : other.Tidy) : Agree other store where
  tidy := htidy
  values name := (hsame.findSome? fun _ _ hscope => hscope.values name).trans (h.values name)
  functions name :=
    (hsame.findSome? fun _ _ hscope => hscope.functions name).trans (h.functions name)

namespace Render.Point

variable {σ : Type} [Sink σ] {setting : Setting} {point other next start last : Point σ}

section Steps

theorem passes_unique : Relator.RightUnique (@Passes σ _ setting) := by
  intro point next other hnext hother
  cases hnext with
  | top hrun =>
      cases hother with
      | top hrun' =>
          rw [hrun] at hrun'
          cases hrun'
          rfl
  | within hrun =>
      cases hother with
      | within hrun' =>
          rw [hrun] at hrun'
          cases hrun'
          rfl

/-- A step looks at the first of the nodes that follow, and at no other. -/
theorem Passes.before (h : point.Passes setting next) :
    ∃ first, point.rest = first :: next.rest ∧ ∀ rest,
      Passes setting ⟨point.around, first :: rest, point.progress⟩
        ⟨next.around, rest, next.progress⟩ := by
  cases h with
  | top hrun => exact ⟨_, rfl, fun rest => .top hrun⟩
  | within hrun => exact ⟨_, rfl, fun rest => .within hrun⟩

theorem passes_before (h : ReflTransGen (Passes setting) point next) :
    ∃ before, point.rest = before ++ next.rest ∧ ∀ rest,
      ReflTransGen (Passes setting) ⟨point.around, before ++ rest, point.progress⟩
        ⟨next.around, rest, next.progress⟩ := by
  induction h with
  | refl => exact ⟨[], rfl, fun rest => .refl⟩
  | tail _ hstep ih =>
      obtain ⟨before, hbefore, hrun⟩ := ih
      obtain ⟨first, hfirst, hpasses⟩ := hstep.before
      refine ⟨before ++ [first], by simp [hbefore, hfirst], fun rest => ?_⟩
      rw [List.append_assoc, List.singleton_append]
      exact (hrun (first :: rest)).tail (hpasses rest)

/-- Where nodes follow, a rendering that gets to the end takes a step. -/
theorem exists_passes {n : Node} {rest : List Node}
    (h : ReflTransGen (Passes setting) point last) (hend : last.rest = [])
    (hrest : point.rest = n :: rest) :
    ∃ next, point.Passes setting next ∧ next.rest = rest ∧
      ReflTransGen (Passes setting) next last := by
  rcases h.cases_head with rfl | ⟨next, hstep, hrun⟩
  · rw [hend] at hrest
    cases hrest
  · obtain ⟨first, hfirst, -⟩ := hstep.before
    rw [hrest] at hfirst
    exact ⟨next, hstep, (List.cons.inj hfirst).2.symm, hrun⟩

/-- A rendering that gets to the end does so by every point that it comes by. -/
theorem passes_between (h : ReflTransGen (Passes setting) start point)
    (hall : ReflTransGen (Passes setting) start last) (hend : last.rest = []) :
    ReflTransGen (Passes setting) point last := by
  rcases h.total_of_right_unique passes_unique hall with hrun | hback
  · exact hrun
  · rcases hback.cases_head with rfl | ⟨next, hstep, -⟩
    · exact .refl
    · obtain ⟨first, hfirst, -⟩ := hstep.before
      rw [hend] at hfirst
      cases hfirst

theorem Passes.scope_eq (h : point.Passes setting next) : next.scope = point.scope := by
  cases h <;> rfl

theorem nodes_of_passes {around : Surroundings} {children : List Node} {progress : Progress σ}
    (h : ReflTransGen (Passes setting) ⟨some around, children, progress⟩ last)
    (hend : last.rest = []) :
    ∃ block, nodes setting around.scope around.selectors around.block children progress =
        .ok block last.progress ∧ last.around = some { around with block } := by
  induction children generalizing around progress with
  | nil =>
      rcases h.cases_head with rfl | ⟨next, hstep, -⟩
      · exact ⟨around.block, rfl, rfl⟩
      · cases hstep
  | cons first rest ih =>
      obtain ⟨next, hstep, -, hrun⟩ := exists_passes h hend rfl
      cases hstep with
      | within hfirst =>
          obtain ⟨block, hrest, haround⟩ := ih hrun
          exact ⟨block, (bind_of_ok hfirst).trans hrest, haround⟩

theorem topNodes_of_passes {children : List Node} {progress : Progress σ}
    (h : ReflTransGen (Passes setting) ⟨none, children, progress⟩ last) (hend : last.rest = []) :
    topNodes setting children progress = .ok () last.progress := by
  induction children generalizing progress with
  | nil =>
      rcases h.cases_head with rfl | ⟨next, hstep, -⟩
      · rfl
      · cases hstep
  | cons first rest ih =>
      obtain ⟨next, hstep, -, hrun⟩ := exists_passes h hend rfl
      cases hstep with
      | top hfirst => exact (bind_of_ok hfirst).trans (ih hrun)

end Steps

/-- Both points are at the same place in what follows and have the same page. Their scopes are in
step with one store, since a rule or the sheet was started with the given scopes. -/
structure Twin (base : Scopes) (point other : Point σ) : Prop where
  around : other.around = point.around
  rest : other.rest = point.rest
  page : other.progress.page = point.progress.page
  scopes : ∃ store, InStep base point.progress.scopes store ∧
    InStep base other.progress.scopes store

variable {base : Scopes}

omit [Sink σ] in
theorem Twin.of_inStep {store : Store} (h : InStep base point.progress.scopes store) :
    Twin base point point :=
  ⟨rfl, rfl, rfl, store, h, h⟩

/-- A step from one of two such points can be taken from the other. -/
theorem Twin.passes (h : Twin base point other) (hscope : point.scope + 1 = base.count)
    (hstep : point.Passes setting next) :
    ∃ after, other.Passes setting after ∧ Twin base next after := by
  obtain ⟨around, rest, scopes, page⟩ := other
  obtain ⟨rfl, rfl, rfl, store, hpoint, hother⟩ := h
  cases hstep with
  | top hrun =>
      obtain ⟨after, hafter, hstore⟩ :=
        (topNode_simulates setting hscope _).ok_of_ok hpoint hother hrun
      exact ⟨_, .top hafter, rfl, rfl, rfl, hstore⟩
  | within hrun =>
      obtain ⟨after, hafter, hstore⟩ :=
        (node_simulates setting hscope _ _ _).ok_of_ok hpoint hother hrun
      exact ⟨_, .within hafter, rfl, rfl, rfl, hstore⟩

theorem Twin.run (h : Twin base point other) (hscope : point.scope + 1 = base.count)
    (hrun : ReflTransGen (Passes setting) point next) :
    ∃ after, ReflTransGen (Passes setting) other after ∧ Twin base next after ∧
      next.scope = point.scope := by
  induction hrun with
  | refl => exact ⟨other, .refl, h, rfl⟩
  | tail _ hstep ih =>
      obtain ⟨after, hafter, htwin, hsame⟩ := ih
      obtain ⟨last, hlast, hnext⟩ := htwin.passes (hsame ▸ hscope) hstep
      exact ⟨last, hafter.tail hlast, hnext, hstep.scope_eq.trans hsame⟩

/-- What came before and what comes after points that go side by side, put together. -/
theorem Twin.resume {before others : List Node} (h : Twin base next other)
    (hscope : next.scope + 1 = base.count) (hto : ReflTransGen (Passes setting) start point)
    (hsplit : start.rest = before ++ point.rest)
    (hother : ReflTransGen (Passes setting) { point with rest := others } other)
    (hlater : ReflTransGen (Passes setting) next last) :
    ∃ after, ReflTransGen (Passes setting) { start with rest := before ++ others } after ∧
      Twin base last after := by
  obtain ⟨after, hafter, htwin, -⟩ := h.run hscope hlater
  obtain ⟨before', hsplit', hreach⟩ := passes_before hto
  obtain rfl : before = before' := List.append_cancel_right (hsplit.symm.trans hsplit')
  exact ⟨after, (hreach others).trans (hother.trans hafter), htwin⟩

theorem inStep_of_passes {store : Store} (hscope : point.scope + 1 = base.count)
    (hstep : InStep base point.progress.scopes store)
    (hrun : ReflTransGen (Passes setting) point next) :
    next.scope + 1 = base.count ∧ ∃ store, InStep base next.progress.scopes store := by
  obtain ⟨_, -, htwin, hsame⟩ := (Twin.of_inStep hstep).run hscope hrun
  obtain ⟨store, hnext, -⟩ := htwin.scopes
  exact ⟨hsame ▸ hscope, store, hnext⟩

/-- A rule once it is entered: its nodes, the end of its block and the end of its scope. -/
def inEntered (setting : Setting) (around : Surroundings) (children : List Node) :
    Render σ Unit := do
  let block ← nodes setting around.scope around.selectors around.block children
  let _ ← write block Page.close
  changeScopes fun scopes => scopes.leave around.scope

section Rules

variable {own : List String} {children rest : List Node} {line : Nat} {inner : Point σ}

theorem Enters.rule (h : point.Enters inner) :
    ∃ own line rest, point.rest = .rule own inner.rest line :: rest := by
  cases h <;> exact ⟨_, _, _, rfl⟩

/-- Rendering a rule whole is entering it and rendering its inside, whatever its nodes are. -/
theorem Enters.passes_iff (setting : Setting) (h : point.Enters inner)
    (hrest : point.rest = .rule own children line :: rest) :
    ∃ around outer page, around.scope = point.progress.scopes.count ∧
      inner = ⟨some around, children, point.progress.scopes.enter point.scope, page⟩ ∧
      ∀ others next,
        Passes setting ⟨point.around, .rule own others line :: rest, point.progress⟩ next ↔
          ∃ final, inEntered setting around others inner.progress = .ok () final ∧
            next = ⟨outer, rest, final⟩ := by
  cases h with
  | top =>
      cases hrest
      refine ⟨_, none, _, rfl, rfl, fun others next => ⟨?_, ?_⟩⟩
      · intro hpasses
        cases hpasses with
        | top hrun => exact ⟨_, hrun, rfl⟩
      · rintro ⟨final, hrun, rfl⟩
        exact .top hrun
  | @within around _ _ _ _ closed progress after hclose =>
      cases hrest
      obtain ⟨scopes, page⟩ := after
      obtain rfl : scopes = progress.scopes := scopes_of_write hclose
      refine ⟨_, some { around with block := closed }, page, rfl, rfl, fun others next => ⟨?_, ?_⟩⟩
      · intro hpasses
        cases hpasses with
        | within hrun =>
            rw [node, bind_of_ok hclose] at hrun
            obtain ⟨_, final, hinside, hblock⟩ := ok_of_bind hrun
            cases hblock
            exact ⟨_, hinside, rfl⟩
      · rintro ⟨final, hrun, rfl⟩
        apply Passes.within
        rw [node, bind_of_ok hclose]
        exact bind_of_ok hrun

/-- If the nodes of a rule and others, in its place, end in points that go side by side, so do the
rules as a whole. -/
theorem Twin.rule {others : List Node} {store : Store} (henters : point.Enters inner)
    (hrest : point.rest = .rule own children line :: rest) (hpasses : point.Passes setting next)
    (hstep : InStep base point.progress.scopes store)
    (hinside : ∀ last, ReflTransGen (Passes setting) inner last → last.rest = [] →
      ∃ after, ReflTransGen (Passes setting) { inner with rest := others } after ∧
        Twin inner.progress.scopes last after) :
    ∃ after, Passes setting ⟨point.around, .rule own others line :: rest, point.progress⟩ after ∧
      Twin base next after := by
  obtain ⟨around, outer, page, hcount, rfl, hiff⟩ := henters.passes_iff setting hrest
  have hself : point = ⟨point.around, .rule own children line :: rest, point.progress⟩ := by
    rw [← hrest]
  rw [hself] at hpasses
  obtain ⟨final, hbody, rfl⟩ := (hiff children next).mp hpasses
  obtain ⟨block, ended, hnodes, hend⟩ := ok_of_bind hbody
  have hrun := passes_of_nodes children [] hnodes
  rw [List.append_nil] at hrun
  obtain ⟨⟨_, _, scopes, _⟩, hother, rfl, rfl, rfl, store', hended, hscopes⟩ := hinside _ hrun rfl
  obtain ⟨block', hnodes', hblock⟩ := nodes_of_passes hother rfl
  cases hblock
  -- from here on both rules do the same: the block is closed and the scope is left
  have hleave : Simulates (InStep (point.progress.scopes.enter point.scope)) (InStep base)
      (do
        let _ ← write block Page.close
        changeScopes fun scopes => scopes.leave around.scope : Render σ Unit) _ :=
    (write_simulates block Page.close).bind fun _ => hcount ▸ leave_simulates hstep.1 hstep.2
  obtain ⟨after, hafter, hstore⟩ := hleave.ok_of_ok hended hscopes hend
  exact ⟨_, (hiff others _).mpr ⟨_, (bind_of_ok hnodes').trans hafter, rfl⟩, rfl, rfl, rfl, hstore⟩

end Rules

section Exchange

variable {a b : Node} {rest : List Node}

/-- Both points are at the same place in what follows, with the same page and the same scopes. -/
structure Same (point other : Point σ) : Prop where
  around : other.around = point.around
  rest : other.rest = point.rest
  page : other.progress.page = point.progress.page
  scopes : point.progress.scopes.Same other.progress.scopes

/-- Where two independent definitions are rendered in one order, they are in the other, and the
points that follow are the same. -/
theorem PassesTwo.exchange (h : point.PassesTwo setting next)
    (hlive : point.scope < point.progress.scopes.count) (hrest : point.rest = a :: b :: rest)
    (hab : Node.Independent (point.env setting) a b) :
    ∃ after, PassesTwo setting { point with rest := b :: a :: rest } after ∧ Same next after := by
  obtain ⟨first, second, hfirst, hsecond, rfl⟩ := (passesTwo_iff hlive hrest hab).mp h
  have happart : ¬ (first.kind = second.kind ∧ first.name = second.name) := by
    rintro ⟨hkind, hname⟩
    apply hab.apart
    rw [Node.definition?_of_binding hfirst, Node.definition?_of_binding hsecond, hkind, hname]
  let exchanged : Point σ := { point with rest := b :: a :: rest }
  have hlive' : exchanged.scope < exchanged.progress.scopes.count := hlive
  have hback : Node.Independent (exchanged.env setting) b a := hab.symm
  exact ⟨_, (passesTwo_iff hlive' rfl hback).mpr ⟨second, first, hsecond, hfirst, rfl⟩, rfl, rfl,
    rfl, Scopes.define_comm happart⟩

theorem PassesTwo.unique (h : point.PassesTwo setting next)
    (hother : point.PassesTwo setting other) : next = other := by
  obtain ⟨middle, hfirst, hsecond⟩ := h
  obtain ⟨middle', hfirst', hsecond'⟩ := hother
  obtain rfl := passes_unique hfirst hfirst'
  exact passes_unique hsecond hsecond'

theorem PassesTwo.run (h : point.PassesTwo setting next) :
    ReflTransGen (Passes setting) point next := by
  obtain ⟨middle, hfirst, hsecond⟩ := h
  exact .head hfirst (.single hsecond)

/-- After the two definitions the renderings go side by side. -/
theorem PassesTwo.twin {store : Store} (h : point.PassesTwo setting next)
    (hscope : point.scope + 1 = base.count) (hstep : InStep base point.progress.scopes store)
    (hrest : point.rest = a :: b :: rest) (hab : Node.Independent (point.env setting) a b) :
    ∃ after, PassesTwo setting { point with rest := b :: a :: rest } after ∧
      Twin base next after := by
  have hlive : point.scope < point.progress.scopes.count := by
    have hcount := hstep.2.count
    omega
  obtain ⟨after, hafter, hsame⟩ := h.exchange hlive hrest hab
  let exchanged : Point σ := { point with rest := b :: a :: rest }
  have hscope' : exchanged.scope + 1 = base.count := hscope
  obtain ⟨-, store', hnext⟩ := inStep_of_passes hscope hstep h.run
  obtain ⟨-, _, hbehind⟩ := inStep_of_passes hscope' hstep hafter.run
  have hagree : Agree after.progress.scopes store' := hnext.1.of_same hsame.scopes hbehind.1.tidy
  exact ⟨after, hafter, hsame.around, hsame.rest, hsame.page, store', hnext, hagree, hbehind.2⟩

end Exchange

end Render.Point

namespace Position

open Render

variable {σ : Type} [Sink σ] {setting : Setting}

/-- The nodes with the one at the position and the one behind it exchanged. -/
def exchanged : Position → List Node
  | .here before node (next :: after) => before ++ next :: node :: after
  | .here before node [] => before ++ [node]
  | .inside before selectors pos line after =>
    before ++ .rule selectors pos.exchanged line :: after

/-- Rendering leads from a point to the one at the position, in the nodes that follow the first. -/
def Leads (setting : Setting) : Position → Point σ → Point σ → Prop
  | .here _ node after, start, point =>
    ReflTransGen (Point.Passes setting) start point ∧ point.rest = node :: after
  | .inside _ selectors pos line after, start, point =>
    ∃ middle inner, ReflTransGen (Point.Passes setting) start middle ∧
      middle.rest = .rule selectors pos.nodes line :: after ∧ middle.Enters inner ∧
      pos.Leads setting inner point

/-- If the definitions at a position and behind it are independent where rendering comes to them, it
gets to the same end when they trade places. The induction is on the rules around the position. -/
theorem Leads.twin {a b : Node} {rest : List Node} {point : Point σ} {pos : Position}
    (hrest : point.rest = a :: b :: rest) (hab : Node.Independent (point.env setting) a b)
    {base : Scopes} {store : Store} {start last : Point σ} (h : pos.Leads setting start point)
    (hnodes : start.rest = pos.nodes) (hscope : start.scope + 1 = base.count)
    (hstep : InStep base start.progress.scopes store)
    (hrun : ReflTransGen (Point.Passes setting) start last) (hend : last.rest = []) :
    ∃ after, ReflTransGen (Point.Passes setting) { start with rest := pos.exchanged } after ∧
      Point.Twin base last after := by
  induction pos generalizing base store start last with
  | here before node after =>
      obtain ⟨hto, hat⟩ := h
      rw [hat] at hrest
      cases hrest
      have hfrom := Point.passes_between hto hrun hend
      obtain ⟨middle, hfirst, hmiddle, hfrom'⟩ := Point.exists_passes hfrom hend hat
      obtain ⟨next, hsecond, -, hlater⟩ := Point.exists_passes hfrom' hend hmiddle
      have htwo : point.PassesTwo setting next := ⟨middle, hfirst, hsecond⟩
      obtain ⟨hscope', store', hstep'⟩ := Point.inStep_of_passes hscope hstep hto
      obtain ⟨after, hafter, htwin⟩ := htwo.twin hscope' hstep' hat hab
      obtain ⟨hscope'', -⟩ := Point.inStep_of_passes hscope' hstep' htwo.run
      have hsplit : start.rest = before ++ point.rest := by rw [hnodes, hat, nodes]
      exact htwin.resume hscope'' hto hsplit hafter.run hlater
  | inside before selectors pos line after ih =>
      obtain ⟨middle, inner, hto, hat, henters, hinner⟩ := h
      have hfrom := Point.passes_between hto hrun hend
      obtain ⟨next, hpasses, -, hlater⟩ := Point.exists_passes hfrom hend hat
      obtain ⟨hscope', store', hstep'⟩ := Point.inStep_of_passes hscope hstep hto
      have hinside : ∀ last, ReflTransGen (Point.Passes setting) inner last → last.rest = [] →
          ∃ after, ReflTransGen (Point.Passes setting) { inner with rest := pos.exchanged } after ∧
            Point.Twin inner.progress.scopes last after := by
        intro last hrun hend
        obtain ⟨around, outer, page, hcount, rfl, -⟩ := henters.passes_iff setting hat
        have hnumber := hscope'.trans hstep'.2.count.symm
        refine ih hinner rfl ?_ ⟨hstep'.1.enter hnumber, .refl _⟩ hrun hend
        exact congrArg (· + 1) hcount
      obtain ⟨after, hafter, htwin⟩ := Point.Twin.rule henters hat hpasses hstep' hinside
      obtain ⟨hscope'', -⟩ := Point.inStep_of_passes hscope' hstep' (.single hpasses)
      have hsplit : start.rest = before ++ middle.rest := by rw [hnodes, hat, nodes]
      exact htwin.resume hscope'' hto hsplit (.single hafter) hlater

section Reaches

variable {pos : Position} {start point next : Point σ} {n : Node} {rest : List Node}

/-- A move from one point to another is a move among positions, if it is one within the innermost
rule. -/
theorem Leads.move (h : pos.Leads setting start point)
    (hhere : ∀ before node after start,
      (Position.here before node after).Leads setting start point →
      ∃ later : Position, later.nodes = before ++ node :: after ∧ later.Leads setting start next) :
    ∃ later : Position, later.nodes = pos.nodes ∧ later.Leads setting start next := by
  induction pos generalizing start with
  | here before node after => exact hhere before node after start h
  | inside before selectors pos line after ih =>
      obtain ⟨middle, inner, hto, hat, henters, hinner⟩ := h
      obtain ⟨later, hnodes, hlater⟩ := ih hinner
      rw [← hnodes] at hat
      exact ⟨.inside before selectors later line after, by rw [nodes, nodes, hnodes], middle, inner,
        hto, hat, henters, hlater⟩

theorem Leads.passes (h : pos.Leads setting start point) (hstep : point.Passes setting next)
    (hrest : next.rest = n :: rest) :
    ∃ later : Position, later.nodes = pos.nodes ∧ later.Leads setting start next := by
  apply h.move
  rintro before node after start ⟨hto, hat⟩
  obtain ⟨first, hfirst, -⟩ := hstep.before
  rw [hat, hrest] at hfirst
  cases hfirst
  exact ⟨.here (before ++ [node]) n rest, by simp [nodes], hto.tail hstep, hrest⟩

theorem Leads.enters (h : pos.Leads setting start point) (hstep : point.Enters next)
    (hrest : next.rest = n :: rest) :
    ∃ deeper : Position, deeper.nodes = pos.nodes ∧ deeper.Leads setting start next := by
  apply h.move
  rintro before node after start ⟨hto, hat⟩
  obtain ⟨own, line, later, hrule⟩ := hstep.rule
  rw [hrest, hat] at hrule
  cases hrule
  exact ⟨.inside before own (.here [] n rest) line after, rfl, point, next, hto, hat, hstep,
    .refl, hrest⟩

end Reaches

end Position

namespace Sheet

open Render

variable {σ : Type} [Sink σ] {sheet other : Sheet} {setting : Setting} {sink : σ} {point : Point σ}

/-- Every point that a rendering comes by is at some position of the sheet, if a node follows. -/
theorem Reaches.exists_leads (h : sheet.Reaches setting sink point) {n : Node} {rest : List Node}
    (hrest : point.rest = n :: rest) :
    ∃ pos : Position, pos.nodes = sheet.children ∧
      pos.Leads setting ⟨none, sheet.children, { page := { sink } }⟩ point := by
  induction h generalizing n rest with
  | refl => exact ⟨.here [] n rest, hrest.symm, .refl, hrest⟩
  | tail _ hstep ih =>
      rcases hstep with hpasses | henters
      · obtain ⟨first, hfirst, -⟩ := hpasses.before
        obtain ⟨pos, hnodes, hleads⟩ := ih hfirst
        obtain ⟨later, hlater, hnext⟩ := hleads.passes hpasses hrest
        exact ⟨later, hlater.trans hnodes, hnext⟩
      · obtain ⟨own, line, later, hrule⟩ := henters.rule
        obtain ⟨pos, hnodes, hleads⟩ := ih hrule
        obtain ⟨deeper, hdeeper, hnext⟩ := hleads.enters henters hrest
        exact ⟨deeper, hdeeper.trans hnodes, hnext⟩

theorem topNodes_of_result (h : (sheet.renderIn setting sink).result = .ok ()) :
    ∃ last, topNodes setting sheet.children { page := { sink } } = .ok () last := by
  unfold renderIn at h
  cases hrun : topNodes setting sheet.children { page := { sink } } with
  | ok _ last => exact ⟨last, rfl⟩
  | error error last =>
      rw [hrun] at h
      dsimp only at h
      split at h
      · cases h
      · cases h

theorem renderIn_of_page_eq {last final : Progress σ}
    (h : topNodes setting sheet.children { page := { sink } } = .ok () last)
    (hother : topNodes setting other.children { page := { sink } } = .ok () final)
    (hpage : final.page = last.page) :
    other.renderIn setting sink = sheet.renderIn setting sink := by
  unfold renderIn
  rw [h, hother]
  simp only [hpage]

/-- Two definitions that follow each other may trade places, if they are of different names and
neither is computed from the name of the other, at the point where the rendering comes to them. They
succeed in one order if they do in the other, and then what follows begins with the same scopes and
the same page. The point is at some position of the sheet; if the sheet renders, the sheet in which
they are exchanged there renders as it does. -/
theorem independent_definitions_commute (sheet : Sheet) (setting : Setting) (sink : σ)
    (h : sheet.Reaches setting sink point) {a b : Node} {rest : List Node}
    (hrest : point.rest = a :: b :: rest) (hab : Node.Independent (point.env setting) a b) :
    ((∃ last, point.PassesTwo setting last) ↔
      ∃ last, Point.PassesTwo setting { point with rest := b :: a :: rest } last) ∧
    (∀ last final, point.PassesTwo setting last →
      Point.PassesTwo setting { point with rest := b :: a :: rest } final → last.Same final) ∧
    (∃ pos : Position, pos.nodes = sheet.children ∧
      pos.Leads setting ⟨none, sheet.children, { page := { sink } }⟩ point) ∧
    ∀ pos : Position, pos.nodes = sheet.children →
      pos.Leads setting ⟨none, sheet.children, { page := { sink } }⟩ point →
      (sheet.renderIn setting sink).result = .ok () →
      Sheet.renderIn ⟨pos.exchanged⟩ setting sink = sheet.renderIn setting sink := by
  have hlive : point.scope < point.progress.scopes.count := by
    have hlatest := h.sound.latest
    omega
  let exchanged : Point σ := { point with rest := b :: a :: rest }
  have hback : Node.Independent (exchanged.env setting) b a := hab.symm
  refine ⟨⟨?_, ?_⟩, ?_, h.exists_leads hrest, ?_⟩
  · rintro ⟨last, htwo⟩
    obtain ⟨after, hafter, -⟩ := htwo.exchange hlive hrest hab
    exact ⟨after, hafter⟩
  · rintro ⟨last, htwo⟩
    obtain ⟨after, hafter, -⟩ := Point.PassesTwo.exchange htwo hlive rfl hback
    have hpoint : point = { exchanged with rest := a :: b :: rest } := by rw [← hrest]
    exact ⟨after, hpoint ▸ hafter⟩
  · intro last final htwo htwo'
    obtain ⟨after, hafter, hsame⟩ := htwo.exchange hlive hrest hab
    exact htwo'.unique hafter ▸ hsame
  · intro pos hnodes hleads hresult
    obtain ⟨last, hrun⟩ := topNodes_of_result hresult
    have hpasses := Point.passes_of_topNodes sheet.children [] hrun
    rw [List.append_nil] at hpasses
    obtain ⟨after, hafter, htwin⟩ := hleads.twin hrest hab hnodes.symm rfl
      ⟨Agree.initial, Scopes.Kept.refl _⟩ hpasses rfl
    exact renderIn_of_page_eq hrun (Point.topNodes_of_passes hafter htwin.rest) htwin.page

end Sheet

/-- Calls a function that refers to a variable `y`. -/
def assignmentOfX : Node := .assignment "x" ⟨[.call "g" 0 5], 5⟩ 5

/-- A function `y`. What it will be called for is `x`. -/
def functionY : Node := .function ⟨"y", [], ⟨[.reference "x" 6], 6⟩, 6⟩

def nodesOfPair : List Node :=
  [assignmentOfX, functionY, .declaration "color" [.group [.call "y" 0 7] 7] 7]

def functionG : FunctionDef := ⟨"g", [], ⟨[.reference "y" 3], 3⟩, 3⟩

/-- The variable `x` is one of the sheet, and the function `y` one of the rule. -/
def positionOfPair : Position :=
  .inside [.assignment "x" ⟨[.constant (.ident "red") 1], 1⟩ 1,
    .assignment "y" ⟨[.constant (.ident "blue") 2], 2⟩ 2, .function functionG] ["a"]
    (.here [] assignmentOfX nodesOfPair.tail) 4 []

/-- The start of the rule. -/
def pointOfPair : Render.Point Record :=
  let scopes := ((Scopes.initial.setVariable 0 "x" (some (.ident "red"))).setVariable 0 "y"
    (some (.ident "blue"))).setFunction 0 functionG
  .inside ⟨scopes, { sink := {} }⟩ 0 (Selector.flatten ["a"] none) nodesOfPair

theorem uses_assignmentOfX {kind : NameKind} {name : String}
    (h : assignmentOfX.Uses (pointOfPair.env ⟨.nothing, 1⟩) kind name) :
    (kind, name) = (.function, "g") ∨ (kind, name) = (.value, "y") := by
  induction h with
  | @mentioned kind name h =>
      cases kind with
      | value => cases h
      | function =>
          have hname : name ∈ ["g"] := h
          simpa using hname
  | @called callee f kind name _ hf h ih =>
      have hg : (pointOfPair.env ⟨.nothing, 1⟩).function? "g" = some functionG := rfl
      rcases ih with heq | heq
      · cases heq
        rw [hg] at hf
        cases hf
        cases kind with
        | function => cases h
        | value =>
            have hname : name ∈ ["y"] := h
            simpa using hname
      · cases heq

theorem independent_definitions_commute_in_rule :
    Sheet.Reaches ⟨positionOfPair.nodes⟩ ⟨.nothing, 1⟩ ({} : Record) pointOfPair ∧
      Node.Independent (pointOfPair.env ⟨.nothing, 1⟩) assignmentOfX functionY ∧
      (∃ last, Render.Point.PassesTwo ⟨.nothing, 1⟩
        { pointOfPair with rest := functionY :: assignmentOfX :: nodesOfPair.drop 2 } last) ∧
      (Sheet.renderIn ⟨positionOfPair.nodes⟩ ⟨.nothing, 1⟩ ({} : Record)).result = .ok () ∧
      Sheet.renderIn ⟨positionOfPair.exchanged⟩ ⟨.nothing, 1⟩ ({} : Record) =
        Sheet.renderIn ⟨positionOfPair.nodes⟩ ⟨.nothing, 1⟩ {} := by
  let sheet : Sheet := ⟨positionOfPair.nodes⟩
  let start : Render.Point Record := ⟨none, sheet.children, { page := { sink := {} } }⟩
  have hpasses : ReflTransGen (Render.Point.Passes ⟨.nothing, 1⟩) start _ :=
    Render.Point.passes_of_topNodes [_, _, _] [.rule ["a"] nodesOfPair 4] rfl
  have hleads : positionOfPair.Leads ⟨.nothing, 1⟩ start pointOfPair :=
    ⟨_, _, hpasses, rfl, .top, .refl, rfl⟩
  have hreaches : sheet.Reaches ⟨.nothing, 1⟩ {} pointOfPair :=
    Sheet.Reaches.enters (Sheet.Reaches.passes .refl hpasses) .top
  have hindependent : Node.Independent (pointOfPair.env ⟨.nothing, 1⟩) assignmentOfX functionY := by
    refine ⟨⟨rfl, rfl⟩, by decide, ?_, fun _ _ _ => id⟩
    rintro kind name hdefines huses
    cases hdefines
    rcases uses_assignmentOfX huses with heq | heq
    · exact absurd heq (by decide)
    · exact absurd heq (by decide)
  have hresult : (sheet.renderIn ⟨.nothing, 1⟩ ({} : Record)).result = .ok () := rfl
  have hcommute := Sheet.independent_definitions_commute sheet ⟨.nothing, 1⟩ {} hreaches rfl
    hindependent
  have htwo : ∃ last, pointOfPair.PassesTwo ⟨.nothing, 1⟩ last := ⟨_, _, .within rfl, .within rfl⟩
  exact ⟨hreaches, hindependent, hcommute.1.mp htwo, hresult,
    hcommute.2.2.2 positionOfPair rfl hleads hresult⟩

end Stylesheet
