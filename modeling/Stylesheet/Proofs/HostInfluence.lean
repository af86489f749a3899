import Stylesheet.Proofs.BetweenNodes
import Stylesheet.Proofs.Mentions

/-!
What a host can do to a sheet. A host is asked only for names that the sheet mentions, and not even
for those that are bound at the top before the first child that mentions them: from there on the
sheet's own binding stands in front of the host, also inside of rules and of functions. Hosts that
answer alike for all other names render the sheet alike, to every sink and at every depth of calls.
-/

namespace Stylesheet

/-- Both hosts have the same to offer under the name. -/
def Host.SameAnswer (host other : Host) : NameKind → String → Prop
  | .value, name => other.value? name = host.value? name
  | .function, name => other.function? name = host.function? name

/-- A child of the sheet defines the name, and no child before it mentions that name. The expression
of a variable may not mention it either; a function may call itself. -/
def Sheet.DefinesBeforeUse (sheet : Sheet) (kind : NameKind) (name : String) : Prop :=
  ∃ before n after, sheet.children = before ++ n :: after ∧ n.definition? = some (kind, name) ∧
    (∀ child ∈ before, name ∉ child.mentions kind) ∧ (kind = .value → name ∉ n.mentions kind)

/-- The names that are defined by the nodes themselves, not inside of rules. -/
def Node.bound (nodes : List Node) : List (NameKind × String) := nodes.filterMap Node.definition?

theorem Node.mem_bound_concat {nodes : List Node} {last : Node} {kind : NameKind} {name : String} :
    (kind, name) ∈ bound (nodes ++ [last]) ↔
      (kind, name) ∈ bound nodes ∨ last.definition? = some (kind, name) := by
  simp [bound]

/-- It makes no difference which of the hosts is asked for the name: they answer alike, or a binding
of the sheet stands in front of them. -/
def Host.Settled (host other : Host) (bound : List (NameKind × String)) (kind : NameKind)
    (name : String) : Prop :=
  host.SameAnswer other kind name ∨ (kind, name) ∈ bound

namespace Store

/-- The given names are bound, and the functions of the store ask the hosts for nothing else than
what is settled then. -/
structure Shields (host other : Host) (bound : List (NameKind × String)) (store : Store) :
    Prop where
  found : ∀ kind name, (kind, name) ∈ bound → store.Binds kind name
  keeps : store.EachFunction fun _ f => f.KeepsTo (host.Settled other bound)

variable {host other : Host} {bound more : List (NameKind × String)} {store : Store}

theorem Shields.sameOn (h : store.Shields host other bound) :
    Env.SameOn (host.Settled other bound) (store.env host) (store.env other) where
  frame := rfl
  base := by
    intro name hname
    rcases hname with hsame | hbound
    · have hanswer : other.value? name = host.value? name := hsame
      simp only [Store.env, hanswer]
    · have hfound : (store.values.find? name).isSome := h.found .value name hbound
      obtain ⟨value, hvalue⟩ := Option.isSome_iff_exists.mp hfound
      simp only [Store.env, hvalue, Option.getD_some]
  function := fun _ _ => rfl
  host := by
    intro name hname hnone
    rcases hname with hsame | hbound
    · exact hsame
    · have hfound : (store.functions.find? name).isSome := h.found .function name hbound
      have hmissing : store.functions.find? name = none := hnone
      simp [hmissing] at hfound
  keeps := fun name f _ hf => h.keeps name f hf

/-- After the definition of a variable its name may count among the bound ones. -/
theorem Shields.setVariable (h : store.Shields host other bound) {name : String}
    (hmono : bound ⊆ more) (hmore : ∀ entry ∈ more, entry ∈ bound ∨ entry = (.value, name))
    (value : Option Value) : (store.setVariable name value).Shields host other more where
  found := fun kind n hn => binds_setVariable.mpr ((hmore _ hn).imp_left (h.found kind n))
  keeps := fun callee f hf kind n hn =>
    (h.keeps callee f hf kind n hn).imp_right fun hbound => hmono hbound

/-- The same for a function, which may call itself then. -/
theorem Shields.setFunction (h : store.Shields host other bound) {f : FunctionDef}
    (hmono : bound ⊆ more) (hmore : ∀ entry ∈ more, entry ∈ bound ∨ entry = (.function, f.name))
    (hf : f.KeepsTo (host.Settled other more)) :
    (store.setFunction f).Shields host other more where
  found := fun kind n hn => binds_setFunction.mpr ((hmore _ hn).imp_left (h.found kind n))
  keeps := by
    have hbefore : store.EachFunction fun _ g => g.KeepsTo (host.Settled other more) := by
      intro callee g hg kind n hn
      exact (h.keeps callee g hg kind n hn).imp_right fun hbound => hmono hbound
    exact hbefore.setFunction hf

theorem shields_invariant {σ : Type} [Sink σ] (host other : Host)
    (bound : List (NameKind × String)) :
    FlatRender.Invariant σ (Shields host other bound) fun _ => True where
  sink := fun _ _ => trivial
  restrict := fun hbefore hafter =>
    { found := fun kind name hname =>
        (hbefore.found kind name hname).restrict (hafter.found kind name hname)
      keeps := hafter.keeps.restrict _ }

end Store

namespace Sheet

variable {sheet : Sheet} {host other : Host}

/-- The names on which the hosts may differ are those that the sheet does not ask them for. -/
def AlikeFor (sheet : Sheet) (host other : Host) : Prop :=
  ∀ child ∈ sheet.children, ∀ kind, ∀ name ∈ child.mentions kind,
    host.SameAnswer other kind name ∨ sheet.DefinesBeforeUse kind name

/-- Where a child mentions a name, that name is settled by the children before it, unless the child
is itself the function of that name. -/
theorem AlikeFor.settled (h : sheet.AlikeFor host other) {before after : List Node} {child : Node}
    (hchild : sheet.children = before ++ child :: after) {kind : NameKind} {name : String}
    (hname : name ∈ child.mentions kind) :
    host.Settled other (Node.bound before) kind name ∨
      (kind = .function ∧ child.definition? = some (kind, name)) := by
  have hmem : child ∈ sheet.children := by simp [hchild]
  rcases h child hmem kind name hname with hsame | ⟨earlier, n, later, hsplit, hn, hfirst, hown⟩
  · exact .inl (.inl hsame)
  · rcases Node.order_of_splits (hchild.symm.trans hsplit) with hbefore | rfl | hdefined
    · exact absurd hname (hfirst child hbefore)
    · cases kind with
      | value => exact absurd hname (hown rfl)
      | function => exact .inr ⟨rfl, hn⟩
    · exact .inl (.inr (List.mem_filterMap.mpr ⟨n, hdefined, hn⟩))

/-- A leaf that mentions only what is settled does the same with both hosts. -/
theorem leafAgrees_of_settled {depth : Nat} {bound : List (NameKind × String)} {leaf : Node}
    (h : ∀ kind, ∀ name ∈ leaf.ownMentions kind, host.Settled other bound kind name) :
    FlatRender.LeafAgrees ⟨host, depth⟩ ⟨other, depth⟩ (Store.Shields host other bound)
      (fun _ => True) leaf := by
  cases leaf with
  | rule own children line => trivial
  | declaration property values line =>
      intro store hstore t ht
      have hterm : Term.KeepTo (host.Settled other bound) values := h
      exact ⟨hstore.sameOn.term_eq depth (hterm.alone ht), fun _ _ => trivial⟩
  | assignment name e line =>
      intro store hstore
      have hsame := hstore.sameOn.expr_eq depth (e := e) h
      exact ⟨⟨hsame, fun _ _ => trivial⟩,
        hstore.setVariable (List.Subset.refl _) fun _ => .inl⟩
  | function f =>
      intro store hstore
      exact hstore.setFunction (List.Subset.refl _) (fun _ => .inl) h

/-- One child of the sheet. A definition adds its name to those that are bound. -/
theorem AlikeFor.topNode_agrees {σ : Type} [Sink σ] (h : sheet.AlikeFor host other) (depth : Nat)
    {before after : List Node} {child : Node}
    (hchild : sheet.children = before ++ child :: after) :
    FlatRender.Agrees (Store.Shields host other (Node.bound before))
      (Store.Shields host other (Node.bound (before ++ [child]))) (fun _ => True)
      (FlatRender.topNode ⟨host, depth⟩ child : FlatRender σ Unit)
      (FlatRender.topNode ⟨other, depth⟩ child) := by
  have hmono : Node.bound before ⊆ Node.bound (before ++ [child]) :=
    List.filterMap_subset _ (List.subset_append_left _ _)
  have hmore (entry : NameKind × String) (hentry : entry ∈ Node.bound (before ++ [child])) :
      entry ∈ Node.bound before ∨ child.definition? = some entry :=
    Node.mem_bound_concat.mp hentry
  cases child with
  | declaration property values line => exact fun _ _ => ⟨rfl, trivial⟩
  | rule own children line =>
      have hsame : Node.bound (before ++ [.rule own children line]) = Node.bound before := by
        simp [Node.bound, Node.definition?]
      rw [hsame]
      apply FlatRender.topNode_agrees (Store.shields_invariant host other _) _ (by simp)
      intro leaf hleaf
      apply leafAgrees_of_settled
      intro kind name hname
      have hsettled := h.settled hchild (Node.mem_mentions_of_leaf hleaf hname)
      exact hsettled.resolve_right fun hself => by cases hself.2
  | assignment name e line =>
      have hsettled (kind : NameKind) (n : String) (hn : n ∈ e.mentions kind) :
          host.Settled other (Node.bound before) kind n := by
        have hleaf := Node.mem_mentions_of_leaf (n := .assignment name e line) List.mem_cons_self hn
        apply (h.settled hchild hleaf).resolve_right
        rintro ⟨rfl, hself⟩
        cases hself
      refine FlatRender.Agrees.bind (FlatRender.compute_agrees ?_) fun value => ?_
      · intro store hstore
        exact ⟨hstore.sameOn.expr_eq depth hsettled, fun _ _ => trivial⟩
      · apply FlatRender.changeStore_agrees
        intro store hstore
        apply hstore.setVariable hmono
        intro entry hentry
        exact (hmore entry hentry).imp_right fun hself => (Option.some.inj hself).symm
  | function f =>
      have hsettled : f.KeepsTo (host.Settled other (Node.bound (before ++ [.function f]))) := by
        intro kind n hn
        have hleaf := Node.mem_mentions_of_leaf (n := .function f) List.mem_cons_self hn
        rcases h.settled hchild hleaf with hsettled | ⟨-, hself⟩
        · exact hsettled.imp_right fun hbound => hmono hbound
        · exact .inr (Node.mem_bound_concat.mpr (.inr hself))
      have hlearn (store : Store) (hstore : store.Shields host other (Node.bound before)) :
          (store.setFunction f).Shields host other (Node.bound (before ++ [.function f])) := by
        apply hstore.setFunction hmono _ hsettled
        intro entry hentry
        exact (hmore entry hentry).imp_right fun hself => (Option.some.inj hself).symm
      exact FlatRender.changeStore_agrees hlearn

theorem AlikeFor.topNodes_agrees {σ : Type} [Sink σ] (h : sheet.AlikeFor host other) (depth : Nat)
    {before after : List Node} (hsplit : sheet.children = before ++ after) :
    FlatRender.Agrees (Store.Shields host other (Node.bound before))
      (Store.Shields host other (Node.bound sheet.children)) (fun _ => True)
      (FlatRender.topNodes ⟨host, depth⟩ after : FlatRender σ Unit)
      (FlatRender.topNodes ⟨other, depth⟩ after) := by
  induction after generalizing before with
  | nil =>
      rw [hsplit, List.append_nil]
      exact .pure ()
  | cons child rest ih =>
      have hrest : sheet.children = (before ++ [child]) ++ rest := by simp [hsplit]
      exact (h.topNode_agrees depth hsplit).bind fun _ => ih hrest

/-- Two hosts render a sheet alike if they agree on the names that it mentions, except for those
that it binds at the top before it uses them. -/
theorem host_matters_by_mentions (sheet : Sheet) (host other : Host)
    (h : sheet.AlikeFor host other) (depth : Nat) {σ : Type} [Sink σ] (sink : σ) :
    sheet.renderIn ⟨other, depth⟩ sink = sheet.renderIn ⟨host, depth⟩ sink := by
  have hagrees : FlatRender.Agrees _ _ _
      (FlatRender.topNodes ⟨host, depth⟩ sheet.children : FlatRender σ Unit)
      (FlatRender.topNodes ⟨other, depth⟩ sheet.children) :=
    h.topNodes_agrees depth (List.nil_append _).symm
  have hempty : Store.Shields host other (Node.bound []) {} :=
    ⟨by simp [Node.bound], .empty⟩
  exact (renderIn_of_agrees hagrees hempty (fun _ _ => trivial) sink).1

end Sheet

/-- A variable and a function that are defined before they are used. The variable takes its value
from the host, and a default of the function from the variable. -/
def sheetWithOwnNames : Sheet :=
  ⟨[.assignment "x" ⟨[.reference "y" 1], 1⟩ 1,
    .function ⟨"g", [⟨"p", some ⟨[.reference "x" 2], 2⟩⟩], ⟨[.reference "p" 2], 2⟩, 2⟩,
    .rule ["a"] [
      .declaration "color" [.group [.call "g" 0 4] 4, .reference "x" 4, .reference "y" 4] 4] 3]⟩

def plainHost : Host := .ofTables [HostTable.define {} "y" (.ident "blue")]

/-- A host with a variable and a function that the sheet has too, and a variable that it does not
mention. -/
def richHost : Host :=
  .ofTables [HostTable.define {} "x" (.ident "red"), HostTable.define {} "y" (.ident "blue"),
    HostTable.provide {} ⟨"g", 0, fun _ => .error "not asked"⟩,
    HostTable.define {} "z" (.ident "red")]

theorem alikeFor_sheetWithOwnNames : sheetWithOwnNames.AlikeFor plainHost richHost := by
  have hvalues : ∀ child ∈ sheetWithOwnNames.children, ∀ name ∈ child.mentions .value,
      name = "x" ∨ name = "y" ∨ name = "p" := by
    decide
  have hfunctions : ∀ child ∈ sheetWithOwnNames.children, ∀ name ∈ child.mentions .function,
      name = "g" := by
    decide
  intro child hchild kind name hname
  cases kind with
  | value =>
      rcases hvalues child hchild name hname with rfl | rfl | rfl
      · exact .inr ⟨[], _, _, rfl, rfl, by simp, by decide⟩
      · exact .inl rfl
      · exact .inl rfl
  | function =>
      rw [hfunctions child hchild name hname]
      exact .inr ⟨[_], _, _, rfl, rfl, by decide, by simp⟩

theorem host_matters_by_mentions_ownNames :
    sheetWithOwnNames.AlikeFor plainHost richHost ∧
      plainHost.value? "x" = none ∧ richHost.value? "x" = some (.ident "red") ∧
      (sheetWithOwnNames.renderIn ⟨plainHost, 1⟩ ({} : Buffer)).result = .ok () ∧
      sheetWithOwnNames.renderIn ⟨richHost, 1⟩ ({} : Buffer) =
        sheetWithOwnNames.renderIn ⟨plainHost, 1⟩ ({} : Buffer) :=
  ⟨alikeFor_sheetWithOwnNames, rfl, rfl, by decide +kernel,
    Sheet.host_matters_by_mentions _ _ _ alikeFor_sheetWithOwnNames 1 ({} : Buffer)⟩

end Stylesheet
