import Mathlib.Data.List.Induction
import Stylesheet.Proofs.Transcript

/-!
What a failed rendering leaves behind. The failing node is never a rule: it is a declaration or a
definition at some position of the sheet, and nothing of it was written. The sheet that ends just
before it renders, with the same text but for the end of the block that the failure left open.
-/

namespace Stylesheet

namespace Node

def isRule : Node → Bool
  | .rule .. => true
  | _ => false

def isDeclaration : Node → Bool
  | .declaration .. => true
  | _ => false

/-- Is there a declaration after the last rule? -/
def declaresLast (nodes : List Node) : Bool :=
  (nodes.reverse.takeWhile fun n => !n.isRule).any isDeclaration

/-- Is the block of the rule open after the node? -/
def openAfter (isOpen : Bool) : Node → Bool
  | .rule .. => false
  | .declaration .. => true
  | _ => isOpen

/-- The last node decides whether a block stands open after nodes. -/
theorem declaresLast_concat (nodes : List Node) (n : Node) :
    declaresLast (nodes ++ [n]) = n.openAfter (declaresLast nodes) := by
  cases n <;> simp [declaresLast, openAfter, isRule, isDeclaration]

/-- Nodes that are rendered in order leave a block open as the last one says. -/
theorem foldl_openAfter (nodes : List Node) :
    nodes.foldl openAfter false = declaresLast nodes := by
  induction nodes using List.reverseRecOn with
  | nil => rfl
  | append_singleton earlier n ih => simp [ih, declaresLast_concat]

end Node

/-- A node in a list of nodes, among them or inside one of their rules. -/
inductive Position where
  | here (before : List Node) (node : Node) (after : List Node)
  | inside (before : List Node) (selectors : List String) (pos : Position) (line : Nat)
      (after : List Node)

namespace Position

/-- The nodes that the position is in. -/
def nodes : Position → List Node
  | .here before node after => before ++ node :: after
  | .inside before selectors pos line after =>
    before ++ .rule selectors pos.nodes line :: after

/-- The node at the position. -/
def node : Position → Node
  | .here _ node _ => node
  | .inside _ _ pos _ _ => pos.node

/-- The nodes before the one at the position that share its rule. -/
def siblings : Position → List Node
  | .here before _ _ => before
  | .inside _ _ pos _ _ => pos.siblings

/-- The nodes without the one at the position and all that follows it. The rules around it stay, and
end there. -/
def truncated : Position → List Node
  | .here before _ _ => before
  | .inside before selectors pos line _ => before ++ [.rule selectors pos.truncated line]

/-- The nodes up to the one at the position. -/
def through : Position → List Node
  | .here before node _ => before ++ [node]
  | .inside before selectors pos line _ => before ++ [.rule selectors pos.through line]

def isTop : Position → Bool
  | .here .. => true
  | .inside .. => false

/-- Does a failure at the position leave a block open? -/
def leavesOpen (pos : Position) : Bool :=
  !pos.isTop && Node.declaresLast pos.siblings

/-- The position behind one more node. -/
def behind (first : Node) : Position → Position
  | .here before node after => .here (first :: before) node after
  | .inside before selectors pos line after => .inside (first :: before) selectors pos line after

/-- Is the innermost block open where the position begins, if the outermost one is open or not? -/
def opens (isOpen : Bool) : Position → Bool
  | .here before _ _ => before.foldl Node.openAfter isOpen
  | .inside _ _ pos _ _ => pos.opens false

theorem opens_false (pos : Position) : pos.opens false = Node.declaresLast pos.siblings := by
  induction pos with
  | here before node after => exact Node.foldl_openAfter before
  | inside before selectors pos line after ih => exact ih

theorem nodes_behind (first : Node) (pos : Position) :
    (pos.behind first).nodes = first :: pos.nodes := by
  cases pos <;> rfl

theorem node_behind (first : Node) (pos : Position) : (pos.behind first).node = pos.node := by
  cases pos <;> rfl

theorem through_behind (first : Node) (pos : Position) :
    (pos.behind first).through = first :: pos.through := by
  cases pos <;> rfl

/-- A node in front of the position stays whole. -/
theorem truncated_behind (first : Node) (pos : Position) :
    (pos.behind first).truncated = first :: pos.truncated := by
  cases pos <;> rfl

theorem opens_behind (first : Node) (isOpen : Bool) (pos : Position) :
    (pos.behind first).opens isOpen = pos.opens (first.openAfter isOpen) := by
  cases pos <;> rfl

/-- A node in front of the position does not matter to what is left open at it. -/
theorem leavesOpen_behind (first : Node) (pos : Position) :
    (pos.behind first).leavesOpen = pos.leavesOpen := by
  cases pos <;> rfl

end Position

namespace Render

section Steps

variable {τ α β : Type} {act : EStateM Error τ α} {next : α → EStateM Error τ β} {start : τ}

theorem bind_of_ok {a : α} {middle : τ} (h : act start = .ok a middle) :
    (act >>= next) start = next a middle := by
  change EStateM.bind act next start = _
  rw [EStateM.bind, h]

theorem bind_of_error {error : Error} {last : τ} (h : act start = .error error last) :
    (act >>= next) start = .error error last := by
  change EStateM.bind act next start = _
  rw [EStateM.bind, h]

/-- A failure comes from the first step, or from the second one after the first succeeded. -/
theorem error_of_bind {error : Error} {last : τ} (h : (act >>= next) start = .error error last) :
    act start = .error error last ∨
      ∃ a middle, act start = .ok a middle ∧ next a middle = .error error last := by
  cases hact : act start with
  | ok a middle => exact .inr ⟨a, middle, rfl, by rw [← h, bind_of_ok hact]⟩
  | error other final =>
      rw [bind_of_error hact] at h
      cases h
      exact .inl rfl

theorem ok_of_bind {b : β} {last : τ} (h : (act >>= next) start = .ok b last) :
    ∃ a middle, act start = .ok a middle ∧ next a middle = .ok b last := by
  cases hact : act start with
  | ok a middle => exact ⟨a, middle, rfl, by rw [← h, bind_of_ok hact]⟩
  | error other final =>
      rw [bind_of_error hact] at h
      cases h

end Steps

section Runs

variable {σ α β : Type} {act : Render σ α} {next : α → Render σ β} {progress : Progress σ}

/-- The page that a run has left. -/
def pageLeft : EStateM.Result Error (Progress σ) α → Page σ
  | .ok _ progress | .error _ progress => progress.page

/-- The step leaves the page as it is, also when it fails. -/
def KeepsPage (act : Render σ α) : Prop :=
  ∀ progress, pageLeft (act progress) = progress.page

theorem KeepsPage.page_of_error {error : Error} {last : Progress σ} (h : KeepsPage act)
    (herror : act progress = .error error last) : last.page = progress.page := by
  have hkept := h progress
  rw [herror] at hkept
  exact hkept

theorem KeepsPage.pure (a : α) : KeepsPage (pure a : Render σ α) := fun _ => rfl

/-- Steps that do not write can be chained. -/
theorem KeepsPage.bind (h : KeepsPage act) (hnext : ∀ a, KeepsPage (next a)) :
    KeepsPage (act >>= next) := by
  intro progress
  have hkept := h progress
  cases hact : act progress with
  | ok a middle =>
      rw [hact] at hkept
      rw [bind_of_ok hact, hnext a middle]
      exact hkept
  | error error last =>
      rw [hact] at hkept
      rw [bind_of_error hact]
      exact hkept

theorem eval_keepsPage (evaluation : Eval α) : KeepsPage (eval evaluation : Render σ α) := by
  intro progress
  unfold eval
  cases evaluation progress.scopes <;> rfl

/-- The values of a declaration are computed before anything of it is written. -/
theorem values_keepsPage (setting : Setting) (scope : Nat) (terms : List Term) :
    KeepsPage (values setting scope terms : Render σ (List Value)) := by
  induction terms with
  | nil => exact .pure []
  | cons t rest ih =>
      exact (eval_keepsPage _).bind fun value => ih.bind fun others => .pure _

/-- Definitions write nothing. -/
theorem define_keepsPage (setting : Setting) (scope : Nat) (n : Node) :
    KeepsPage (define setting scope n : Render σ Unit) := by
  cases n with
  | rule own children line => exact fun _ => rfl
  | declaration property terms line => exact fun _ => rfl
  | assignment name e line => exact (eval_keepsPage _).bind fun value => fun _ => rfl
  | function definition => exact fun _ => rfl

end Runs

theorem close_record (block : Block) (progress : Progress Record) :
    write block Page.close progress = .ok { block with isOpen := false }
      ⟨progress.scopes, ⟨progress.page.sink.pieces ++ Page.closing block⟩,
        progress.page.blocks⟩ := by
  have hclose (page : Page Record) : Page.Puts Page.close page block (Page.closing block)
      (page.blocks + 0) { block with isOpen := false } := Page.close_puts page block
  exact write_record hclose _ _ _

/-- A declaration is written as one line, after the head where the block is closed. -/
theorem declaration_record (block : Block) (property : String) (values : List Value)
    (progress : Progress Record) :
    write block (Page.declaration property values) progress = .ok { block with isOpen := true }
      ⟨progress.scopes,
        ⟨progress.page.sink.pieces ++
          (Page.opening block ++ [Page.declarationLine property values])⟩,
        progress.page.blocks + (Page.opening block).length⟩ :=
  write_record (fun page => Page.declaration_puts property values page block) _ _ _

/-- The inside of a rule runs in a new scope, whose number is known beforehand. -/
theorem inRule_eq {σ : Type} [Sink σ] (parent : Nat) (selectors : List String)
    (body : Nat → Block → Render σ Block) (progress : Progress σ) :
    inRule parent selectors body progress =
      (body progress.scopes.count { head := Selector.head selectors } >>= fun block =>
        write block Page.close >>= fun _ =>
          changeScopes fun scopes => scopes.leave progress.scopes.count)
        { progress with scopes := progress.scopes.enter parent } := rfl

theorem rule_eq (setting : Setting) (scope : Nat) (selectors : List String) (block : Block)
    (own : List String) (children : List Node) (line : Nat) (progress : Progress Record) :
    node setting scope selectors block (.rule own children line) progress =
      (inRule scope (Selector.flatten own (some selectors)) (fun child opened =>
        nodes setting child (Selector.flatten own (some selectors)) opened children) >>=
          fun _ => pure { block with isOpen := false })
        ⟨progress.scopes, ⟨progress.page.sink.pieces ++ Page.closing block⟩,
          progress.page.blocks⟩ :=
  bind_of_ok (close_record block progress)

/-- A node closes its rule's block, opens it, or leaves it as it is. -/
theorem isOpen_of_node {setting : Setting} {scope : Nat} {selectors : List String}
    {block after : Block} {n : Node} {progress last : Progress Record}
    (h : node setting scope selectors block n progress = .ok after last) :
    after.isOpen = n.openAfter block.isOpen := by
  cases n with
  | rule own children line =>
      obtain ⟨closed, middle, hclose, hrest⟩ := ok_of_bind h
      rw [close_record] at hclose
      cases hclose
      obtain ⟨_, inner, -, hlast⟩ := ok_of_bind hrest
      cases hlast
      rfl
  | declaration property terms line =>
      obtain ⟨present, middle, -, hwrite⟩ := ok_of_bind h
      rw [declaration_record] at hwrite
      cases hwrite
      rfl
  | assignment name e line =>
      obtain ⟨_, middle, -, hlast⟩ := ok_of_bind h
      cases hlast
      rfl
  | function definition =>
      obtain ⟨_, middle, -, hlast⟩ := ok_of_bind h
      cases hlast
      rfl

/-- A declaration or a definition that fails has written nothing. -/
theorem page_of_node_error {setting : Setting} {scope : Nat} {selectors : List String}
    {block : Block} {n : Node} {progress last : Progress Record} {error : Error}
    (hleaf : n.isRule = false)
    (h : node setting scope selectors block n progress = .error error last) :
    last.page = progress.page := by
  cases n with
  | rule own children line => cases hleaf
  | declaration property terms line =>
      rcases error_of_bind h with hvalues | ⟨present, middle, -, hwrite⟩
      · exact (values_keepsPage setting scope terms).page_of_error hvalues
      · rw [declaration_record] at hwrite
        cases hwrite
  | assignment name e line =>
      have hkeeps : KeepsPage (node setting scope selectors block (.assignment name e line) :
          Render Record Block) :=
        (define_keepsPage setting scope _).bind fun _ => .pure block
      exact hkeeps.page_of_error h
  | function definition =>
      have hkeeps : KeepsPage (node setting scope selectors block (.function definition) :
          Render Record Block) :=
        (define_keepsPage setting scope _).bind fun _ => .pure block
      exact hkeeps.page_of_error h

/-- The nodes fail at the position: not before it, and with nothing written of the node there. Cut
before it they succeed, and what they have written then, up to the end of their block, is what the
failed run had written with what it has left `missing`. -/
structure FailsAt {α : Type} (run : List Node → EStateM.Result Error (Progress Record) α)
    (ending : α → List String) (error : Error) (last : Progress Record) (pos : Position)
    (missing : List String) : Prop where
  leaf : pos.node.isRule = false
  through : run pos.through = .error error last
  truncated : ∃ after final, run pos.truncated = .ok after final ∧
    final.page.sink.pieces ++ ending after = last.page.sink.pieces ++ missing

/-- A failure among later nodes is a failure among all, one node further on. -/
theorem FailsAt.behind {α : Type} {run rest : List Node → EStateM.Result Error (Progress Record) α}
    {ending : α → List String} {error : Error} {last : Progress Record} {pos : Position}
    {missing : List String} {first : Node} (h : FailsAt rest ending error last pos missing)
    (hrun : ∀ nodes, run (first :: nodes) = rest nodes) :
    FailsAt run ending error last (pos.behind first) missing := by
  constructor
  · rw [Position.node_behind]
    exact h.leaf
  · rw [Position.through_behind, hrun]
    exact h.through
  · rw [Position.truncated_behind, hrun]
    exact h.truncated

/-- The end of the block that a failure at the position leaves open. -/
def missingEnd (isOpen : Bool) : List String :=
  if isOpen then [Page.closeLine] else []

/-- The failure of a rule is the failure of its children. -/
theorem inRule_fails {setting : Setting} {parent : Nat} {selectors : List String}
    {children : List Node} {progress last : Progress Record} {error : Error}
    (hnodes : ∀ {scope block progress},
      nodes setting scope selectors block children progress = .error error last →
      ∃ pos : Position, pos.nodes = children ∧
        FailsAt (fun children => nodes setting scope selectors block children progress)
          Page.closing error last pos (missingEnd (pos.opens block.isOpen)))
    (h : inRule parent selectors (fun scope block => nodes setting scope selectors block children)
      progress = .error error last) :
    ∃ pos : Position, pos.nodes = children ∧
      FailsAt (fun children => inRule parent selectors
        (fun scope block => nodes setting scope selectors block children) progress)
        (fun _ => []) error last pos (missingEnd (pos.opens false)) := by
  rw [inRule_eq] at h
  rcases error_of_bind h with hinside | ⟨block, middle, -, hend⟩
  · obtain ⟨pos, hchildren, hleaf, hthrough, block, inner, htruncated, hpieces⟩ :=
      hnodes hinside
    refine ⟨pos, hchildren, hleaf, ?_, ?_⟩
    · rw [inRule_eq]
      exact bind_of_error hthrough
    · rw [inRule_eq, bind_of_ok htruncated, bind_of_ok (close_record block inner)]
      refine ⟨(), _, rfl, ?_⟩
      rw [List.append_nil]
      exact hpieces
  · rw [bind_of_ok (close_record block middle)] at hend
    cases hend

/-- A declaration or a definition fails at its own position. -/
theorem leaf_fails {setting : Setting} {scope : Nat} {selectors : List String} {block : Block}
    {n : Node} {progress last : Progress Record} {error : Error} (rest : List Node)
    (hleaf : n.isRule = false)
    (h : node setting scope selectors block n progress = .error error last) :
    FailsAt (fun children => nodes setting scope selectors block children progress) Page.closing
      error last (.here [] n rest) (missingEnd block.isOpen) := by
  constructor
  · exact hleaf
  · exact bind_of_error h
  · refine ⟨block, progress, rfl, ?_⟩
    rw [page_of_node_error hleaf h]
    rfl

theorem join_missingEnd (isOpen : Bool) :
    String.join (missingEnd isOpen) = if isOpen then "\x7d\n" else "" := by
  cases isOpen <;> simp [missingEnd, Page.closeLine]

mutual

/-- A node that fails does so at a position inside it; up to there the output is that of the
truncated tree. -/
theorem node_fails {setting : Setting} {scope : Nat} {selectors : List String} {block : Block}
    {n : Node} {progress last : Progress Record} {error : Error} (rest : List Node)
    (h : node setting scope selectors block n progress = .error error last) :
    ∃ pos : Position, pos.nodes = n :: rest ∧
      FailsAt (fun children => nodes setting scope selectors block children progress) Page.closing
        error last pos (missingEnd (pos.opens block.isOpen)) := by
  cases n with
  | rule own children line =>
      rw [rule_eq] at h
      rcases error_of_bind h with hrule | ⟨_, middle, -, hpure⟩
      · obtain ⟨pos, rfl, hpos⟩ := inRule_fails (fun h => nodes_fails h) hrule
        refine ⟨.inside [] own pos line rest, rfl, hpos.leaf, ?_, ?_⟩
        · apply bind_of_error
          rw [rule_eq]
          exact bind_of_error hpos.through
        · obtain ⟨_, final, htruncated, hpieces⟩ := hpos.truncated
          refine ⟨{ block with isOpen := false }, final, ?_, hpieces⟩
          have hcut : node setting scope selectors block (.rule own pos.truncated line) progress =
              .ok { block with isOpen := false } final := by
            rw [rule_eq]
            exact bind_of_ok htruncated
          exact bind_of_ok hcut
      · cases hpure
  | declaration property terms line => exact ⟨_, rfl, leaf_fails rest rfl h⟩
  | assignment name e line => exact ⟨_, rfl, leaf_fails rest rfl h⟩
  | function definition => exact ⟨_, rfl, leaf_fails rest rfl h⟩

/-- Nodes that fail do so at the position of the first one that does. -/
theorem nodes_fails {setting : Setting} {scope : Nat} {selectors : List String} {block : Block}
    {children : List Node} {progress last : Progress Record} {error : Error}
    (h : nodes setting scope selectors block children progress = .error error last) :
    ∃ pos : Position, pos.nodes = children ∧
      FailsAt (fun children => nodes setting scope selectors block children progress) Page.closing
        error last pos (missingEnd (pos.opens block.isOpen)) := by
  cases children with
  | nil => cases h
  | cons first rest =>
      rcases error_of_bind h with hfirst | ⟨after, middle, hfirst, hrest⟩
      · exact node_fails rest hfirst
      · obtain ⟨pos, rfl, hpos⟩ := nodes_fails hrest
        refine ⟨pos.behind first, Position.nodes_behind first pos, ?_⟩
        rw [Position.opens_behind, ← isOpen_of_node hfirst]
        apply hpos.behind
        intro nodes
        exact bind_of_ok hfirst

end

theorem topNode_fails {setting : Setting} {n : Node} {progress last : Progress Record}
    {error : Error} (rest : List Node) (h : topNode setting n progress = .error error last) :
    ∃ pos : Position, pos.nodes = n :: rest ∧
      FailsAt (fun children => topNodes setting children progress) (fun _ => []) error last pos
        (missingEnd pos.leavesOpen) := by
  have hdefinition (hleaf : n.isRule = false)
      (hdefine : define setting 0 n progress = .error error last) :
      FailsAt (fun children => topNodes setting children progress) (fun _ => []) error last
        (.here [] n rest) [] := by
    have hkept := (define_keepsPage setting 0 n).page_of_error hdefine
    refine ⟨hleaf, bind_of_error h, (), progress, rfl, ?_⟩
    rw [hkept]
  cases n with
  | rule own children line =>
      obtain ⟨pos, rfl, hpos⟩ := inRule_fails (fun h => nodes_fails h) h
      refine ⟨.inside [] own pos line rest, rfl, hpos.leaf, bind_of_error hpos.through, ?_⟩
      obtain ⟨_, final, htruncated, hpieces⟩ := hpos.truncated
      refine ⟨(), final, bind_of_ok htruncated, ?_⟩
      rw [hpieces, Position.opens_false]
      rfl
  | declaration property terms line => exact ⟨_, rfl, hdefinition rfl h⟩
  | assignment name e line => exact ⟨_, rfl, hdefinition rfl h⟩
  | function definition => exact ⟨_, rfl, hdefinition rfl h⟩

/-- The same for the nodes at the top of a sheet, where no block is open. -/
theorem topNodes_fails {setting : Setting} {children : List Node} {progress last : Progress Record}
    {error : Error} (h : topNodes setting children progress = .error error last) :
    ∃ pos : Position, pos.nodes = children ∧
      FailsAt (fun children => topNodes setting children progress) (fun _ => []) error last pos
        (missingEnd pos.leavesOpen) := by
  induction children generalizing progress with
  | nil => cases h
  | cons first rest ih =>
      rcases error_of_bind h with hfirst | ⟨_, middle, hfirst, hrest⟩
      · exact topNode_fails rest hfirst
      · obtain ⟨pos, rfl, hpos⟩ := ih hrest
        refine ⟨pos.behind first, Position.nodes_behind first pos, ?_⟩
        rw [Position.leavesOpen_behind]
        apply hpos.behind
        intro nodes
        exact bind_of_ok hfirst

end Render

namespace Sheet

theorem exists_topNodes_error {sheet : Sheet} {setting : Render.Setting} {error : Error}
    (h : (sheet.transcript setting).result = .error error) :
    ∃ last, Render.topNodes setting sheet.children ⟨.initial, ({} : Record), 0⟩ =
      .error error last := by
  cases hrun : Render.topNodes setting sheet.children ⟨.initial, ({} : Record), 0⟩ with
  | ok _ last =>
      rw [transcript_of_ok hrun] at h
      cases h
  | error other last =>
      rw [transcript_of_error hrun] at h
      cases h
      exact ⟨last, rfl⟩

/-- A failure leaves the text of the sheet that ends before the failing node, but for the end of the
block that stands open there. -/
theorem failure_leaves_truncated (sheet : Sheet) (setting : Render.Setting) (buffer : Buffer)
    (error : Error) (hlimit : buffer.limit = none) (hflushFails : buffer.flushFails = false)
    (h : (sheet.renderIn setting buffer).result = .error error) :
    ∃ pos : Position, pos.nodes = sheet.children ∧ pos.node.isRule = false ∧
      (Sheet.renderIn ⟨pos.through⟩ setting buffer).result = .error error ∧
      (Sheet.renderIn ⟨pos.through⟩ setting buffer).page.sink.bytes =
        (sheet.renderIn setting buffer).page.sink.bytes ∧
      (Sheet.renderIn ⟨pos.truncated⟩ setting buffer).result = .ok () ∧
      (Sheet.renderIn ⟨pos.truncated⟩ setting buffer).page.sink.bytes =
        (sheet.renderIn setting buffer).page.sink.bytes ++
          (if pos.leavesOpen then "\x7d\n" else "").toUTF8 := by
  have hunfailing (sheet : Sheet) := renderIn_unfailing sheet setting hlimit hflushFails
  rw [(hunfailing sheet).1] at h
  obtain ⟨last, hrun⟩ := exists_topNodes_error h
  obtain ⟨pos, hnodes, hleaf, hthrough, _, final, htruncated, hpieces⟩ :=
    Render.topNodes_fails hrun
  have hwhole := transcript_of_error hrun
  have hfailed : transcript ⟨pos.through⟩ setting = ⟨.error error, last.page⟩ :=
    transcript_of_error hthrough
  have hcut : transcript ⟨pos.truncated⟩ setting = ⟨.ok (), final.page⟩ :=
    transcript_of_ok htruncated
  refine ⟨pos, hnodes, hleaf, ?_, ?_, ?_, ?_⟩
  · rw [(hunfailing _).1, hfailed]
  · rw [(hunfailing _).2, (hunfailing _).2, hfailed, hwhole]
  · rw [(hunfailing _).1, hcut]
  · rw [List.append_nil] at hpieces
    rw [(hunfailing _).2, (hunfailing _).2, hcut, hwhole, hpieces, String.join_append,
      Render.join_missingEnd]
    simp only [String.toUTF8_eq_toByteArray, String.toByteArray_append, ByteArray.append_assoc]

end Sheet

/-- A nested rule whose second declaration calls a function that there is none of. -/
def sheetOfMissingCall : Sheet :=
  ⟨[.rule ["a"] [
    .declaration "top" [] 2,
    .rule ["b"] [
      .declaration "left" [] 4,
      .assignment "x" ⟨[], 5⟩ 5,
      .declaration "right" [.reference "x" 6, .group [.call "f" 0 6] 6] 6,
      .declaration "width" [] 7] 3,
    .declaration "bottom" [] 8] 1]⟩

theorem failure_leaves_truncated_at_call :
    (sheetOfMissingCall.renderIn ⟨.nothing, 0⟩ ({} : Buffer)).result =
      .error (.functionNotFound "f" 6) ∧
    ∃ pos : Position, pos.nodes = sheetOfMissingCall.children ∧ pos.node.isRule = false ∧
      (Sheet.renderIn ⟨pos.through⟩ ⟨.nothing, 0⟩ ({} : Buffer)).result =
        .error (.functionNotFound "f" 6) ∧
      (Sheet.renderIn ⟨pos.through⟩ ⟨.nothing, 0⟩ ({} : Buffer)).page.sink.bytes =
        (sheetOfMissingCall.renderIn ⟨.nothing, 0⟩ ({} : Buffer)).page.sink.bytes ∧
      (Sheet.renderIn ⟨pos.truncated⟩ ⟨.nothing, 0⟩ ({} : Buffer)).result = .ok () ∧
      (Sheet.renderIn ⟨pos.truncated⟩ ⟨.nothing, 0⟩ ({} : Buffer)).page.sink.bytes =
        (sheetOfMissingCall.renderIn ⟨.nothing, 0⟩ ({} : Buffer)).page.sink.bytes ++
          (if pos.leavesOpen then "\x7d\n" else "").toUTF8 := by
  have hfailed : (sheetOfMissingCall.renderIn ⟨.nothing, 0⟩ ({} : Buffer)).result =
      .error (.functionNotFound "f" 6) := by
    rw [(Sheet.renderIn_unfailing sheetOfMissingCall ⟨.nothing, 0⟩ rfl rfl).1]
    rfl
  exact ⟨hfailed, Sheet.failure_leaves_truncated sheetOfMissingCall ⟨.nothing, 0⟩ {} _ rfl rfl
    hfailed⟩

end Stylesheet
