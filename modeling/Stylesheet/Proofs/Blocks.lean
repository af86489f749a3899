import Stylesheet.Proofs.Transcript

/-!
The blocks of a rendered sheet. Rendering is split in two: a pass that only evaluates, and leaves
the outline of the sheet with all values computed, and the blocks that are read off the outline. The
children of a rule are cut at its nested rules into runs. A run with declarations is one block, a
run without is none, and the blocks of a nested rule stand between the runs on its two sides.
-/

namespace Stylesheet

/-- A node whose values are computed. -/
inductive Outline where
  | rule (selectors : List String) (children : List Outline)
  | declaration (property : String) (values : List Value)
  | definition

namespace Eval

/-- Evaluates in a new scope within `parent`, which is left at the end. -/
def inScope {α : Type} (parent : Nat) (act : Nat → Eval α) : Eval α := do
  let child := (← get).count
  modify fun scopes => scopes.enter parent
  let result ← act child
  modify fun scopes => scopes.leave child
  return result

mutual

/-- Evaluates a node. The children of a rule have a scope of their own, and a definition changes the
scopes. -/
def outline (setting : Render.Setting) (scope : Nat) : Node → Eval Outline
  | .rule own children _ => do
    let inside ← inScope scope fun child => outlines setting child children
    return .rule own inside
  | .declaration property terms _ => do
    let values ← terms.mapM fun t =>
      Eval.term setting.host (Eval.invoke setting.host scope setting.depth) scope t
    return .declaration property (values.filterMap id)
  | .assignment name e _ => do
    let value ← Eval.expr setting.host (Eval.invoke setting.host scope setting.depth) scope e
    modify fun scopes => scopes.setVariable scope name value
    return .definition
  | .function definition => do
    modify fun scopes => scopes.setFunction scope definition
    return .definition

/-- Evaluates nodes in order. -/
def outlines (setting : Render.Setting) (scope : Nat) : List Node → Eval (List Outline)
  | [] => pure []
  | first :: rest => do
    let outlined ← outline setting scope first
    let others ← outlines setting scope rest
    return outlined :: others

end

/-- Evaluates a node at the top of a sheet, where a declaration is an error. -/
def topOutline (setting : Render.Setting) : Node → Eval Outline
  | .declaration _ _ line => fail (.unexpected .declaration line)
  | other => outline setting 0 other

end Eval

/-- Evaluates a sheet without writing anything. -/
def Sheet.outline (sheet : Sheet) (setting : Render.Setting) : Except Error (List Outline) :=
  match sheet.children.mapM (Eval.topOutline setting) .initial with
  | .ok outlines _ => .ok outlines
  | .error error _ => .error error

/-- A block of the output. -/
structure StyleBlock where
  head : String
  declarations : List (String × List Value)

/-- The text of a block: its head, a line for each declaration, and the end. -/
def StyleBlock.text (block : StyleBlock) : String :=
  block.head ++ "\x7b\n" ++
    String.join (block.declarations.map fun (property, values) =>
      "\t" ++ property ++ ":" ++ String.join (values.map fun v => " " ++ v.text) ++ ";\n") ++
    "\x7d\n"

namespace Outline

def isRule : Outline → Bool
  | .rule .. => true
  | _ => false

def declaration? : Outline → Option (String × List Value)
  | .declaration property values => some (property, values)
  | _ => none

/-- The declarations before the first nested rule. -/
def firstRun (children : List Outline) : List (String × List Value) :=
  (children.takeWhile fun child => !child.isRule).filterMap declaration?

/-- The block of a run, if there is a declaration in it. -/
def runBlock (selectors : List String) (run : List (String × List Value)) : List StyleBlock :=
  if run.isEmpty then [] else [⟨String.intercalate "," selectors, run⟩]

mutual

/-- The blocks of a node within the given selectors. Only a rule has any: the block of its first
run, and those from its first nested rule on. -/
def blocks (outer : Option (List String)) : Outline → List StyleBlock
  | .rule own children =>
    let selectors := Selector.flatten own outer
    runBlock selectors (firstRun children) ++ laterBlocks selectors children
  | _ => []

/-- The blocks from the first nested rule on: after those of each nested rule comes the block of the
run behind it. -/
def laterBlocks (selectors : List String) : List Outline → List StyleBlock
  | [] => []
  | child :: rest =>
    child.blocks (some selectors) ++
      (if child.isRule then runBlock selectors (firstRun rest) else []) ++
      laterBlocks selectors rest

end

/-- The blocks of a sheet. -/
def sheetBlocks (outlines : List Outline) : List StyleBlock :=
  outlines.flatMap fun outline => outline.blocks none

theorem firstRun_rule {own : List String} {children rest : List Outline} :
    firstRun (.rule own children :: rest) = [] := rfl

theorem firstRun_declaration {property : String} {values : List Value} {rest : List Outline} :
    firstRun (.declaration property values :: rest) = (property, values) :: firstRun rest := rfl

/-- A run without declarations makes no block. -/
theorem declarations_ne_nil_of_mem_runBlock {selectors : List String}
    {run : List (String × List Value)} {block : StyleBlock} (h : block ∈ runBlock selectors run) :
    block.declarations ≠ [] := by
  unfold runBlock at h
  split at h
  · cases h
  · next hrun =>
      obtain rfl := List.mem_singleton.mp h
      simpa using hrun

mutual

theorem declarations_ne_nil_of_mem_blocks {outer : Option (List String)} {outline : Outline}
    {block : StyleBlock} (h : block ∈ outline.blocks outer) : block.declarations ≠ [] := by
  cases outline with
  | declaration property values => cases h
  | definition => cases h
  | rule own children =>
      rcases List.mem_append.mp h with hrun | hlater
      · exact declarations_ne_nil_of_mem_runBlock hrun
      · exact declarations_ne_nil_of_mem_laterBlocks hlater

theorem declarations_ne_nil_of_mem_laterBlocks {selectors : List String} {children : List Outline}
    {block : StyleBlock} (h : block ∈ laterBlocks selectors children) :
    block.declarations ≠ [] := by
  cases children with
  | nil => cases h
  | cons child rest =>
      simp only [laterBlocks, List.mem_append] at h
      rcases h with (hchild | hrun) | hrest
      · exact declarations_ne_nil_of_mem_blocks hchild
      · split at hrun
        · exact declarations_ne_nil_of_mem_runBlock hrun
        · cases hrun
      · exact declarations_ne_nil_of_mem_laterBlocks hrest

end

/-- No block of a sheet is empty. -/
theorem declarations_ne_nil_of_mem_sheetBlocks {outlines : List Outline} {block : StyleBlock}
    (h : block ∈ sheetBlocks outlines) : block.declarations ≠ [] := by
  obtain ⟨outline, _, hblock⟩ := List.mem_flatMap.mp h
  exact declarations_ne_nil_of_mem_blocks hblock

end Outline

/-- The pieces in which a block is written. -/
def StyleBlock.pieces (block : StyleBlock) : List String :=
  Page.headLine block.head ::
    (block.declarations.map fun (property, values) => Page.declarationLine property values) ++
      [Page.closeLine]

theorem StyleBlock.join_pieces (block : StyleBlock) : String.join block.pieces = block.text := by
  simp only [pieces, text, Page.headLine, Page.closeLine, Page.declarationLine, String.join_append,
    String.join_cons, String.join_nil, String.append_assoc, List.cons_append, String.append_empty]

/-- The pieces of blocks make up their texts in order. -/
theorem StyleBlock.join_flatMap_pieces (blocks : List StyleBlock) :
    String.join (blocks.flatMap pieces) = String.join (blocks.map text) := by
  induction blocks with
  | nil => rfl
  | cons block rest ih =>
      rw [List.flatMap_cons, List.map_cons, String.join_append, String.join_cons, ih,
        StyleBlock.join_pieces]

namespace Render

/-- The pieces that the outlines have still to write with the block of their rule as it stands, the
end of the block included. -/
def toWrite (selectors : List String) (block : Block) (children : List Outline) : List String :=
  (if block.isOpen then
    (Outline.firstRun children).map
      (fun (property, values) => Page.declarationLine property values) ++ [Page.closeLine]
  else (Outline.runBlock selectors (Outline.firstRun children)).flatMap StyleBlock.pieces) ++
    (Outline.laterBlocks selectors children).flatMap StyleBlock.pieces

/-- How many blocks they have still to open. -/
def toOpen (selectors : List String) (block : Block) (children : List Outline) : Nat :=
  (if block.isOpen then 0
  else (Outline.runBlock selectors (Outline.firstRun children)).length) +
    (Outline.laterBlocks selectors children).length

theorem toWrite_nil (selectors : List String) (block : Block) :
    toWrite selectors block [] = Page.closing block := by
  obtain ⟨head, isOpen⟩ := block
  cases isOpen <;> rfl

/-- In a closed block all runs are still to be written, each as a block of its own. -/
theorem toWrite_closed (selectors : List String) (head : String) (children : List Outline) :
    toWrite selectors { head } children =
      (Outline.runBlock selectors (Outline.firstRun children) ++
        Outline.laterBlocks selectors children).flatMap StyleBlock.pieces := by
  simp [toWrite]

/-- A rule ends the run before it. Its own blocks come next, and what follows starts anew. -/
theorem toWrite_rule (selectors own : List String) (block : Block) (children rest : List Outline) :
    toWrite selectors block (.rule own children :: rest) = Page.closing block ++
      toWrite (Selector.flatten own (some selectors))
        { head := Selector.head (Selector.flatten own (some selectors)) } children ++
      toWrite selectors { block with isOpen := false } rest := by
  obtain ⟨head, isOpen⟩ := block
  rw [toWrite_closed, toWrite_closed]
  cases isOpen <;>
    simp [toWrite, Page.closing, Outline.firstRun_rule, Outline.laterBlocks, Outline.blocks,
      Outline.isRule, Outline.runBlock]

/-- A declaration opens the block where it is closed, and the run goes on. -/
theorem toWrite_declaration (selectors : List String) (block : Block) (property : String)
    (values : List Value) (rest : List Outline) (hhead : block.head = Selector.head selectors) :
    toWrite selectors block (.declaration property values :: rest) =
      Page.opening block ++ [Page.declarationLine property values] ++
        toWrite selectors { block with isOpen := true } rest := by
  obtain ⟨head, isOpen⟩ := block
  change head = String.intercalate "," selectors at hhead
  subst hhead
  cases isOpen <;>
    simp [toWrite, Page.opening, Outline.firstRun_declaration, Outline.laterBlocks, Outline.blocks,
      Outline.isRule, Outline.runBlock, StyleBlock.pieces]

theorem toOpen_nil (selectors : List String) (block : Block) : toOpen selectors block [] = 0 := by
  obtain ⟨head, isOpen⟩ := block
  cases isOpen <;> rfl

/-- Each of these blocks is counted once. -/
theorem toOpen_closed (selectors : List String) (head : String) (children : List Outline) :
    toOpen selectors { head } children =
      (Outline.runBlock selectors (Outline.firstRun children) ++
        Outline.laterBlocks selectors children).length := by
  simp [toOpen]

theorem toOpen_rule (selectors own : List String) (block : Block) (children rest : List Outline) :
    toOpen selectors block (.rule own children :: rest) =
      toOpen (Selector.flatten own (some selectors))
        { head := Selector.head (Selector.flatten own (some selectors)) } children +
      toOpen selectors { block with isOpen := false } rest := by
  obtain ⟨head, isOpen⟩ := block
  rw [toOpen_closed, toOpen_closed]
  cases isOpen <;>
    simp [toOpen, Outline.firstRun_rule, Outline.laterBlocks, Outline.blocks, Outline.isRule,
      Outline.runBlock, Nat.add_assoc]

theorem toOpen_declaration (selectors : List String) (block : Block) (property : String)
    (values : List Value) (rest : List Outline) :
    toOpen selectors block (.declaration property values :: rest) =
      (Page.opening block).length + toOpen selectors { block with isOpen := true } rest := by
  obtain ⟨head, isOpen⟩ := block
  cases isOpen <;>
    simp [toOpen, Page.opening, Outline.firstRun_declaration, Outline.laterBlocks, Outline.blocks,
      Outline.isRule, Outline.runBlock]

section Passes

variable {α β γ δ : Type}

/-- How a run on a record goes with an evaluation: both fail alike, or both succeed, and then `spec`
tells what the run has added to the record and to the count of blocks. -/
inductive GoesWith (spec : α → β → List String → Nat → Prop) (before : List String)
    (blocks : Nat) :
    EStateM.Result Error Scopes α → EStateM.Result Error (Progress Record) β → Prop where
  | ok {a : α} {b : β} {scopes : Scopes} {new : List String} {opened : Nat}
      (hspec : spec a b new opened) :
      GoesWith spec before blocks (.ok a scopes) (.ok b ⟨scopes, ⟨before ++ new⟩, blocks + opened⟩)
  | error {error : Error} {scopes : Scopes} {page : Page Record} :
      GoesWith spec before blocks (.error error scopes) (.error error ⟨scopes, page⟩)

def Writes (act : Render Record β) (pass : Eval α) (spec : α → β → List String → Nat → Prop) :
    Prop :=
  ∀ scopes before blocks,
    GoesWith spec before blocks (pass scopes) (act ⟨scopes, ⟨before⟩, blocks⟩)

/-- Two steps write what the first one writes and then what the second one does. -/
theorem Writes.bind {act : Render Record β} {pass : Eval α} {next : β → Render Record δ}
    {nextPass : α → Eval γ} {spec : α → β → List String → Nat → Prop}
    {final : γ → δ → List String → Nat → Prop} (h : Writes act pass spec)
    (hnext : ∀ a b new opened, spec a b new opened → Writes (next b) (nextPass a)
      fun c d later more => final c d (new ++ later) (opened + more)) :
    Writes (act >>= next) (pass >>= nextPass) final := by
  intro scopes before blocks
  have hact := h scopes before blocks
  change GoesWith final before blocks (EStateM.bind pass nextPass _) (EStateM.bind act next _)
  unfold EStateM.bind
  revert hact
  generalize pass scopes = evaluated
  generalize act ⟨scopes, ⟨before⟩, blocks⟩ = written
  intro hact
  cases hact with
  | error => exact .error
  | @ok a b middle new opened hspec =>
      have hrest := hnext a b new opened hspec middle (before ++ new) (blocks + opened)
      dsimp only
      revert hrest
      generalize nextPass a middle = evaluated
      generalize next b ⟨middle, ⟨before ++ new⟩, blocks + opened⟩ = written
      intro hrest
      cases hrest with
      | error => exact .error
      | ok hspec =>
          rw [List.append_assoc, Nat.add_assoc]
          exact .ok hspec

/-- A specification may be weakened. -/
theorem Writes.mono {act : Render Record β} {pass : Eval α}
    {spec final : α → β → List String → Nat → Prop} (h : Writes act pass spec)
    (hfinal : ∀ a b new opened, spec a b new opened → final a b new opened) :
    Writes act pass final := by
  intro scopes before blocks
  have hact := h scopes before blocks
  revert hact
  generalize pass scopes = evaluated
  generalize act ⟨scopes, ⟨before⟩, blocks⟩ = written
  intro hact
  cases hact with
  | error => exact .error
  | ok hspec => exact .ok (hfinal _ _ _ _ hspec)

theorem GoesWith.of_silent {spec : α → β → List String → Nat → Prop} {a : α} {b : β}
    {scopes : Scopes} {before : List String} {blocks : Nat} (h : spec a b [] 0) :
    GoesWith spec before blocks (.ok a scopes) (.ok b ⟨scopes, ⟨before⟩, blocks⟩) := by
  have hok : GoesWith spec before blocks (.ok a scopes)
      (.ok b ⟨scopes, ⟨before ++ []⟩, blocks + 0⟩) := .ok h
  rw [List.append_nil] at hok
  exact hok

theorem Writes.pure {a : α} {b : β} {spec : α → β → List String → Nat → Prop}
    (h : spec a b [] 0) : Writes (pure b) (pure a) spec :=
  fun _ _ _ => .of_silent h

theorem Writes.map {act : Render Record β} {pass : Eval α} {f : α → γ}
    {spec : α → β → List String → Nat → Prop} {final : γ → β → List String → Nat → Prop}
    (h : Writes act pass spec)
    (hfinal : ∀ a b new opened, spec a b new opened → final (f a) b new opened) :
    Writes act (pass >>= fun a => Pure.pure (f a)) final := by
  have hboth : Writes (act >>= Pure.pure) (pass >>= fun a => Pure.pure (f a)) final := by
    apply h.bind
    intro a b new opened hspec
    apply Writes.pure
    simpa using hfinal a b new opened hspec
  simpa using hboth

/-- Evaluation writes nothing. -/
theorem eval_writes (act : Eval α) :
    Writes (eval act) act fun a b new opened => b = a ∧ new = [] ∧ opened = 0 := by
  intro scopes before blocks
  unfold eval
  dsimp only
  cases act scopes with
  | error error after => exact .error
  | ok a after => exact .of_silent ⟨rfl, rfl, rfl⟩

theorem eval_bind_writes (act : Eval α) {next : α → Render Record β} {nextPass : α → Eval γ}
    {final : γ → β → List String → Nat → Prop}
    (hnext : ∀ a, Writes (next a) (nextPass a) final) :
    Writes (eval act >>= next) (act >>= nextPass) final := by
  apply (eval_writes act).bind
  rintro a b _ _ ⟨rfl, rfl, rfl⟩
  simpa using hnext b

/-- A write to the page goes with a pass that computes nothing. -/
theorem write_writes {block after : Block} {act : Page.Write Record Unit} {pieces : List String}
    (opened : Nat) (h : ∀ page, Page.Puts act page block pieces (page.blocks + opened) after)
    (a : α) :
    Writes (write block act) (pure a) fun result b new count =>
      result = a ∧ b = after ∧ new = pieces ∧ count = opened := by
  intro scopes before blocks
  rw [write_record h]
  exact .ok ⟨rfl, rfl, rfl, rfl⟩

/-- Closing the block comes before everything else that is written. -/
theorem close_bind_writes (block : Block) {next : Block → Render Record β} {pass : Eval α}
    {spec : α → β → List String → Nat → Prop}
    (hnext : Writes (next { block with isOpen := false }) pass
      fun a b new opened => spec a b (Page.closing block ++ new) opened) :
    Writes (write block Page.close >>= next) pass spec := by
  have hclose := write_writes 0 (fun page => Page.close_puts page block) ()
  have hboth : Writes (write block Page.close >>= next) (pure () >>= fun _ => pass) spec := by
    apply hclose.bind
    rintro _ _ _ _ ⟨rfl, rfl, rfl, rfl⟩
    simpa using hnext
  exact hboth

end Passes

/-- The values of a declaration are those of its terms that are present. -/
theorem values_writes (setting : Setting) (scope : Nat) (terms : List Term) :
    Writes (values setting scope terms)
      (terms.mapM fun t =>
        Eval.term setting.host (Eval.invoke setting.host scope setting.depth) scope t)
      fun found present new opened => present = found.filterMap id ∧ new = [] ∧ opened = 0 := by
  induction terms with
  | nil => exact .pure ⟨rfl, rfl, rfl⟩
  | cons t rest ih =>
      rw [List.mapM_cons]
      apply eval_bind_writes
      intro value
      apply ih.bind
      rintro others _ _ _ ⟨rfl, rfl, rfl⟩
      apply Writes.pure
      cases value <;> simp

/-- What the step from one child of a rule to the next has written. -/
structure Advances (selectors : List String) (block : Block) (outline : Outline) (after : Block)
    (new : List String) (opened : Nat) : Prop where
  head : after.head = block.head
  written : ∀ rest, toWrite selectors block (outline :: rest) = new ++ toWrite selectors after rest
  opened : ∀ rest, toOpen selectors block (outline :: rest) = opened + toOpen selectors after rest

/-- The pieces and the count are all that the children of a rule have to write and to open. -/
def Completes (selectors : List String) (block : Block) (outlines : List Outline)
    (new : List String) (opened : Nat) : Prop :=
  toWrite selectors block outlines = new ∧ toOpen selectors block outlines = opened

/-- A rule writes the blocks of its children, given that its children do. -/
theorem rule_writes {setting : Setting} (parent : Nat) (selectors : List String)
    {children : List Node} (h : ∀ scope, Writes
      (nodes setting scope selectors { head := Selector.head selectors } children)
      (Eval.outlines setting scope children) fun outlines after new opened =>
        Completes selectors { head := Selector.head selectors } outlines
          (new ++ Page.closing after) opened) :
    Writes
      (inRule parent selectors fun scope block => nodes setting scope selectors block children)
      (Eval.inScope parent fun scope => Eval.outlines setting scope children)
      fun outlines _ new opened =>
        Completes selectors { head := Selector.head selectors } outlines new opened := by
  intro scopes before blocks
  have hleave (outlines : List Outline) : Writes (changeScopes fun live => live.leave scopes.count)
      ((modify fun live => live.leave scopes.count) >>= fun _ =>
        (pure outlines : Eval (List Outline)))
      fun result _ new opened => result = outlines ∧ new = [] ∧ opened = 0 :=
    fun _ _ _ => .of_silent ⟨rfl, rfl, rfl⟩
  have hbody : Writes
      (nodes setting scopes.count selectors { head := Selector.head selectors } children >>=
        fun block => write block Page.close >>= fun _ =>
          changeScopes fun live => live.leave scopes.count)
      (Eval.outlines setting scopes.count children >>= fun outlines =>
        (modify fun live => live.leave scopes.count) >>= fun _ => pure outlines)
      fun outlines _ new opened =>
        Completes selectors { head := Selector.head selectors } outlines new opened := by
    apply (h scopes.count).bind
    intro outlines block new opened hspec
    apply close_bind_writes
    apply (hleave outlines).mono
    rintro _ _ _ _ ⟨rfl, rfl, rfl⟩
    simpa using hspec
  have hrule := eval_bind_writes (modify fun live => live.enter parent) fun _ => hbody
  exact hrule scopes before blocks

mutual

/-- A node inside a rule advances the run that is open, by induction on the tree. -/
theorem node_writes (setting : Setting) (scope : Nat) (selectors : List String) (block : Block)
    (hhead : block.head = Selector.head selectors) (n : Node) :
    Writes (node setting scope selectors block n) (Eval.outline setting scope n)
      (Advances selectors block) := by
  cases n with
  | rule own children line =>
      apply close_bind_writes
      apply (rule_writes scope _ fun child => nodes_writes setting child _ _ rfl children).bind
      rintro inside _ new opened ⟨hwritten, hopened⟩
      apply Writes.pure
      constructor
      · rfl
      · intro rest
        rw [toWrite_rule, hwritten]
        simp
      · intro rest
        rw [toOpen_rule, hopened, Nat.add_zero]
  | declaration property terms line =>
      apply (values_writes setting scope terms).bind
      rintro found _ _ _ ⟨rfl, rfl, rfl⟩
      apply (write_writes (Page.opening block).length (fun page =>
        Page.declaration_puts property (found.filterMap id) page block) _).mono
      rintro _ _ _ _ ⟨rfl, rfl, rfl, rfl⟩
      constructor
      · rfl
      · intro rest
        rw [toWrite_declaration _ _ _ _ _ hhead, List.nil_append]
      · intro rest
        rw [toOpen_declaration, Nat.zero_add]
  | assignment name e line =>
      change Writes ((expr setting scope e >>= fun value =>
        changeScopes fun scopes => scopes.setVariable scope name value) >>= fun _ => pure block) _ _
      rw [bind_assoc]
      apply eval_bind_writes
      intro value
      apply eval_bind_writes (modify fun scopes => scopes.setVariable scope name value)
      intro _
      exact .pure ⟨rfl, fun _ => rfl, fun _ => (Nat.zero_add _).symm⟩
  | function definition =>
      apply eval_bind_writes (modify fun scopes => scopes.setFunction scope definition)
      intro _
      exact .pure ⟨rfl, fun _ => rfl, fun _ => (Nat.zero_add _).symm⟩

/-- Nodes in order complete the blocks of their rule, whatever the block was like before. -/
theorem nodes_writes (setting : Setting) (scope : Nat) (selectors : List String) (block : Block)
    (hhead : block.head = Selector.head selectors) (children : List Node) :
    Writes (nodes setting scope selectors block children) (Eval.outlines setting scope children)
      fun outlines after new opened =>
        Completes selectors block outlines (new ++ Page.closing after) opened := by
  cases children with
  | nil =>
      exact .pure ⟨toWrite_nil selectors block, toOpen_nil selectors block⟩
  | cons first rest =>
      apply (node_writes setting scope selectors block hhead first).bind
      intro outline after new opened hfirst
      apply (nodes_writes setting scope selectors after (hfirst.head.trans hhead) rest).map
      rintro others last later more ⟨hwritten, hopened⟩
      constructor
      · rw [hfirst.written, hwritten, List.append_assoc]
      · rw [hfirst.opened, hopened]

end

/-- The pieces and the count are those of the given blocks. -/
def WritesBlocks (blocks : List StyleBlock) (new : List String) (opened : Nat) : Prop :=
  new = blocks.flatMap StyleBlock.pieces ∧ opened = blocks.length

/-- At the top a node writes exactly the blocks of its outline. -/
theorem topNode_writes (setting : Setting) (n : Node) :
    Writes (topNode setting n) (Eval.topOutline setting n)
      fun outline _ new opened => WritesBlocks (outline.blocks none) new opened := by
  cases n with
  | rule own children line =>
      have hnodes (scope : Nat) := nodes_writes setting scope (Selector.flatten own none)
        { head := Selector.head (Selector.flatten own none) } rfl children
      apply (rule_writes 0 (Selector.flatten own none) hnodes).map
      rintro outlines _ _ _ ⟨rfl, rfl⟩
      exact ⟨toWrite_closed _ _ _, toOpen_closed _ _ _⟩
  | declaration property terms line => exact fun _ _ _ => .error
  | assignment name e line =>
      apply eval_bind_writes
      intro value
      exact fun _ _ _ => .of_silent ⟨rfl, rfl⟩
  | function definition => exact fun _ _ _ => .of_silent ⟨rfl, rfl⟩

/-- The top of a sheet writes the blocks of all outlines in order. -/
theorem topNodes_writes (setting : Setting) (children : List Node) :
    Writes (topNodes setting children) (children.mapM (Eval.topOutline setting))
      fun outlines _ new opened => WritesBlocks (Outline.sheetBlocks outlines) new opened := by
  induction children with
  | nil => exact .pure ⟨rfl, rfl⟩
  | cons first rest ih =>
      rw [List.mapM_cons]
      apply (topNode_writes setting first).bind
      rintro outline _ _ _ ⟨rfl, rfl⟩
      apply ih.map
      rintro outlines _ _ _ ⟨rfl, rfl⟩
      simp [WritesBlocks, Outline.sheetBlocks]

end Render

/-- Rendering to a record ends as the evaluation does, and where that succeeds, it has written the
blocks. -/
theorem Sheet.transcript_writes (sheet : Sheet) (setting : Render.Setting) :
    (sheet.transcript setting).result = (sheet.outline setting).map (fun _ => ()) ∧
      ∀ outlines, sheet.outline setting = .ok outlines → Render.WritesBlocks
        (Outline.sheetBlocks outlines) (sheet.transcript setting).page.sink.pieces
        (sheet.transcript setting).page.blocks := by
  have hwrites := Render.topNodes_writes setting sheet.children .initial [] 0
  unfold transcript renderIn outline
  revert hwrites
  generalize sheet.children.mapM (Eval.topOutline setting) .initial = evaluated
  generalize Render.topNodes setting sheet.children ⟨.initial, ({} : Record), 0⟩ = written
  intro hwrites
  cases hwrites with
  | error =>
      refine ⟨rfl, ?_⟩
      intro outlines houtline
      cases houtline
  | ok hblocks =>
      refine ⟨rfl, ?_⟩
      intro outlines houtline
      cases houtline
      rw [List.nil_append, Nat.zero_add]
      exact hblocks

/-- Where rendering succeeds, the text is that of the blocks of the sheet, one after the other. Each
of them holds a declaration, and they are as many as were counted. -/
theorem Sheet.renderIn_writes_blocks (sheet : Sheet) (setting : Render.Setting) (buffer : Buffer)
    (h : (sheet.renderIn setting buffer).result = .ok ()) :
    ∃ outlines, sheet.outline setting = .ok outlines ∧
      (sheet.renderIn setting buffer).page.sink.bytes = buffer.bytes ++
        (String.join ((Outline.sheetBlocks outlines).map StyleBlock.text)).toUTF8 ∧
      (∀ block ∈ Outline.sheetBlocks outlines, block.declarations ≠ []) ∧
      (sheet.renderIn setting buffer).page.blocks = (Outline.sheetBlocks outlines).length := by
  obtain ⟨hresult, hcount, hbytes⟩ := bytes_of_renderIn_ok h
  obtain ⟨hsame, hwritten⟩ := transcript_writes sheet setting
  rw [hresult] at hsame
  cases houtline : sheet.outline setting with
  | error error =>
      rw [houtline] at hsame
      cases hsame
  | ok outlines =>
      obtain ⟨hpieces, hopened⟩ := hwritten outlines houtline
      refine ⟨outlines, rfl, ?_, ?_, ?_⟩
      · rw [hbytes, hpieces, StyleBlock.join_flatMap_pieces]
      · intro block hblock
        exact Outline.declarations_ne_nil_of_mem_sheetBlocks hblock
      · rw [hcount, hopened]

/-- A rule with a run of two declarations around a definition, a nested rule that is empty, and one
with a declaration without values. -/
def sheetOfRuns : Sheet :=
  ⟨[.rule ["a", "b"] [
    .declaration "color" [.constant (.ident "red") 2, .reference "x" 2] 2,
    .assignment "x" ⟨[.constant (.ident "blue") 3], 3⟩ 3,
    .declaration "fill" [.reference "x" 4] 4,
    .rule ["&:hover"] [.rule ["u"] [] 5] 5,
    .assignment "y" ⟨[], 6⟩ 6,
    .rule ["i"] [.declaration "top" [] 7] 7] 1]⟩

theorem renderIn_writes_blocks_of_runs :
    (sheetOfRuns.renderIn ⟨.nothing, 0⟩ ({} : Buffer)).result = .ok () ∧
      (sheetOfRuns.renderIn ⟨.nothing, 0⟩ ({} : Buffer)).page.blocks = 2 ∧
      (sheetOfRuns.renderIn ⟨.nothing, 0⟩ ({} : Buffer)).page.sink.bytes =
        "a,b\x7b\n\tcolor: red;\n\tfill: blue;\n\x7d\na i,b i\x7b\n\ttop:;\n\x7d\n".toUTF8 := by
  have houtlined : sheetOfRuns.outline ⟨.nothing, 0⟩ = .ok [.rule ["a", "b"] [
      .declaration "color" [.ident "red"], .definition, .declaration "fill" [.ident "blue"],
      .rule ["&:hover"] [.rule ["u"] []], .definition, .rule ["i"] [.declaration "top" []]]] := rfl
  have hok : (sheetOfRuns.renderIn ⟨.nothing, 0⟩ ({} : Buffer)).result = .ok () := by
    rw [(Sheet.renderIn_unfailing sheetOfRuns ⟨.nothing, 0⟩ rfl rfl).1,
      (Sheet.transcript_writes sheetOfRuns ⟨.nothing, 0⟩).1, houtlined]
    rfl
  obtain ⟨outlines, houtline, hbytes, -, hcount⟩ :=
    Sheet.renderIn_writes_blocks sheetOfRuns ⟨.nothing, 0⟩ {} hok
  obtain rfl := Except.ok.inj (houtlined.symm.trans houtline)
  refine ⟨hok, hcount, ?_⟩
  rw [hbytes, ByteArray.empty_append]
  apply congrArg String.toUTF8
  decide +kernel

end Stylesheet
