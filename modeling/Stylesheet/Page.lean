import Stylesheet.Sink
import Stylesheet.Value

/-!
Writing blocks of declarations. A block is opened by the first declaration in it, so a block without
declarations leaves no trace, and a block that was closed opens again with the next declaration.
-/

namespace Stylesheet

/-- The block of a rule: its head, and whether it stands open in the output. -/
structure Block where
  head : String
  isOpen : Bool := false
  deriving DecidableEq

/-- A sink with the number of block heads written to it completely. -/
structure Page (σ : Type) where
  sink : σ
  blocks : Nat := 0

namespace Page

/-- Writing concerns the page and one block of it. Both are kept also when a write fails. -/
abbrev Write (σ : Type) := EStateM String (Page σ × Block)

def headLine (head : String) : String := head ++ "\x7b\n"

def closeLine : String := "\x7d\n"

def declarationLine (property : String) (values : List Value) : String :=
  "\t" ++ property ++ ":" ++ String.join (values.map fun v => " " ++ v.text) ++ ";\n"

def piece {σ : Type} [Sink σ] (text : String) : Write σ Unit := fun (page, block) =>
  match Sink.write text page.sink with
  | .ok () sink => .ok () ({ page with sink }, block)
  | .error reason sink => .error reason ({ page with sink }, block)

/-- Opens the block if it is not open. It counts once its head is written. -/
def openBlock {σ : Type} [Sink σ] : Write σ Unit := do
  let (_, block) ← get
  unless block.isOpen do
    piece (headLine block.head)
    modify fun (page, block) =>
      ({ page with blocks := page.blocks + 1 }, { block with isOpen := true })

def declaration {σ : Type} [Sink σ] (property : String) (values : List Value) : Write σ Unit := do
  openBlock
  piece (declarationLine property values)

def close {σ : Type} [Sink σ] : Write σ Unit := do
  let (_, block) ← get
  if block.isOpen then
    piece closeLine
    modify fun (page, block) => (page, { block with isOpen := false })

def finish {σ : Type} [Sink σ] : EStateM String (Page σ) Unit := fun page =>
  match Sink.flush page.sink with
  | .ok () sink => .ok () { page with sink }
  | .error reason sink => .error reason { page with sink }

end Page

end Stylesheet
