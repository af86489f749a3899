import Stylesheet.Proofs.Blocks
import Stylesheet.Proofs.PageLines

/-!
Several blocks of one page that are written to in turns, in any order, also after a turn has failed.
Once a line has not fitted into the buffer nothing fits any more, so although the blocks then stand
otherwise than they would without a limit, the buffer holds the beginning of the same text and the
count that of the head lines in it. Without a limit the turns of each block write, taken alone,
complete blocks and at most one more that is not closed.
-/

namespace Stylesheet

/-- A page with the blocks that are written to it in turns. -/
structure Layout (σ : Type) (n : Nat) where
  page : Page σ
  blocks : Vector Block n

/-- A step on one of `n` blocks. -/
structure Turn (n : Nat) where
  block : Fin n
  step : Page.Step

namespace Turn

variable {σ : Type} [Sink σ] {n : Nat}

/-- Takes the turn: how it ends, and what it leaves. -/
def take (turn : Turn n) (layout : Layout σ n) : Except Error Unit × Layout σ n :=
  match turn.step.write (layout.page, layout.blocks.get turn.block) with
  | .ok () (page, block) => (.ok (), ⟨page, layout.blocks.set turn.block block turn.block.isLt⟩)
  | .error reason (page, block) =>
    (.error (.sink reason), ⟨page, layout.blocks.set turn.block block turn.block.isLt⟩)

/-- The lines that the turn has to write, with the blocks as they stand. -/
def lines (blocks : Vector Block n) (turn : Turn n) : List Page.Line :=
  turn.step.lines (blocks.get turn.block)

/-- The blocks once these lines are written. -/
def leave (blocks : Vector Block n) (turn : Turn n) : Vector Block n :=
  blocks.set turn.block (turn.step.leave (blocks.get turn.block)) turn.block.isLt

/-- What one turn leaves, whether its lines fit or not. -/
theorem take_buffer (turn : Turn n) (layout : Layout Buffer n) :
    let bytes := Page.Line.bytes (turn.lines layout.blocks)
    let fits := layout.page.sink.Fits bytes
    ((turn.take layout).1 = if fits then .ok () else .error (.sink "disk full")) ∧
      (turn.take layout).2.page = ⟨layout.page.sink.keep bytes,
        layout.page.blocks + Page.Line.headsKept layout.page.sink (turn.lines layout.blocks)⟩ ∧
      (fits → (turn.take layout).2.blocks = turn.leave layout.blocks) := by
  intro bytes fits
  obtain ⟨last, hlast, hwrite⟩ := Page.Line.writeAll_buffer (turn.lines layout.blocks) layout.page
    (layout.blocks.get turn.block)
  have hstep :=
    (turn.step.write_eq_writeAll layout.page (layout.blocks.get turn.block)).trans hwrite
  unfold take
  rw [hstep]
  by_cases hfits : fits
  · rw [if_pos hfits, if_pos hfits, hlast hfits]
    refine ⟨rfl, rfl, fun _ => ?_⟩
    exact congrArg (fun block => layout.blocks.set turn.block block turn.block.isLt)
      (turn.step.foldl_leave_lines _)
  · rw [if_neg hfits, if_neg hfits]
    exact ⟨rfl, rfl, fun h => absurd h hfits⟩

theorem take_unlimited (turn : Turn n) {layout : Layout Buffer n}
    (h : layout.page.sink.limit = none) :
    (turn.take layout).2.page.sink.limit = none ∧
      (turn.take layout).2.page.sink.bytes =
        layout.page.sink.bytes ++ Page.Line.bytes (turn.lines layout.blocks) ∧
      (turn.take layout).2.blocks = turn.leave layout.blocks := by
  have hroom : layout.page.sink.room = none := by
    rw [Buffer.room, h, Option.map_none]
  obtain ⟨-, hpage, hblocks⟩ := turn.take_buffer layout
  rw [hpage]
  refine ⟨h, ?_, hblocks ?_⟩
  · simp [Buffer.keep, hroom]
  · simp [Buffer.Fits, hroom]

end Turn

namespace Layout

section Run

variable {σ : Type} [Sink σ] {n : Nat}

/-- A page before the first turn. -/
def start (blocks : Vector Block n) (sink : σ) : Layout σ n :=
  ⟨{ sink }, blocks⟩

/-- The layout after turns that are taken one after the other, whatever becomes of each. -/
def after (layout : Layout σ n) (turns : List (Turn n)) : Layout σ n :=
  turns.foldl (fun layout turn => (turn.take layout).2) layout

theorem after_nil (layout : Layout σ n) : layout.after [] = layout := rfl

theorem after_cons (layout : Layout σ n) (turn : Turn n) (rest : List (Turn n)) :
    layout.after (turn :: rest) = (turn.take layout).2.after rest := rfl

/-- The lines that turns have to write one after the other, with the blocks as they stand before
the first one. -/
def lines (blocks : Vector Block n) : List (Turn n) → List Page.Line
  | [] => []
  | turn :: rest => turn.lines blocks ++ lines (turn.leave blocks) rest

/-- The blocks once all these lines are written. -/
def leave (blocks : Vector Block n) (turns : List (Turn n)) : Vector Block n :=
  turns.foldl Turn.leave blocks

/-- The lines of turns in a row, as the blocks stand before each. -/
theorem lines_concat (blocks : Vector Block n) (turns : List (Turn n)) (turn : Turn n) :
    lines blocks (turns ++ [turn]) = lines blocks turns ++ turn.lines (leave blocks turns) := by
  induction turns generalizing blocks with
  | nil => simp [lines, leave]
  | cons first rest ih =>
      rw [List.cons_append, lines, lines, ih, List.append_assoc]
      rfl

end Run

section Limit

variable {n : Nat} {buffer : Buffer} {past : List Page.Line} {blocks : Vector Block n}
  {layout : Layout Buffer n}

/-- What a layout has come to that began with the given buffer, where the lines so far would leave
the given blocks. The blocks of the layout itself are known only while everything fits. -/
structure Shows (buffer : Buffer) (past : List Page.Line) (blocks : Vector Block n)
    (layout : Layout Buffer n) : Prop where
  sink : layout.page.sink = buffer.keep (Page.Line.bytes past)
  count : layout.page.blocks = Page.Line.headsKept buffer past
  blocks : buffer.Fits (Page.Line.bytes past) → layout.blocks = blocks

/-- One turn keeps what is known of the layout. Its lines are added, and kept as far as they fit. -/
theorem Shows.take (h : Shows buffer past blocks layout) (turn : Turn n) :
    Shows buffer (past ++ turn.lines blocks) (turn.leave blocks) (turn.take layout).2 := by
  obtain ⟨-, hpage, hleft⟩ := turn.take_buffer layout
  rw [h.sink] at hpage hleft
  by_cases hfits : buffer.Fits (Page.Line.bytes past)
  · rw [h.blocks hfits] at hpage hleft
    constructor
    · rw [hpage, Page.Line.bytes_append, Buffer.keep_append]
    · rw [hpage, Page.Line.headsKept_append, h.count]
    · intro hall
      rw [Page.Line.bytes_append] at hall
      exact hleft (Buffer.fits_append.mp hall).2
  · -- The turn may have other lines to write here than it would have without a limit, but there is
    -- no room for any of them.
    have hfull := Buffer.room_keep_of_not_fits hfits
    constructor
    · rw [hpage, Page.Line.bytes_append, ← Buffer.keep_append,
        Buffer.keep_append_of_not_fits hfits, Buffer.keep_append_of_not_fits hfits]
    · rw [hpage, Page.Line.headsKept_append, Page.Line.headsKept_of_full hfull,
        Page.Line.headsKept_of_full hfull, h.count]
    · intro hall
      rw [Page.Line.bytes_append] at hall
      exact absurd (Buffer.fits_append.mp hall).1 hfits

/-- So do turns in a row. -/
theorem Shows.after (h : Shows buffer past blocks layout) (turns : List (Turn n)) :
    Shows buffer (past ++ lines blocks turns) (leave blocks turns) (layout.after turns) := by
  induction turns generalizing past blocks layout with
  | nil =>
      rw [lines, List.append_nil]
      exact h
  | cons turn rest ih =>
      rw [lines, ← List.append_assoc]
      exact ih (h.take turn)

theorem shows_after_start (blocks : Vector Block n) (buffer : Buffer) (turns : List (Turn n)) :
    Shows buffer (lines blocks turns) (leave blocks turns) ((start blocks buffer).after turns) := by
  have hstart : Shows buffer [] blocks (start blocks buffer) :=
    ⟨(Buffer.keep_empty buffer).symm, rfl, fun _ => rfl⟩
  exact hstart.after turns

/-- While everything fits, a turn succeeds exactly if its lines fit too. -/
theorem Shows.result (h : Shows buffer past blocks layout)
    (hfits : buffer.Fits (Page.Line.bytes past)) (turn : Turn n) :
    (turn.take layout).1 =
      if buffer.Fits (Page.Line.bytes (past ++ turn.lines blocks)) then .ok ()
      else .error (.sink "disk full") := by
  rw [(turn.take_buffer layout).1, h.sink, h.blocks hfits, Page.Line.bytes_append]
  simp only [Buffer.fits_append, hfits, true_and]

theorem bytes_after_start (blocks : Vector Block n) (turns : List (Turn n)) :
    ((start blocks ({} : Buffer)).after turns).page.sink.bytes =
      Page.Line.bytes (lines blocks turns) := by
  rw [(shows_after_start blocks {} turns).sink]
  simp [Buffer.keep, Buffer.room]

/-- With a limit the bytes are cut off, and nothing else changes. -/
theorem bytes_after_start_limited (blocks : Vector Block n) (limit : Nat) (turns : List (Turn n)) :
    ((start blocks ({ limit := some limit } : Buffer)).after turns).page.sink.bytes =
      (Page.Line.bytes (lines blocks turns)).extract 0 limit := by
  rw [(shows_after_start blocks { limit := some limit } turns).sink]
  simp [Buffer.keep, Buffer.room]

end Limit

end Layout

/-- The text of a block that is not closed yet: its head and a line for each declaration. -/
def StyleBlock.unclosedText (block : StyleBlock) : String :=
  block.head ++ "\x7b\n" ++
    String.join (block.declarations.map fun (property, values) =>
      "\t" ++ property ++ ":" ++ String.join (values.map fun v => " " ++ v.text) ++ ";\n")

theorem StyleBlock.text_eq_unclosedText (block : StyleBlock) :
    block.text = block.unclosedText ++ Page.closeLine := rfl

/-- A declaration is added at the end of an open block. -/
theorem StyleBlock.unclosedText_concat (head : String) (declarations : List (String × List Value))
    (property : String) (values : List Value) :
    unclosedText ⟨head, declarations ++ [(property, values)]⟩ =
      unclosedText ⟨head, declarations⟩ ++ Page.declarationLine property values := by
  simp [unclosedText, Page.declarationLine, String.append_assoc]

/-- The declaration of a step, if it is one. -/
def Page.Step.declared : Page.Step → List (String × List Value)
  | .declaration property values => [(property, values)]
  | .close => []

/-- The text is made of complete blocks with the head of this one and, exactly if this one stands
open, of one more that is not closed. Each of them holds a declaration, and together they hold the
given ones in order. -/
def Block.Composes (block : Block) (declared : List (String × List Value)) (text : String) :
    Prop :=
  ∃ (complete : List StyleBlock) (unclosed : Option StyleBlock),
    (∀ part ∈ complete ++ unclosed.toList, part.head = block.head ∧ part.declarations ≠ []) ∧
      (complete ++ unclosed.toList).flatMap StyleBlock.declarations = declared ∧
      unclosed.isSome = block.isOpen ∧
      text = String.join (complete.map StyleBlock.text) ++
        (unclosed.map StyleBlock.unclosedText).getD ""

/-- Each step of a block writes the next part of its text. -/
theorem Block.Composes.step {block : Block} {declared : List (String × List Value)} {text : String}
    (h : block.Composes declared text) (step : Page.Step) :
    (step.leave block).Composes (declared ++ step.declared)
      (text ++ String.join ((step.lines block).map Page.Line.text)) := by
  obtain ⟨head, isOpen⟩ := block
  obtain ⟨complete, unclosed, hparts, hdeclared, hopen, htext⟩ := h
  obtain ⟨hcomplete, hlast⟩ := List.forall_mem_append.mp hparts
  subst hdeclared htext
  cases unclosed with
  | none =>
      obtain rfl : false = isOpen := hopen
      cases step with
      | close =>
          refine ⟨complete, none, hparts, ?_, rfl, ?_⟩
          · simp [Page.Step.declared]
          · simp [Page.Step.lines]
      | declaration property values =>
          refine ⟨complete, some ⟨head, [(property, values)]⟩, ?_, ?_, rfl, ?_⟩
          · refine List.forall_mem_append.mpr ⟨hcomplete, ?_⟩
            simp [Page.Step.leave]
          · simp [Page.Step.declared]
          · simp [Page.Step.lines, Page.Line.text, Page.headLine, Page.declarationLine,
              StyleBlock.unclosedText, String.append_assoc]
  | some part =>
      obtain rfl : true = isOpen := hopen
      cases step with
      | close =>
          refine ⟨complete ++ [part], none, ?_, ?_, rfl, ?_⟩
          · simpa [Page.Step.leave] using hparts
          · simp [Page.Step.declared]
          · simp [Page.Step.lines, Page.Line.text, StyleBlock.text_eq_unclosedText,
              String.append_assoc]
      | declaration property values =>
          refine ⟨complete, some { part with
            declarations := part.declarations ++ [(property, values)] }, ?_, ?_, rfl, ?_⟩
          · refine List.forall_mem_append.mpr ⟨hcomplete, ?_⟩
            have hhead : part.head = head := (hlast part (by simp)).1
            simp [Page.Step.leave, hhead]
          · simp [Page.Step.declared]
          · simp [Page.Step.lines, Page.Line.text, StyleBlock.unclosedText_concat,
              String.append_assoc]

namespace Layout

variable {n : Nat}

/-- The bytes that the turns of one block add to the buffer, taken alone. -/
def writtenTo (i : Fin n) (layout : Layout Buffer n) : List (Turn n) → ByteArray
  | [] => .empty
  | turn :: rest =>
    let next := (turn.take layout).2
    let added := next.page.sink.bytes.extract layout.page.sink.bytes.size next.page.sink.bytes.size
    (if turn.block = i then added else .empty) ++ next.writtenTo i rest

/-- The declarations among the turns of one block. -/
def declared (i : Fin n) (turns : List (Turn n)) : List (String × List Value) :=
  turns.flatMap fun turn => if turn.block = i then turn.step.declared else []

/-- What the turns of one block write makes up its text, whatever the others write in between. -/
theorem writtenTo_composes (i : Fin n) (turns : List (Turn n)) {layout : Layout Buffer n}
    (hlimit : layout.page.sink.limit = none) {past : List (String × List Value)} {text : String}
    (h : (layout.blocks.get i).Composes past text) :
    ∃ new : String, layout.writtenTo i turns = new.toUTF8 ∧
      ((layout.after turns).blocks.get i).Composes (past ++ declared i turns) (text ++ new) := by
  induction turns generalizing layout past text with
  | nil => exact ⟨"", rfl, by simpa [declared, after_nil] using h⟩
  | cons turn rest ih =>
      obtain ⟨hnext, hbytes, hblocks⟩ := turn.take_unlimited hlimit
      have hdeclared : declared i (turn :: rest) =
          (if turn.block = i then turn.step.declared else []) ++ declared i rest := rfl
      rw [writtenTo, after_cons, hdeclared]
      by_cases hturn : turn.block = i
      · subst hturn
        have hblock : (turn.take layout).2.blocks.get turn.block =
            turn.step.leave (layout.blocks.get turn.block) := by
          rw [hblocks]
          exact Vector.getElem_set_self turn.block.isLt
        obtain ⟨new, hnew, hrest⟩ := ih hnext (hblock ▸ h.step turn.step)
        refine ⟨String.join ((turn.lines layout.blocks).map Page.Line.text) ++ new, ?_, ?_⟩
        · rw [if_pos rfl, hnew, hbytes, ByteArray.extract_append_eq_right rfl (by simp)]
          simp [Page.Line.bytes]
        · rw [if_pos rfl, ← List.append_assoc, ← String.append_assoc]
          exact hrest
      · have hblock : (turn.take layout).2.blocks.get i = layout.blocks.get i := by
          rw [hblocks]
          exact Vector.getElem_set_ne turn.block.isLt i.isLt fun h => hturn (Fin.ext h)
        obtain ⟨new, hnew, hrest⟩ := ih hnext (hblock ▸ h)
        refine ⟨new, ?_, ?_⟩
        · rw [if_neg hturn, hnew, ByteArray.empty_append]
        · rw [if_neg hturn, List.nil_append]
          exact hrest

/-- A limit keeps the beginning of what turns write, in whatever order they are taken. For all
blocks, any limit and any turns, which go on also after failures: the buffer keeps as much as the
limit allows of the bytes that a buffer without limit gets; every turn succeeds up to the first one
that goes past the limit there, and that one fails because the buffer is full; and the count is that
of the head lines that end within the bytes kept. What the turns of a block write without a limit,
if it began closed as every new one does, is complete blocks and, exactly if it stands open at the
end, one more that is not closed. -/
theorem interleaved_under_limit (blocks : Vector Block n) (limit : Nat) (turns : List (Turn n)) :
    let whole := start blocks ({} : Buffer)
    let limited := start blocks ({ limit := some limit } : Buffer)
    let text := (whole.after turns).page.sink.bytes
    let kept := (limited.after turns).page.sink.bytes
    let size := fun taken => (whole.after taken).page.sink.bytes.size
    kept = text.extract 0 (min limit text.size) ∧
      (∀ before turn later, turns = before ++ turn :: later →
        (size (before ++ [turn]) ≤ limit → (turn.take (limited.after before)).1 = .ok ()) ∧
        (size before ≤ limit → limit < size (before ++ [turn]) →
          (turn.take (limited.after before)).1 = .error (.sink "disk full"))) ∧
      text = Page.Line.bytes (lines blocks turns) ∧
      (limited.after turns).page.blocks =
        (Page.Line.headEnds (lines blocks turns)).countP (fun stop => stop ≤ kept.size) ∧
      ∀ i : Fin n, (blocks.get i).isOpen = false →
        ∃ own : String, whole.writtenTo i turns = own.toUTF8 ∧
          ((whole.after turns).blocks.get i).Composes (declared i turns) own := by
  intro whole limited text kept size
  have htext : text = Page.Line.bytes (lines blocks turns) := bytes_after_start blocks turns
  have hkept : kept = text.extract 0 limit := by
    rw [htext]
    exact bytes_after_start_limited blocks limit turns
  refine ⟨?_, ?_, htext, ?_, ?_⟩
  · rw [hkept]
    exact Buffer.extract_eq_extract_min text limit
  · rintro before turn later -
    have hsize (taken : List (Turn n)) : size taken = (Page.Line.bytes (lines blocks taken)).size :=
      congrArg ByteArray.size (bytes_after_start blocks taken)
    rw [hsize, hsize, lines_concat]
    have hgrows : (Page.Line.bytes (lines blocks before)).size ≤
        (Page.Line.bytes (lines blocks before ++ turn.lines (leave blocks before))).size := by
      rw [Page.Line.bytes_append, ByteArray.size_append]
      omega
    have hresult := (shows_after_start blocks { limit := some limit } before).result
    constructor
    · intro hall
      exact (hresult (Nat.le_trans hgrows hall) turn).trans (if_pos hall)
    · intro hbefore hpast
      exact (hresult hbefore turn).trans (if_neg (Nat.not_le.mpr hpast))
  · rw [(shows_after_start blocks { limit := some limit } turns).count]
    apply List.countP_congr
    intro stop hstop
    have hbound := (Page.Line.mem_headEnds_bounds hstop).2
    rw [← htext] at hbound
    rw [hkept, ByteArray.size_extract, decide_eq_true_iff, decide_eq_true_iff]
    change stop ≤ limit ↔ _
    omega
  · intro i hclosed
    have hempty : (whole.blocks.get i).Composes [] "" := ⟨[], none, by simp, rfl, hclosed.symm, rfl⟩
    obtain ⟨own, hown, hcomposes⟩ := writtenTo_composes i turns rfl hempty
    rw [List.nil_append, String.empty_append] at hcomposes
    exact ⟨own, hown, hcomposes⟩

end Layout

/-- Two blocks in turns. The second one is closed and then opened again. -/
def crossingTurns : List (Turn 2) :=
  [⟨0, .declaration "color" [.ident "red"]⟩, ⟨1, .declaration "top" []⟩, ⟨0, .close⟩, ⟨1, .close⟩,
    ⟨1, .declaration "left" []⟩]

/-- Here the buffer is full in the middle of the second head line. -/
theorem interleaved_under_limit_crossingTurns :
    let blocks : Vector Block 2 := #v[{ head := "a" }, { head := "b" }]
    let whole := Layout.start blocks ({} : Buffer)
    let limited := Layout.start blocks ({ limit := some 18 } : Buffer)
    (whole.after (crossingTurns.take 1)).page.sink.bytes.size = 16 ∧
      (whole.after (crossingTurns.take 2)).page.sink.bytes.size = 26 ∧
      (Turn.take ⟨0, .declaration "color" [.ident "red"]⟩ limited).1 = .ok () ∧
      (Turn.take ⟨1, .declaration "top" []⟩ (limited.after (crossingTurns.take 1))).1 =
        .error (.sink "disk full") ∧
      (limited.after crossingTurns).page.sink.bytes = "a\x7b\n\tcolor: red;\nb\x7b".toUTF8 ∧
      (limited.after crossingTurns).page.blocks = 1 ∧
      ∃ own : String, whole.writtenTo 1 crossingTurns = own.toUTF8 ∧
        ((whole.after crossingTurns).blocks.get 1).Composes [("top", []), ("left", [])] own := by
  intro blocks whole limited
  have hsize (turns : List (Turn 2)) : (whole.after turns).page.sink.bytes.size = _ :=
    congrArg ByteArray.size (Layout.bytes_after_start blocks turns)
  have hfirst : (whole.after (crossingTurns.take 1)).page.sink.bytes.size = 16 := by
    rw [hsize]
    decide +kernel
  have hsecond : (whole.after (crossingTurns.take 2)).page.sink.bytes.size = 26 := by
    rw [hsize]
    decide +kernel
  have hbefore : (whole.after (crossingTurns.take 1)).page.sink.bytes.size ≤ 18 := by omega
  have hpast : 18 < (whole.after (crossingTurns.take 2)).page.sink.bytes.size := by omega
  obtain ⟨hkept, hresult, htext, hcount, hblocks⟩ :=
    Layout.interleaved_under_limit blocks 18 crossingTurns
  have hbytes : (limited.after crossingTurns).page.sink.bytes =
      "a\x7b\n\tcolor: red;\nb\x7b".toUTF8 := by
    rw [hkept, htext]
    decide +kernel
  refine ⟨hfirst, hsecond, ?_, ?_, hbytes, ?_, hblocks 1 rfl⟩
  · exact (hresult [] _ _ rfl).1 hbefore
  · exact (hresult (crossingTurns.take 1) _ _ rfl).2 hbefore hpast
  · rw [hcount, hbytes]
    decide +kernel

end Stylesheet
