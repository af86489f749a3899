import Stylesheet.Proofs.SinkLimit

/-!
The lines that a step on a block writes to its page. A step comes to writing these lines one after
the other until one of them is refused, so what it does to a buffer follows from what a line does:
as many bytes are kept as there is room for, and the head lines among them are counted. A step that
fails may leave half a line behind, and its block as it stood when that line was begun.
-/

namespace Stylesheet

namespace Buffer

/-- Is there room for so many more bytes? A text fits if there is room for its size. -/
def HasRoom (buffer : Buffer) (size : Nat) : Prop :=
  size ≤ buffer.room.getD size

instance (buffer : Buffer) (size : Nat) : Decidable (buffer.HasRoom size) :=
  inferInstanceAs (Decidable (size ≤ buffer.room.getD size))

/-- Room for some bytes after a text is room for both. -/
theorem hasRoom_keep {buffer : Buffer} {text : ByteArray} {size : Nat} (h : 0 < size) :
    (buffer.keep text).HasRoom size ↔ buffer.HasRoom (text.size + size) := by
  unfold HasRoom
  rw [room_keep]
  cases buffer.room with
  | none => simp
  | some room =>
      simp only [Option.map_some, Option.getD_some]
      omega

theorem extract_eq_extract_min (text : ByteArray) (limit : Nat) :
    text.extract 0 limit = text.extract 0 (min limit text.size) := by
  rcases Nat.le_total limit text.size with h | h
  · rw [Nat.min_eq_left h]
  · rw [Nat.min_eq_right h, ByteArray.extract_zero_size, extract_of_size_le h]

end Buffer

namespace Page

/-- A line of the output. -/
inductive Line where
  | head (selectors : String)
  | declaration (property : String) (values : List Value)
  | close

namespace Line

def text : Line → String
  | .head selectors => headLine selectors
  | .declaration property values => declarationLine property values
  | .close => closeLine

def isHead : Line → Bool
  | .head _ => true
  | _ => false

/-- The bytes of lines, one after the other. -/
def bytes (lines : List Line) : ByteArray :=
  (String.join (lines.map text)).toUTF8

/-- Where the head lines among the given ones end, in bytes from the beginning of the first line. -/
def headEnds : List Line → List Nat
  | [] => []
  | line :: rest =>
    let size := line.text.toUTF8.size
    (if line.isHead then [size] else []) ++ (headEnds rest).map (size + ·)

theorem bytes_cons (line : Line) (rest : List Line) :
    bytes (line :: rest) = line.text.toUTF8 ++ bytes rest := by
  simp [bytes]

/-- Lines in a row take up the bytes of both parts. -/
theorem bytes_append (first second : List Line) :
    bytes (first ++ second) = bytes first ++ bytes second := by
  simp [bytes]

theorem size_text_pos (line : Line) : 0 < line.text.toUTF8.size := by
  have hend : ∃ first last, line.text = first ++ last ∧ 0 < last.toUTF8.size := by
    cases line with
    | head selectors => exact ⟨selectors, "\x7b\n", rfl, by decide⟩
    | declaration property values => exact ⟨_, ";\n", rfl, by decide⟩
    | close => exact ⟨"", closeLine, String.empty_append.symm, by decide⟩
  obtain ⟨first, last, htext, hlast⟩ := hend
  rw [htext]
  simp only [String.toUTF8_eq_toByteArray, String.toByteArray_append, ByteArray.size_append] at *
  omega

/-- A head ends after the first byte and not beyond the last. -/
theorem mem_headEnds_bounds {lines : List Line} {stop : Nat} (h : stop ∈ headEnds lines) :
    0 < stop ∧ stop ≤ (bytes lines).size := by
  induction lines generalizing stop with
  | nil => cases h
  | cons line rest ih =>
      have hpos := size_text_pos line
      rw [bytes_cons, ByteArray.size_append]
      rcases List.mem_append.mp h with hfirst | hrest
      · split at hfirst
        · obtain rfl := List.mem_singleton.mp hfirst
          omega
        · cases hfirst
      · obtain ⟨later, hlater, rfl⟩ := List.mem_map.mp hrest
        have hbounds := ih hlater
        omega

/-- How many of the head lines a buffer has room for. -/
def headsKept (buffer : Buffer) (lines : List Line) : Nat :=
  (headEnds lines).countP fun stop => buffer.HasRoom stop

theorem headsKept_cons (buffer : Buffer) (line : Line) (rest : List Line) :
    headsKept buffer (line :: rest) =
      (if buffer.Fits line.text.toUTF8 then line.isHead.toNat else 0) +
        headsKept (buffer.keep line.text.toUTF8) rest := by
  have hrest : ((headEnds rest).map (line.text.toUTF8.size + ·)).countP
      (fun stop => buffer.HasRoom stop) = headsKept (buffer.keep line.text.toUTF8) rest := by
    rw [List.countP_map]
    apply List.countP_congr
    intro stop hstop
    simp [Buffer.hasRoom_keep (mem_headEnds_bounds hstop).1]
  rw [headsKept, headEnds, List.countP_append, hrest]
  congr 1
  change _ = if buffer.HasRoom line.text.toUTF8.size then line.isHead.toNat else 0
  cases line.isHead <;> simp [List.countP_singleton]

/-- Heads are counted in order, in what room the lines before them leave. -/
theorem headsKept_append (buffer : Buffer) (first second : List Line) :
    headsKept buffer (first ++ second) =
      headsKept buffer first + headsKept (buffer.keep (bytes first)) second := by
  induction first generalizing buffer with
  | nil =>
      have hkept : buffer.keep (bytes []) = buffer := Buffer.keep_empty buffer
      rw [hkept, List.nil_append]
      exact (Nat.zero_add _).symm
  | cons line rest ih =>
      rw [List.cons_append, headsKept_cons, ih, headsKept_cons, bytes_cons, Buffer.keep_append,
        Nat.add_assoc]

/-- A full buffer keeps no further head. -/
theorem headsKept_of_full {buffer : Buffer} (h : buffer.room = some 0) (lines : List Line) :
    headsKept buffer lines = 0 := by
  rw [headsKept, List.countP_eq_zero]
  intro stop hstop
  have hpos := (mem_headEnds_bounds hstop).1
  rw [decide_eq_true_iff, Buffer.HasRoom, h, Option.getD_some]
  omega

/-- The block once the line is written to it. -/
def leave (block : Block) : Line → Block
  | .head _ => { block with isOpen := true }
  | .declaration .. => block
  | .close => { block with isOpen := false }

/-- What a line changes beside the sink once it is written. -/
def mark {σ : Type} (line : Line) : Page σ × Block → Page σ × Block := fun (page, block) =>
  ({ page with blocks := page.blocks + line.isHead.toNat }, line.leave block)

/-- Writes lines in order. The first one that is refused ends it. -/
def writeAll {σ : Type} [Sink σ] : List Line → Write σ Unit
  | [] => pure ()
  | line :: rest => do
    piece line.text
    modify line.mark
    writeAll rest

end Line

/-- A piece is kept as far as it fits, and fails if that is not all of it. -/
theorem piece_buffer (text : String) (page : Page Buffer) (block : Block) :
    piece text (page, block) =
      if page.sink.Fits text.toUTF8 then .ok () (⟨page.sink.keep text.toUTF8, page.blocks⟩, block)
      else .error "disk full" (⟨page.sink.keep text.toUTF8, page.blocks⟩, block) := by
  unfold piece
  dsimp only
  rw [Buffer.write_eq]
  by_cases hfits : page.sink.Fits text.toUTF8
  · simp only [if_pos hfits]
  · simp only [if_neg hfits]

/-- A buffer keeps the lines as far as they fit, and the head lines that fit are counted. The block
is left as the lines leave it if all of them fit. -/
theorem Line.writeAll_buffer (lines : List Line) (page : Page Buffer) (block : Block) :
    ∃ last, (page.sink.Fits (bytes lines) → last = lines.foldl leave block) ∧
      writeAll lines (page, block) =
        if page.sink.Fits (bytes lines) then
          .ok () (⟨page.sink.keep (bytes lines), page.blocks + headsKept page.sink lines⟩, last)
        else .error "disk full"
          (⟨page.sink.keep (bytes lines), page.blocks + headsKept page.sink lines⟩, last) := by
  induction lines generalizing page block with
  | nil =>
      have hfits : page.sink.Fits (bytes []) := Nat.zero_le _
      have hkept : page.sink.keep (bytes []) = page.sink := Buffer.keep_empty page.sink
      refine ⟨block, fun _ => rfl, ?_⟩
      rw [if_pos hfits, hkept]
      rfl
  | cons line rest ih =>
      change ∃ last, _ ∧ EStateM.bind (piece line.text) _ (page, block) = _
      rw [EStateM.bind, piece_buffer, bytes_cons, headsKept_cons]
      by_cases hfits : page.sink.Fits line.text.toUTF8
      · obtain ⟨last, hlast, hrest⟩ := ih ⟨page.sink.keep line.text.toUTF8,
          page.blocks + line.isHead.toNat⟩ (line.leave block)
        refine ⟨last, fun hall => hlast (Buffer.fits_append.mp hall).2, ?_⟩
        rw [if_pos hfits, if_pos hfits, Buffer.keep_append, ← Nat.add_assoc]
        simp only [Buffer.fits_append, hfits, true_and]
        exact hrest
      · have hall : ¬ page.sink.Fits (line.text.toUTF8 ++ bytes rest) :=
          fun h => hfits (Buffer.fits_append.mp h).1
        have hcount := headsKept_of_full (Buffer.room_keep_of_not_fits hfits) rest
        refine ⟨block, fun h => absurd h hall, ?_⟩
        rw [if_neg hfits, if_neg hfits, if_neg hall, Buffer.keep_append_of_not_fits hfits, hcount]
        rfl

/-- Something to do with a block. -/
inductive Step where
  | declaration (property : String) (values : List Value)
  | close

namespace Step

variable {σ : Type} [Sink σ]

/-- Takes the step. -/
def write : Step → Write σ Unit
  | .declaration property values => Page.declaration property values
  | .close => Page.close

/-- The lines that the step has to write, with its block as it stands. -/
def lines (block : Block) : Step → List Line
  | .declaration property values =>
    (if block.isOpen then [] else [.head block.head]) ++ [.declaration property values]
  | .close => if block.isOpen then [.close] else []

/-- The block once these lines are written. -/
def leave (block : Block) : Step → Block
  | .declaration .. => { block with isOpen := true }
  | .close => { block with isOpen := false }

/-- The lines of a step leave the block as the step does. -/
theorem foldl_leave_lines (step : Step) (block : Block) :
    (step.lines block).foldl Line.leave block = step.leave block := by
  obtain ⟨head, isOpen⟩ := block
  cases step <;> cases isOpen <;> rfl

theorem writeAll_declaration (property : String) (values : List Value) :
    (Line.writeAll [.declaration property values] : Write σ Unit) =
      piece (declarationLine property values) := by
  funext state
  change EStateM.bind (piece (declarationLine property values)) _ state = _
  rw [EStateM.bind]
  cases piece (declarationLine property values) state <;> rfl

/-- A step is taken by writing its lines. -/
theorem write_eq_writeAll (step : Step) (page : Page σ) (block : Block) :
    step.write (page, block) = Line.writeAll (step.lines block) (page, block) := by
  obtain ⟨head, isOpen⟩ := block
  cases step with
  | close => cases isOpen <;> rfl
  | declaration property values =>
      have hlast := writeAll_declaration (σ := σ) property values
      cases isOpen with
      | true => exact (congrFun hlast (page, ⟨head, true⟩)).symm
      | false =>
          change EStateM.bind (EStateM.bind (piece (headLine head)) _) _ _ =
            EStateM.bind (piece (headLine head)) _ _
          simp only [EStateM.bind]
          cases piece (headLine head) (page, ⟨head, false⟩) with
          | ok _ state => exact (congrFun hlast _).symm
          | error reason state => rfl

end Step

end Page

end Stylesheet
