import Stylesheet.Render

/-!
Rendering taken apart from its sink. A `Record` is a sink that keeps every piece and never fails, so
rendering to it shows what there is to write. Rendering to any other sink writes the same pieces in
the same order, up to the first one that the sink refuses.
-/

namespace Stylesheet

/-- A sink that keeps every piece written to it. -/
structure Record where
  pieces : List String := []

instance : Sink Record where
  write piece := fun record => .ok () ⟨record.pieces ++ [piece]⟩
  flush := fun record => .ok () record

/-- Writes pieces in order. The first one that is refused ends it. -/
def Sink.writeAll {σ : Type} [Sink σ] : List String → EStateM String σ Unit
  | [] => pure ()
  | piece :: rest => do
    Sink.write piece
    writeAll rest

section Pieces

variable {σ : Type} [Sink σ]

theorem Sink.writeAll_cons_ok {piece : String} {rest : List String} {sink next : σ}
    (h : Sink.write piece sink = .ok () next) :
    Sink.writeAll (piece :: rest) sink = Sink.writeAll rest next := by
  change EStateM.bind (Sink.write piece) _ sink = _
  rw [EStateM.bind, h]

theorem Sink.writeAll_cons_error {piece reason : String} {rest : List String} {sink next : σ}
    (h : Sink.write piece sink = .error reason next) :
    Sink.writeAll (piece :: rest) sink = .error reason next := by
  change EStateM.bind (Sink.write piece) _ sink = _
  rw [EStateM.bind, h]

/-- Pieces are written one after the other, so that a list may be split anywhere. -/
theorem Sink.writeAll_append_ok {first second : List String} {sink next : σ}
    (h : Sink.writeAll first sink = .ok () next) :
    Sink.writeAll (first ++ second) sink = Sink.writeAll second next := by
  induction first generalizing sink with
  | nil =>
      cases h
      rfl
  | cons piece rest ih =>
      cases hwrite : Sink.write piece sink with
      | ok _ after =>
          rw [Sink.writeAll_cons_ok hwrite] at h
          rw [List.cons_append, Sink.writeAll_cons_ok hwrite, ih h]
      | error reason after =>
          rw [Sink.writeAll_cons_error hwrite] at h
          cases h

/-- The first failure ends the writing. -/
theorem Sink.writeAll_append_error {first second : List String} {reason : String} {sink next : σ}
    (h : Sink.writeAll first sink = .error reason next) :
    Sink.writeAll (first ++ second) sink = .error reason next := by
  induction first generalizing sink with
  | nil => cases h
  | cons piece rest ih =>
      cases hwrite : Sink.write piece sink with
      | ok _ after =>
          rw [Sink.writeAll_cons_ok hwrite] at h
          rw [List.cons_append, Sink.writeAll_cons_ok hwrite, ih h]
      | error other after =>
          rw [Sink.writeAll_cons_error hwrite] at h
          rw [List.cons_append, Sink.writeAll_cons_error hwrite, h]

/-- The sink takes whatever is written to it, and can be flushed then. -/
def Sink.Unfailing (sink : σ) : Prop :=
  ∀ pieces, ∃ after last,
    Sink.writeAll pieces sink = .ok () after ∧ Sink.flush after = .ok () last

/-- Some sink of this type gives the reason for a failure. -/
def Sink.Refuses (σ : Type) [Sink σ] (reason : String) : Prop :=
  ∃ sink last : σ, (∃ text, Sink.write text sink = .error reason last) ∨
    Sink.flush sink = .error reason last

/-- A failure to write is one of the sink's own. -/
theorem Sink.refuses_of_writeAll {pieces : List String} {reason : String} {sink last : σ}
    (h : Sink.writeAll pieces sink = .error reason last) : Sink.Refuses σ reason := by
  induction pieces generalizing sink with
  | nil => cases h
  | cons piece rest ih =>
      cases hwrite : Sink.write piece sink with
      | ok _ next =>
          rw [Sink.writeAll_cons_ok hwrite] at h
          exact ih h
      | error other next =>
          rw [Sink.writeAll_cons_error hwrite] at h
          cases h
          exact ⟨sink, last, .inl ⟨piece, hwrite⟩⟩

end Pieces

namespace Page

/-- What the end of a block writes. -/
def closing (block : Block) : List String :=
  if block.isOpen then [closeLine] else []

/-- What a declaration writes before its own line. -/
def opening (block : Block) : List String :=
  if block.isOpen then [] else [headLine block.head]

variable {σ : Type} [Sink σ]

/-- On its way the step writes the given pieces. If none is refused, it succeeds and leaves the
given count and block; else it fails for the reason of the sink. -/
structure Puts (act : Write σ Unit) (page : Page σ) (block : Block) (pieces : List String)
    (blocks : Nat) (after : Block) : Prop where
  ok : ∀ {sink}, Sink.writeAll pieces page.sink = .ok () sink →
    act (page, block) = .ok () (⟨sink, blocks⟩, after)
  error : ∀ {reason sink}, Sink.writeAll pieces page.sink = .error reason sink →
    ∃ count last, act (page, block) = .error reason (⟨sink, count⟩, last)

/-- Two acts put the pieces of both. -/
theorem Puts.bind {act : Write σ Unit} {next : Unit → Write σ Unit} {page : Page σ}
    {block middle after : Block} {first second : List String} {count blocks : Nat}
    (hact : Puts act page block first count middle)
    (hnext : ∀ sink, Puts (next ()) ⟨sink, count⟩ middle second blocks after) :
    Puts (act >>= next) page block (first ++ second) blocks after := by
  change Puts (EStateM.bind act next) page block (first ++ second) blocks after
  cases hfirst : Sink.writeAll first page.sink with
  | ok _ middleSink =>
      constructor
      · intro sink hall
        rw [Sink.writeAll_append_ok hfirst] at hall
        rw [EStateM.bind, hact.ok hfirst]
        exact (hnext middleSink).ok hall
      · intro reason sink hall
        rw [Sink.writeAll_append_ok hfirst] at hall
        rw [EStateM.bind, hact.ok hfirst]
        exact (hnext middleSink).error hall
  | error reason middleSink =>
      constructor
      · intro sink hall
        rw [Sink.writeAll_append_error hfirst] at hall
        cases hall
      · intro reason sink hall
        rw [Sink.writeAll_append_error hfirst] at hall
        cases hall
        obtain ⟨n, last, herror⟩ := hact.error hfirst
        exact ⟨n, last, by rw [EStateM.bind, herror]⟩

/-- A step that writes nothing. -/
theorem Puts.of_eq {act : Write σ Unit} {page : Page σ} {block after : Block} {blocks : Nat}
    (h : act (page, block) = .ok () (⟨page.sink, blocks⟩, after)) :
    Puts act page block [] blocks after where
  ok := by
    intro sink hall
    cases hall
    exact h
  error := by
    intro reason sink hall
    cases hall

theorem Puts.congr {act other : Write σ Unit} {page : Page σ} {block after : Block}
    {pieces : List String} {blocks : Nat} (h : Puts act page block pieces blocks after)
    (hother : other (page, block) = act (page, block)) :
    Puts other page block pieces blocks after where
  ok := fun hall => hother.trans (h.ok hall)
  error := fun hall => hother ▸ h.error hall

/-- An act that puts pieces fails only where the sink does. -/
theorem Puts.refused {act : Write σ Unit} {page : Page σ} {block after : Block}
    {pieces : List String} {blocks : Nat} (h : Puts act page block pieces blocks after)
    {reason : String} {state : Page σ × Block} (herror : act (page, block) = .error reason state) :
    Sink.Refuses σ reason := by
  cases hall : Sink.writeAll pieces page.sink with
  | ok _ sink =>
      rw [h.ok hall] at herror
      cases herror
  | error other sink =>
      obtain ⟨count, last, hfailed⟩ := h.error hall
      rw [hfailed] at herror
      cases herror
      exact Sink.refuses_of_writeAll hall

/-- A piece is put as it is, and the block stays as it was. -/
theorem piece_puts (text : String) (page : Page σ) (block : Block) :
    Puts (piece text) page block [text] page.blocks block := by
  cases hwrite : Sink.write text page.sink with
  | ok _ written =>
      constructor
      · intro sink hall
        rw [Sink.writeAll_cons_ok hwrite] at hall
        cases hall
        simp only [piece, hwrite]
      · intro reason sink hall
        rw [Sink.writeAll_cons_ok hwrite] at hall
        cases hall
  | error reason written =>
      constructor
      · intro sink hall
        rw [Sink.writeAll_cons_error hwrite] at hall
        cases hall
      · intro reason sink hall
        rw [Sink.writeAll_cons_error hwrite] at hall
        cases hall
        exact ⟨page.blocks, block, by simp only [piece, hwrite]⟩

/-- Closing a block: it is closed once the line is written. -/
theorem close_puts (page : Page σ) (block : Block) :
    Puts close page block (closing block) page.blocks { block with isOpen := false } := by
  obtain ⟨head, isOpen⟩ := block
  cases isOpen with
  | false => exact .of_eq rfl
  | true =>
      have hclosed (sink : σ) : Puts
          (modify fun state => (state.1, { state.2 with isOpen := false }) : Write σ Unit)
          ⟨sink, page.blocks⟩ ⟨head, true⟩ [] page.blocks ⟨head, false⟩ := .of_eq rfl
      exact ((piece_puts closeLine page ⟨head, true⟩).bind hclosed).congr rfl

/-- Opening puts the head and counts the block, where it is not open. -/
theorem openBlock_puts (page : Page σ) (block : Block) :
    Puts openBlock page block (opening block) (page.blocks + (opening block).length)
      { block with isOpen := true } := by
  obtain ⟨head, isOpen⟩ := block
  cases isOpen with
  | true => exact .of_eq rfl
  | false =>
      have hopened (sink : σ) : Puts
          (modify fun state =>
            ({ state.1 with blocks := state.1.blocks + 1 }, { state.2 with isOpen := true }) :
            Write σ Unit)
          ⟨sink, page.blocks⟩ ⟨head, false⟩ [] (page.blocks + 1) ⟨head, true⟩ := .of_eq rfl
      exact ((piece_puts (headLine head) page ⟨head, false⟩).bind hopened).congr rfl

/-- A declaration opens its block, which then counts, and writes its line. -/
theorem declaration_puts (property : String) (values : List Value) (page : Page σ)
    (block : Block) :
    Puts (declaration property values) page block
      (opening block ++ [declarationLine property values])
      (page.blocks + (opening block).length) { block with isOpen := true } :=
  (openBlock_puts page block).bind fun _ => piece_puts _ _ _

end Page

/-- A record takes everything. -/
theorem Record.not_refuses (reason : String) : ¬ Sink.Refuses Record reason := by
  rintro ⟨sink, last, ⟨text, hwrite⟩ | hflush⟩
  · cases hwrite
  · cases hflush

/-- A record takes all pieces. -/
theorem Record.writeAll_eq (record : Record) (pieces : List String) :
    Sink.writeAll pieces record = .ok () ⟨record.pieces ++ pieces⟩ := by
  induction pieces generalizing record with
  | nil =>
      rw [List.append_nil]
      rfl
  | cons piece rest ih =>
      have hwrite : Sink.write piece record = .ok () ⟨record.pieces ++ [piece]⟩ := rfl
      rw [Sink.writeAll_cons_ok hwrite, ih]
      simp

namespace Render

/-- The pieces that a run on a record has kept. -/
def recorded {α : Type} : EStateM.Result Error (Progress Record) α → List String
  | .ok _ progress | .error _ progress => progress.page.sink.pieces

section Replay

variable {σ : Type} [Sink σ] {α β : Type}

/-- How a run on a sink follows a run on a record, which has added the pieces `new` to those it had
before. Either the sink took them all, both runs ended alike and have counted as many blocks from
where they began, or the sink refused one of them, and that ended the first run. -/
inductive Follows (sink : σ) (before : List String) (blocks others : Nat) :
    EStateM.Result Error (Progress σ) α → EStateM.Result Error (Progress Record) α → Prop where
  | ok {a : α} {scopes : Scopes} {opened : Nat} {pieces new : List String} {after : σ}
      (hpieces : pieces = before ++ new) (htaken : Sink.writeAll new sink = .ok () after) :
      Follows sink before blocks others (.ok a ⟨scopes, after, blocks + opened⟩)
        (.ok a ⟨scopes, ⟨pieces⟩, others + opened⟩)
  | error {error : Error} {scopes : Scopes} {opened : Nat} {pieces new : List String} {after : σ}
      (hpieces : pieces = before ++ new) (htaken : Sink.writeAll new sink = .ok () after) :
      Follows sink before blocks others (.error error ⟨scopes, after, blocks + opened⟩)
        (.error error ⟨scopes, ⟨pieces⟩, others + opened⟩)
  | refused {reason : String} {progress : Progress σ}
      {result : EStateM.Result Error (Progress Record) α} {new : List String}
      (hpieces : recorded result = before ++ new)
      (hrefused : Sink.writeAll new sink = .error reason progress.page.sink) :
      Follows sink before blocks others (.error (.sink reason) progress) result

/-- From the same scopes the first step follows the second one, whatever has been written before. -/
def Replays (act : Render σ α) (onRecord : Render Record α) : Prop :=
  ∀ scopes sink pieces blocks others, Follows sink pieces blocks others
    (act ⟨scopes, sink, blocks⟩) (onRecord ⟨scopes, ⟨pieces⟩, others⟩)

theorem Follows.silent_ok {sink : σ} {before : List String} {blocks others : Nat} {scopes : Scopes}
    (a : α) : Follows sink before blocks others (.ok a ⟨scopes, sink, blocks⟩)
      (.ok a ⟨scopes, ⟨before⟩, others⟩) := by
  have h : Follows sink before blocks others (.ok a ⟨scopes, sink, blocks + 0⟩)
      (.ok a ⟨scopes, ⟨before⟩, others + 0⟩) := .ok (List.append_nil before).symm rfl
  exact h

theorem Follows.silent_error {sink : σ} {before : List String} {blocks others : Nat}
    {scopes : Scopes} (error : Error) :
    Follows (α := α) sink before blocks others (.error error ⟨scopes, sink, blocks⟩)
      (.error error ⟨scopes, ⟨before⟩, others⟩) := by
  have h : Follows (α := α) sink before blocks others (.error error ⟨scopes, sink, blocks + 0⟩)
      (.error error ⟨scopes, ⟨before⟩, others + 0⟩) := .error (List.append_nil before).symm rfl
  exact h

/-- A record is only ever extended. -/
theorem Follows.exists_new {sink : σ} {before : List String} {blocks others : Nat}
    {result : EStateM.Result Error (Progress σ) α}
    {record : EStateM.Result Error (Progress Record) α}
    (h : Follows sink before blocks others result record) :
    ∃ new, recorded record = before ++ new := by
  cases h with
  | ok hpieces _ => exact ⟨_, hpieces⟩
  | error hpieces _ => exact ⟨_, hpieces⟩
  | refused hpieces _ => exact ⟨_, hpieces⟩

/-- Steps that replay a record do so one after the other. A failure of the sink in the first one
ends both. -/
theorem Replays.bind {act : Render σ α} {onRecord : Render Record α} {next : α → Render σ β}
    {nextOnRecord : α → Render Record β} (h : Replays act onRecord)
    (hnext : ∀ a, Replays (next a) (nextOnRecord a)) :
    Replays (act >>= next) (onRecord >>= nextOnRecord) := by
  intro scopes sink before blocks others
  have hact := h scopes sink before blocks others
  change Follows sink before blocks others (EStateM.bind act next _)
    (EStateM.bind onRecord nextOnRecord _)
  unfold EStateM.bind
  revert hact
  generalize act ⟨scopes, sink, blocks⟩ = result
  generalize onRecord ⟨scopes, ⟨before⟩, others⟩ = record
  intro hact
  cases hact with
  | error hpieces htaken => exact .error hpieces htaken
  | @ok a middle opened _ first after hpieces htaken =>
      subst hpieces
      have hrest := hnext a middle after (before ++ first) (blocks + opened) (others + opened)
      dsimp only
      revert hrest
      generalize next a ⟨middle, after, blocks + opened⟩ = result
      generalize nextOnRecord a ⟨middle, ⟨before ++ first⟩, others + opened⟩ = record
      intro hrest
      cases hrest with
      | ok hpieces hrest =>
          rw [Nat.add_assoc, Nat.add_assoc]
          exact .ok (by rw [hpieces, List.append_assoc])
            ((Sink.writeAll_append_ok htaken).trans hrest)
      | error hpieces hrest =>
          rw [Nat.add_assoc, Nat.add_assoc]
          exact .error (by rw [hpieces, List.append_assoc])
            ((Sink.writeAll_append_ok htaken).trans hrest)
      | refused hpieces hrest =>
          exact .refused (by rw [hpieces, List.append_assoc])
            ((Sink.writeAll_append_ok htaken).trans hrest)
  | @refused reason progress record first hpieces hrefused =>
      -- The record goes on where the sink has stopped, and only adds pieces.
      cases record with
      | error error last => exact .refused hpieces hrefused
      | ok a last =>
          obtain ⟨second, hsecond⟩ := (hnext a last.scopes sink last.page.sink.pieces
            last.page.blocks last.page.blocks).exists_new
          have hfirst : last.page.sink.pieces = before ++ first := hpieces
          exact .refused (hsecond.trans (by rw [hfirst, List.append_assoc]))
            (Sink.writeAll_append_error hrefused)

theorem Replays.pure (a : α) : Replays (pure a : Render σ α) (pure a) :=
  fun _ _ _ _ _ => .silent_ok a

theorem throw_replays (error : Error) : Replays (throw error : Render σ α) (throw error) :=
  fun _ _ _ _ _ => .silent_error error

theorem changeScopes_replays (change : Scopes → Scopes) :
    Replays (changeScopes change : Render σ Unit) (changeScopes change) :=
  fun _ _ _ _ _ => .silent_ok ()

theorem eval_replays (act : Eval α) : Replays (eval act : Render σ α) (eval act) := by
  intro scopes sink pieces blocks others
  unfold eval
  dsimp only
  cases act scopes with
  | ok a after => exact .silent_ok a
  | error error after => exact .silent_error error

/-- What a step of writing does to a record, which refuses nothing. -/
theorem write_record {block after : Block} {act : Page.Write Record Unit} {pieces : List String}
    {opened : Nat} (h : ∀ page, Page.Puts act page block pieces (page.blocks + opened) after)
    (scopes : Scopes) (before : List String) (blocks : Nat) :
    write block act ⟨scopes, ⟨before⟩, blocks⟩ =
      .ok after ⟨scopes, ⟨before ++ pieces⟩, blocks + opened⟩ := by
  have hkept := (h ⟨⟨before⟩, blocks⟩).ok (Record.writeAll_eq ⟨before⟩ pieces)
  unfold write
  dsimp only
  rw [hkept]

/-- A write that puts the same pieces on both sides replays the record. -/
theorem write_replays {block after : Block} {act : Page.Write σ Unit}
    {onRecord : Page.Write Record Unit} {pieces : List String} (opened : Nat)
    (hact : ∀ page, Page.Puts act page block pieces (page.blocks + opened) after)
    (hrecord : ∀ page, Page.Puts onRecord page block pieces (page.blocks + opened) after) :
    Replays (write block act) (write block onRecord) := by
  intro scopes sink before blocks others
  rw [write_record hrecord]
  unfold write
  dsimp only
  cases hall : Sink.writeAll pieces sink with
  | ok _ written =>
      rw [(hact ⟨sink, blocks⟩).ok hall]
      exact .ok rfl hall
  | error reason written =>
      obtain ⟨count, last, herror⟩ := (hact ⟨sink, blocks⟩).error hall
      rw [herror]
      exact .refused rfl hall

theorem values_replays (setting : Setting) (scope : Nat) (terms : List Term) :
    Replays (values setting scope terms : Render σ (List Value)) (values setting scope terms) := by
  induction terms with
  | nil => exact .pure []
  | cons t rest ih =>
      exact (eval_replays _).bind fun value => ih.bind fun others => .pure _

theorem define_replays (setting : Setting) (scope : Nat) (n : Node) :
    Replays (define setting scope n : Render σ Unit) (define setting scope n) := by
  cases n with
  | rule own children line => exact throw_replays _
  | declaration property terms line => exact throw_replays _
  | assignment name e line =>
      exact (eval_replays _).bind fun value => changeScopes_replays _
  | function definition =>
      exact changeScopes_replays fun scopes => scopes.setFunction scope definition

theorem close_replays (block : Block) :
    Replays (write block Page.close : Render σ Block) (write block Page.close) := by
  apply write_replays 0
  · intro page
    exact Page.close_puts page block
  · intro page
    exact Page.close_puts page block

theorem declaration_replays (block : Block) (property : String) (values : List Value) :
    Replays (write block (Page.declaration property values) : Render σ Block)
      (write block (Page.declaration property values)) := by
  apply write_replays (Page.opening block).length
  · intro page
    exact Page.declaration_puts property values page block
  · intro page
    exact Page.declaration_puts property values page block

/-- The inside of a rule replays the record if its body does. -/
theorem inRule_replays {parent : Nat} {selectors : List String}
    {body : Nat → Block → Render σ Block} {onRecord : Nat → Block → Render Record Block}
    (h : ∀ scope block, Replays (body scope block) (onRecord scope block)) :
    Replays (inRule parent selectors body) (inRule parent selectors onRecord) := by
  intro scopes sink pieces blocks others
  -- The new scope has the same number in both runs, as they begin with the same scopes.
  have hleave : Replays (changeScopes fun live => live.leave scopes.count : Render σ Unit) _ :=
    changeScopes_replays _
  have hbody := (h scopes.count { head := Selector.head selectors }).bind fun block =>
    (close_replays block).bind fun _ => hleave
  have hrule := (changeScopes_replays fun live => live.enter parent).bind fun _ => hbody
  exact hrule scopes sink pieces blocks others

mutual

/-- Rendering a node to any sink replays what it records, by induction on the tree. -/
theorem node_replays (setting : Setting) (scope : Nat) (selectors : List String) (block : Block)
    (n : Node) :
    Replays (node setting scope selectors block n : Render σ Block)
      (node setting scope selectors block n) := by
  cases n with
  | rule own children line =>
      exact (close_replays block).bind fun closed =>
        (inRule_replays fun child opened => nodes_replays setting child _ opened children).bind
          fun _ => .pure closed
  | declaration property terms line =>
      exact (values_replays setting scope terms).bind fun present =>
        declaration_replays block property present
  | assignment name e line => exact (define_replays setting scope _).bind fun _ => .pure block
  | function definition => exact (define_replays setting scope _).bind fun _ => .pure block

theorem nodes_replays (setting : Setting) (scope : Nat) (selectors : List String) (block : Block)
    (children : List Node) :
    Replays (nodes setting scope selectors block children : Render σ Block)
      (nodes setting scope selectors block children) := by
  cases children with
  | nil => exact .pure block
  | cons first rest =>
      exact (node_replays setting scope selectors block first).bind fun after =>
        nodes_replays setting scope selectors after rest

end

theorem topNode_replays (setting : Setting) (n : Node) :
    Replays (topNode setting n : Render σ Unit) (topNode setting n) := by
  cases n with
  | rule own children line =>
      exact inRule_replays fun scope block => nodes_replays setting scope _ block children
  | declaration property terms line =>
      exact define_replays setting 0 (.declaration property terms line)
  | assignment name e line => exact define_replays setting 0 (.assignment name e line)
  | function definition => exact define_replays setting 0 (.function definition)

/-- So does rendering the top of a sheet. -/
theorem topNodes_replays (setting : Setting) (children : List Node) :
    Replays (topNodes setting children : Render σ Unit) (topNodes setting children) := by
  induction children with
  | nil => exact .pure ()
  | cons first rest ih => exact (topNode_replays setting first).bind fun _ => ih

end Replay

end Render

namespace Sheet

/-- What there is to write: the rendering of the sheet to a record. -/
def transcript (sheet : Sheet) (setting : Render.Setting) : Rendering Record :=
  sheet.renderIn setting {}

theorem transcript_of_ok {sheet : Sheet} {setting : Render.Setting} {last : Progress Record}
    (h : Render.topNodes setting sheet.children ⟨.initial, ({} : Record), 0⟩ = .ok () last) :
    sheet.transcript setting = ⟨.ok (), last.page⟩ := by
  unfold transcript renderIn
  rw [h]
  rfl

/-- A failed transcript has what was recorded before the failure. -/
theorem transcript_of_error {sheet : Sheet} {setting : Render.Setting} {error : Error}
    {last : Progress Record}
    (h : Render.topNodes setting sheet.children ⟨.initial, ({} : Record), 0⟩ = .error error last) :
    sheet.transcript setting = ⟨.error error, last.page⟩ := by
  unfold transcript renderIn
  rw [h]
  rfl

section Replay

variable {σ : Type} [Sink σ] {sheet : Sheet} {setting : Render.Setting} {sink after last : σ}

/-- Rendering to a sink follows the transcript piece by piece until the sink fails. -/
theorem follows_transcript (sheet : Sheet) (setting : Render.Setting) (sink : σ) :
    Render.Follows sink [] 0 0 (Render.topNodes setting sheet.children ⟨.initial, sink, 0⟩)
      (Render.topNodes setting sheet.children ⟨.initial, ({} : Record), 0⟩) :=
  Render.topNodes_replays setting sheet.children .initial sink [] 0 0

theorem pieces_transcript (sheet : Sheet) (setting : Render.Setting) :
    (sheet.transcript setting).page.sink.pieces = Render.recorded
      (Render.topNodes setting sheet.children ⟨.initial, ({} : Record), 0⟩) := by
  cases hrun : Render.topNodes setting sheet.children ⟨.initial, ({} : Record), 0⟩ with
  | ok _ last =>
      rw [transcript_of_ok hrun]
      rfl
  | error error last =>
      rw [transcript_of_error hrun]
      rfl

theorem finish_of_flush {blocks : Nat} (h : Sink.flush after = .ok () last) :
    Page.finish ⟨after, blocks⟩ = .ok () ⟨last, blocks⟩ := by
  simp only [Page.finish, h]

/-- A sink that takes the whole transcript, and can be flushed then, gives its outcome. -/
theorem renderIn_of_taken
    (htaken : Sink.writeAll (sheet.transcript setting).page.sink.pieces sink = .ok () after)
    (hflush : Sink.flush after = .ok () last) :
    sheet.renderIn setting sink =
      ⟨(sheet.transcript setting).result, last, (sheet.transcript setting).page.blocks⟩ := by
  rw [pieces_transcript] at htaken
  have hfollows := follows_transcript sheet setting sink
  unfold transcript renderIn
  revert htaken hfollows
  generalize Render.topNodes setting sheet.children ⟨.initial, ({} : Record), 0⟩ = record
  generalize Render.topNodes setting sheet.children ⟨.initial, sink, 0⟩ = result
  intro htaken hfollows
  cases hfollows with
  | ok hpieces hall =>
      subst hpieces
      cases hall.symm.trans htaken
      simp only [finish_of_flush hflush]
      rfl
  | error hpieces hall =>
      subst hpieces
      cases hall.symm.trans htaken
      simp only [finish_of_flush hflush]
      rfl
  | refused hpieces hrefused =>
      rw [hpieces, List.nil_append, hrefused] at htaken
      cases htaken

/-- A sink that never fails does not matter to the result. -/
theorem result_of_unfailing (h : Sink.Unfailing sink) :
    (sheet.renderIn setting sink).result = (sheet.transcript setting).result := by
  obtain ⟨after, last, htaken, hflush⟩ := h (sheet.transcript setting).page.sink.pieces
  rw [renderIn_of_taken htaken hflush]

/-- Where rendering succeeds, the sink has taken the whole transcript and was flushed. -/
theorem taken_of_renderIn_ok (h : (sheet.renderIn setting sink).result = .ok ()) :
    ∃ after last,
      Sink.writeAll (sheet.transcript setting).page.sink.pieces sink = .ok () after ∧
        Sink.flush after = .ok () last := by
  rw [pieces_transcript]
  have hfollows := follows_transcript sheet setting sink
  unfold renderIn at h
  revert h hfollows
  generalize Render.topNodes setting sheet.children ⟨.initial, ({} : Record), 0⟩ = record
  generalize Render.topNodes setting sheet.children ⟨.initial, sink, 0⟩ = result
  intro h hfollows
  have hfailed (error : Error) (progress : Progress σ) : result ≠ .error error progress := by
    rintro rfl
    cases hfinish : Page.finish progress.page <;> simp [hfinish] at h
  cases hfollows with
  | error hpieces hall => exact absurd rfl (hfailed _ _)
  | refused hpieces hrefused => exact absurd rfl (hfailed _ _)
  | @ok _ scopes opened _ _ after hpieces hall =>
      subst hpieces
      cases hflush : Sink.flush after with
      | ok _ last => exact ⟨after, last, hall, hflush⟩
      | error reason last => simp [Page.finish, hflush] at h

end Replay

end Sheet

namespace Buffer

theorem extract_of_size_le {text : ByteArray} {room : Nat} (h : text.size ≤ room) :
    text.extract 0 room = text := by
  apply ByteArray.ext
  rw [ByteArray.data_extract]
  exact Array.extract_eq_self_of_le h

/-- A piece that was taken stands behind what was kept before. -/
theorem bytes_of_write {piece : String} {buffer after : Buffer}
    (h : Sink.write piece buffer = .ok () after) : after.bytes = buffer.bytes ++ piece.toUTF8 := by
  change write piece buffer = .ok () after at h
  unfold write at h
  dsimp only at h
  split at h
  · cases h
    rfl
  · split at h
    · next room _ hfits =>
        cases h
        rw [extract_of_size_le hfits]
    · cases h

/-- A buffer that took the pieces holds their text. -/
theorem bytes_of_writeAll {pieces : List String} {buffer after : Buffer}
    (h : Sink.writeAll pieces buffer = .ok () after) :
    after.bytes = buffer.bytes ++ (String.join pieces).toUTF8 := by
  induction pieces generalizing buffer with
  | nil =>
      cases h
      simp
  | cons piece rest ih =>
      cases hwrite : Sink.write piece buffer with
      | ok _ next =>
          rw [Sink.writeAll_cons_ok hwrite] at h
          rw [ih h, bytes_of_write hwrite]
          simp [ByteArray.append_assoc]
      | error reason next =>
          rw [Sink.writeAll_cons_error hwrite] at h
          cases h

theorem bytes_of_flush {buffer after : Buffer} (h : Sink.flush buffer = .ok () after) :
    after.bytes = buffer.bytes := by
  change flush buffer = .ok () after at h
  unfold flush at h
  dsimp only at h
  split at h <;> cases h
  rfl

/-- A buffer without a limit takes everything. -/
theorem exists_writeAll (pieces : List String) {buffer : Buffer} (h : buffer.limit = none) :
    ∃ after, Sink.writeAll pieces buffer = .ok () after ∧ after.flushFails = buffer.flushFails := by
  induction pieces generalizing buffer with
  | nil => exact ⟨buffer, rfl, rfl⟩
  | cons piece rest ih =>
      have hwrite : Sink.write piece buffer =
          .ok () { buffer with bytes := buffer.bytes ++ piece.toUTF8 } := by
        change write piece buffer = _
        simp [write, room, h]
      rw [Sink.writeAll_cons_ok hwrite]
      exact ih h

/-- A buffer without limit takes everything. -/
theorem unfailing {buffer : Buffer} (hlimit : buffer.limit = none)
    (hflushFails : buffer.flushFails = false) : Sink.Unfailing buffer := by
  intro pieces
  obtain ⟨after, htaken, hsame⟩ := exists_writeAll pieces hlimit
  have hflush : Sink.flush after =
      .ok () { after with flushedAt := after.bytes.size :: after.flushedAt } := by
    change flush after = _
    simp [flush, hsame, hflushFails]
  exact ⟨after, _, htaken, hflush⟩

end Buffer

namespace Sheet

/-- A buffer that took all of a sheet has the bytes of its transcript. -/
theorem bytes_of_renderIn_ok {sheet : Sheet} {setting : Render.Setting} {buffer : Buffer}
    (h : (sheet.renderIn setting buffer).result = .ok ()) :
    (sheet.transcript setting).result = .ok () ∧
      (sheet.renderIn setting buffer).page.blocks = (sheet.transcript setting).page.blocks ∧
      (sheet.renderIn setting buffer).page.sink.bytes =
        buffer.bytes ++ (String.join (sheet.transcript setting).page.sink.pieces).toUTF8 := by
  obtain ⟨after, last, htaken, hflush⟩ := taken_of_renderIn_ok h
  rw [renderIn_of_taken htaken hflush] at h ⊢
  refine ⟨h, rfl, ?_⟩
  rw [Buffer.bytes_of_flush hflush, Buffer.bytes_of_writeAll htaken]

/-- A buffer that never fails gives the outcome and the text of the transcript. -/
theorem renderIn_unfailing (sheet : Sheet) (setting : Render.Setting) {buffer : Buffer}
    (hlimit : buffer.limit = none) (hflushFails : buffer.flushFails = false) :
    (sheet.renderIn setting buffer).result = (sheet.transcript setting).result ∧
      (sheet.renderIn setting buffer).page.sink.bytes =
        buffer.bytes ++ (String.join (sheet.transcript setting).page.sink.pieces).toUTF8 := by
  obtain ⟨after, last, htaken, hflush⟩ :=
    Buffer.unfailing hlimit hflushFails (sheet.transcript setting).page.sink.pieces
  rw [renderIn_of_taken htaken hflush]
  refine ⟨rfl, ?_⟩
  rw [Buffer.bytes_of_flush hflush, Buffer.bytes_of_writeAll htaken]

end Sheet

end Stylesheet
