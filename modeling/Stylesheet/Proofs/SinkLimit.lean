import Stylesheet.Proofs.Transcript

/-!
Sinks that fill up, and sinks whose flush fails. Rendering to any sink writes the transcript up to
the first piece that is refused and then flushes once, so a buffer with a limit keeps as much of the
text as fits, and what the limit cuts off is lost together with every later error of the sheet.
-/

namespace Stylesheet

/-- Something that a sink is asked to do. -/
inductive SinkCall where
  | write (piece : String)
  | flush

/-- A sink with a list of all it was asked to do, also where it refused. -/
structure Watched (σ : Type) where
  sink : σ
  calls : List SinkCall := []

namespace Watched

variable {σ : Type} [Sink σ]

/-- Passes a call on to the sink and notes it. -/
def note (call : SinkCall) (act : EStateM String σ Unit) : EStateM String (Watched σ) Unit :=
  fun watched =>
    match act watched.sink with
    | .ok () sink => .ok () ⟨sink, watched.calls ++ [call]⟩
    | .error reason sink => .error reason ⟨sink, watched.calls ++ [call]⟩

instance : Sink (Watched σ) where
  write piece := note (.write piece) (Sink.write piece)
  flush := note .flush Sink.flush

/-- The sink takes or refuses what it would without being watched. -/
theorem writeAll_eq (pieces : List String) (watched : Watched σ) :
    ∃ written : List String, Sink.writeAll pieces watched =
      match Sink.writeAll pieces watched.sink with
      | .ok () after => .ok () ⟨after, watched.calls ++ written.map .write⟩
      | .error reason after => .error reason ⟨after, watched.calls ++ written.map .write⟩ := by
  induction pieces generalizing watched with
  | nil => exact ⟨[], by rw [List.map_nil, List.append_nil]; rfl⟩
  | cons piece rest ih =>
      have hnote : Sink.write piece watched = note (.write piece) (Sink.write piece) watched := rfl
      rw [note] at hnote
      cases hwrite : Sink.write piece watched.sink with
      | error reason next =>
          rw [hwrite] at hnote
          refine ⟨[piece], ?_⟩
          rw [Sink.writeAll_cons_error hwrite, Sink.writeAll_cons_error hnote]
          rfl
      | ok _ next =>
          rw [hwrite] at hnote
          obtain ⟨written, hrest⟩ := ih ⟨next, watched.calls ++ [.write piece]⟩
          refine ⟨piece :: written, ?_⟩
          rw [Sink.writeAll_cons_ok hwrite, Sink.writeAll_cons_ok hnote, hrest]
          simp

end Watched

/-- The end of a run, given how far it came: the sink is flushed, and a failure of that counts where
there was none before. -/
def Sink.conclude {σ : Type} [Sink σ] (walked : Except Error Unit) (sink : σ) :
    Except Error Unit × σ :=
  match Sink.flush sink with
  | .ok () last => (walked, last)
  | .error reason last => (walked.bind fun _ => .error (.sink reason), last)

/-- A watched sink is flushed once, at the end. -/
theorem Watched.conclude_eq {σ : Type} [Sink σ] (walked : Except Error Unit)
    (watched : Watched σ) :
    Sink.conclude walked watched =
      ((Sink.conclude walked watched.sink).1,
        ⟨(Sink.conclude walked watched.sink).2, watched.calls ++ [.flush]⟩) := by
  have hflush : Sink.flush watched = note .flush Sink.flush watched := rfl
  unfold Sink.conclude
  rw [hflush, note]
  cases Sink.flush watched.sink <;> rfl

namespace Render

/-- How a walk ended, and the sink as it left it. -/
def ended {σ : Type} : EStateM.Result Error (Progress σ) Unit → Except Error Unit × σ
  | .ok () last => (.ok (), last.page.sink)
  | .error error last => (.error error, last.page.sink)

end Render

namespace Sheet

variable {σ : Type} [Sink σ]

def walk (sheet : Sheet) (setting : Render.Setting) (sink : σ) : Except Error Unit × σ :=
  Render.ended (Render.topNodes setting sheet.children ⟨.initial, sink, 0⟩)

/-- What rendering leaves, but for the count of blocks. -/
def outcome (sheet : Sheet) (setting : Render.Setting) (sink : σ) : Except Error Unit × σ :=
  ((sheet.renderIn setting sink).result, (sheet.renderIn setting sink).page.sink)

/-- Rendering is a walk over the nodes and then the end of the page. -/
theorem outcome_eq_conclude (sheet : Sheet) (setting : Render.Setting) (sink : σ) :
    sheet.outcome setting sink =
      Sink.conclude (sheet.walk setting sink).1 (sheet.walk setting sink).2 := by
  unfold outcome renderIn walk Sink.conclude
  cases Render.topNodes setting sheet.children ⟨.initial, sink, 0⟩ with
  | ok _ last =>
      dsimp only [Page.finish, Render.ended]
      cases Sink.flush last.page.sink <;> rfl
  | error error last =>
      dsimp only [Page.finish, Render.ended]
      cases Sink.flush last.page.sink <;> rfl

theorem transcript_eq_walk (sheet : Sheet) (setting : Render.Setting) :
    ((sheet.transcript setting).result, (sheet.transcript setting).page.sink) =
      sheet.walk setting ({} : Record) :=
  outcome_eq_conclude sheet setting ({} : Record)

/-- The walk writes the transcript. The first piece that is refused ends it, whatever the rest of
the sheet would have come to. -/
theorem walk_eq (sheet : Sheet) (setting : Render.Setting) (sink : σ) :
    sheet.walk setting sink =
      match Sink.writeAll (sheet.transcript setting).page.sink.pieces sink with
      | .ok () after => ((sheet.transcript setting).result, after)
      | .error reason after => (.error (.sink reason), after) := by
  have hresult := congrArg Prod.fst (transcript_eq_walk sheet setting)
  have hsink := congrArg Prod.snd (transcript_eq_walk sheet setting)
  dsimp only at hresult hsink
  have hfollows := follows_transcript sheet setting sink
  rw [hresult, hsink]
  unfold walk
  revert hfollows
  generalize Render.topNodes setting sheet.children ⟨.initial, ({} : Record), 0⟩ = record
  generalize Render.topNodes setting sheet.children ⟨.initial, sink, 0⟩ = run
  intro hfollows
  cases hfollows with
  | ok hpieces htaken =>
      subst hpieces
      simp only [Render.ended, htaken]
  | error hpieces htaken =>
      subst hpieces
      simp only [Render.ended, htaken]
  | refused hpieces hrefused =>
      have hkept : (Render.ended record).2.pieces = Render.recorded record := by
        cases record <;> rfl
      rw [hkept, hpieces, List.nil_append, hrefused]
      rfl

/-- Watching a sink changes nothing about it. It is asked to write, and once, at the end, to
flush. -/
theorem outcome_watched (sheet : Sheet) (setting : Render.Setting) (sink : σ) :
    ∃ written : List String, sheet.outcome setting ({ sink } : Watched σ) =
      ((sheet.outcome setting sink).1,
        ⟨(sheet.outcome setting sink).2, written.map .write ++ [.flush]⟩) := by
  have hwalk : ∃ written : List String, sheet.walk setting ({ sink } : Watched σ) =
      ((sheet.walk setting sink).1,
        ⟨(sheet.walk setting sink).2, written.map .write⟩) := by
    rw [walk_eq sheet setting sink, walk_eq sheet setting ({ sink } : Watched σ)]
    have hwatched := Watched.writeAll_eq (sheet.transcript setting).page.sink.pieces { sink }
    obtain ⟨written, hwritten⟩ := hwatched
    refine ⟨written, ?_⟩
    rw [hwritten]
    cases Sink.writeAll (sheet.transcript setting).page.sink.pieces sink <;> rfl
  obtain ⟨written, hwritten⟩ := hwalk
  refine ⟨written, ?_⟩
  rw [outcome_eq_conclude, outcome_eq_conclude, hwritten]
  exact Watched.conclude_eq _ _

end Sheet

namespace Buffer

def Fits (buffer : Buffer) (text : ByteArray) : Prop :=
  text.size ≤ buffer.room.getD text.size

instance (buffer : Buffer) (text : ByteArray) : Decidable (buffer.Fits text) :=
  inferInstanceAs (Decidable (text.size ≤ buffer.room.getD text.size))

/-- Keeps as many bytes of the text as there is room for. -/
def keep (buffer : Buffer) (text : ByteArray) : Buffer :=
  { buffer with bytes := buffer.bytes ++ text.extract 0 (buffer.room.getD text.size) }

/-- A piece is kept as far as there is room for it. -/
theorem write_eq (piece : String) (buffer : Buffer) :
    Sink.write piece buffer =
      if buffer.Fits piece.toUTF8 then .ok () (buffer.keep piece.toUTF8)
      else .error "disk full" (buffer.keep piece.toUTF8) := by
  change write piece buffer = _
  unfold write
  cases hroom : buffer.room with
  | none =>
      have hfits : buffer.Fits piece.toUTF8 := by simp [Fits, hroom]
      simp only [hfits, if_true, keep, hroom, Option.getD_none, ByteArray.extract_zero_size]
  | some room => simp only [Fits, keep, hroom, Option.getD_some]

theorem keep_empty (buffer : Buffer) : buffer.keep .empty = buffer := by
  unfold keep
  have hnone : ByteArray.empty.extract 0 (buffer.room.getD ByteArray.empty.size) = .empty := by
    simp [ByteArray.extract_eq_empty_iff]
  rw [hnone, ByteArray.append_empty]

theorem room_keep (buffer : Buffer) (text : ByteArray) :
    (buffer.keep text).room = buffer.room.map fun room => room - text.size := by
  obtain ⟨limit, flushFails, bytes, flushedAt⟩ := buffer
  cases limit with
  | none => rfl
  | some limit =>
      simp only [keep, room, Option.map_some, Option.getD_some, ByteArray.size_append,
        ByteArray.size_extract, Option.some.injEq]
      omega

/-- Texts may be kept one after the other. -/
theorem keep_append (buffer : Buffer) (first second : ByteArray) :
    buffer.keep (first ++ second) = (buffer.keep first).keep second := by
  have hbytes : (buffer.keep (first ++ second)).bytes =
      ((buffer.keep first).keep second).bytes := by
    change _ = (buffer.keep first).bytes ++ second.extract 0 ((buffer.keep first).room.getD _)
    rw [room_keep]
    cases hroom : buffer.room with
    | none =>
        simp only [keep, hroom, Option.map_none, Option.getD_none, ByteArray.extract_zero_size,
          ByteArray.append_assoc]
    | some room =>
        simp only [keep, hroom, Option.map_some, Option.getD_some, ByteArray.extract_append,
          ByteArray.append_assoc, Nat.zero_sub]
  exact congrArg (fun bytes => { buffer with bytes }) hbytes

/-- Two texts fit if the first does and the second fits behind it. -/
theorem fits_append {buffer : Buffer} {first second : ByteArray} :
    buffer.Fits (first ++ second) ↔ buffer.Fits first ∧ (buffer.keep first).Fits second := by
  unfold Fits
  rw [room_keep, ByteArray.size_append]
  cases buffer.room with
  | none => simp
  | some room =>
      simp only [Option.map_some, Option.getD_some]
      omega

/-- After a text that did not fit there is no room for anything. -/
theorem room_keep_of_not_fits {buffer : Buffer} {text : ByteArray} (h : ¬ buffer.Fits text) :
    (buffer.keep text).room = some 0 := by
  rw [room_keep]
  unfold Fits at h
  cases hroom : buffer.room with
  | none => simp [hroom] at h
  | some room =>
      simp only [hroom, Option.getD_some] at h
      simp only [Option.map_some, Option.some.injEq]
      omega

/-- Behind a text that did not fit nothing more is kept. -/
theorem keep_append_of_not_fits {buffer : Buffer} {first : ByteArray} (h : ¬ buffer.Fits first)
    (second : ByteArray) : buffer.keep (first ++ second) = buffer.keep first := by
  have hnone : second.extract 0 0 = .empty := by simp
  rw [keep_append, keep, room_keep_of_not_fits h, Option.getD_some, hnone, ByteArray.append_empty]

/-- Pieces written one after the other are kept as their text would be in one piece. -/
theorem writeAll_eq (pieces : List String) (buffer : Buffer) :
    Sink.writeAll pieces buffer =
      if buffer.Fits (String.join pieces).toUTF8 then
        .ok () (buffer.keep (String.join pieces).toUTF8)
      else .error "disk full" (buffer.keep (String.join pieces).toUTF8) := by
  induction pieces generalizing buffer with
  | nil =>
      have hfits : buffer.Fits (String.join []).toUTF8 := Nat.zero_le _
      rw [if_pos hfits]
      exact congrArg (EStateM.Result.ok ()) (keep_empty buffer).symm
  | cons piece rest ih =>
      have hjoin : (String.join (piece :: rest)).toUTF8 =
          piece.toUTF8 ++ (String.join rest).toUTF8 := by
        simp
      have hpiece := write_eq piece buffer
      rw [hjoin]
      by_cases hfits : buffer.Fits piece.toUTF8
      · rw [if_pos hfits] at hpiece
        rw [Sink.writeAll_cons_ok hpiece, ih, keep_append]
        simp only [fits_append, hfits, true_and]
      · rw [if_neg hfits] at hpiece
        have hall : ¬ buffer.Fits (piece.toUTF8 ++ (String.join rest).toUTF8) :=
          fun h => hfits (fits_append.mp h).1
        rw [Sink.writeAll_cons_error hpiece, if_neg hall, keep_append_of_not_fits hfits]

/-- The failure to flush counts where the walk succeeded. -/
theorem conclude_eq (walked : Except Error Unit) (buffer : Buffer) :
    Sink.conclude walked buffer =
      (if buffer.flushFails then walked.bind fun _ => .error (.sink "flush failed") else walked,
        { buffer with flushedAt := buffer.bytes.size :: buffer.flushedAt }) := by
  have hflush : Sink.flush buffer = flush buffer := rfl
  rw [Sink.conclude, hflush, flush]
  cases buffer.flushFails <;> rfl

end Buffer

/-- A limit keeps the beginning of the text. For every sheet, host and depth of calls, and for a
buffer with any limit whose flush may fail or not: it keeps as much of what a buffer without limit
gets as the limit allows, and rendering ends as it does there if that is all, else because the
buffer is full. Every sink is flushed exactly once, after all writes, and a failure of that counts
only where rendering has succeeded. -/
theorem Sheet.renderIn_limited (sheet : Sheet) (setting : Render.Setting) (limit : Option Nat)
    (flushFails : Bool) :
    let whole := sheet.renderIn setting ({} : Buffer)
    let size := whole.page.sink.bytes.size
    let walked := if size ≤ limit.getD size then whole.result else .error (.sink "disk full")
    let limited := sheet.renderIn setting ({ limit, flushFails } : Buffer)
    limited.page.sink.bytes = whole.page.sink.bytes.extract 0 (limit.getD size) ∧
      limited.page.sink.flushedAt = [limited.page.sink.bytes.size] ∧
      (limited.result = match walked with
        | .ok () => if flushFails then .error (.sink "flush failed") else .ok ()
        | .error error => .error error) ∧
      ∀ {σ : Type} [Sink σ] (sink : σ),
        let watched := sheet.renderIn setting ({ sink } : Watched σ)
        watched.result = (sheet.renderIn setting sink).result ∧
          watched.page.sink.sink = (sheet.renderIn setting sink).page.sink ∧
          ∃ written : List String, watched.page.sink.calls = written.map .write ++ [.flush] := by
  intro whole size walked limited
  have hplain : ({} : Buffer).limit = none := rfl
  obtain ⟨hresult, hbytes⟩ := renderIn_unfailing sheet setting hplain rfl
  rw [ByteArray.empty_append] at hbytes
  have hroom : Buffer.room { limit, flushFails } = limit := by
    cases limit <;> rfl
  have hwalk : sheet.walk setting ({ limit, flushFails } : Buffer) =
      (walked, Buffer.keep { limit, flushFails } whole.page.sink.bytes) := by
    have hfits : Buffer.Fits { limit, flushFails } whole.page.sink.bytes ↔
        size ≤ limit.getD size := by
      rw [Buffer.Fits, hroom]
    rw [walk_eq, Buffer.writeAll_eq, ← hbytes, ← hresult]
    by_cases hsize : size ≤ limit.getD size
    · rw [if_pos (hfits.mpr hsize)]
      simp only [walked, if_pos hsize, whole]
    · rw [if_neg (mt hfits.mp hsize)]
      simp only [walked, if_neg hsize, whole]
  have houtcome : (limited.result, limited.page.sink) = _ :=
    outcome_eq_conclude sheet setting ({ limit, flushFails } : Buffer)
  rw [hwalk, Buffer.conclude_eq, Prod.mk.injEq] at houtcome
  obtain ⟨hlimited, hsink⟩ := houtcome
  refine ⟨?_, ?_, ?_, ?_⟩
  · rw [hsink]
    simp only [Buffer.keep, hroom, ByteArray.empty_append, size]
  · rw [hsink]
    rfl
  · rw [hlimited]
    cases walked <;> cases flushFails <;> rfl
  · intro σ _ sink
    obtain ⟨written, hwritten⟩ := outcome_watched sheet setting sink
    obtain ⟨hsame, hsink⟩ := Prod.mk.inj hwritten
    exact ⟨hsame, congrArg Watched.sink hsink, written, congrArg Watched.calls hsink⟩

end Stylesheet
