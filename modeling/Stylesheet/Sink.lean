/-!
Where the rendered text goes. A sink takes text piece by piece and may refuse it; `Buffer` is a sink
in memory that can be given a limit, so that it fills up in the middle of a piece, and `Discard` keeps
nothing.
-/

namespace Stylesheet

/-- Something that text can be written to. Both operations may fail with a reason, and the sink is
kept as the failure left it. -/
class Sink (σ : Type) where
  write : String → EStateM String σ Unit
  flush : EStateM String σ Unit

structure Buffer where
  /-- The number of bytes that may be kept, if it is bounded. -/
  limit : Option Nat := none
  /-- Does a flush fail? -/
  flushFails : Bool := false
  /-- What was kept so far. -/
  bytes : ByteArray := .empty
  /-- How many bytes were kept at each flush so far, the latest first. -/
  flushedAt : List Nat := []

namespace Buffer

/-- How many more bytes may be kept, if that is bounded. -/
def room (buffer : Buffer) : Option Nat :=
  buffer.limit.map fun limit => limit - buffer.bytes.size

/-- Keeps the part of a piece that fits, and fails if that is not all of it. -/
def write (piece : String) : EStateM String Buffer Unit := fun buffer =>
  let bytes := piece.toUTF8
  match buffer.room with
  | none => .ok () { buffer with bytes := buffer.bytes ++ bytes }
  | some room =>
    let next := { buffer with bytes := buffer.bytes ++ bytes.extract 0 room }
    if bytes.size ≤ room then .ok () next else .error "disk full" next

/-- Counts a flush, and fails if flushes of this buffer do. -/
def flush : EStateM String Buffer Unit := fun buffer =>
  let next := { buffer with flushedAt := buffer.bytes.size :: buffer.flushedAt }
  if buffer.flushFails then .error "flush failed" next else .ok () next

instance : Sink Buffer := ⟨write, flush⟩

end Buffer

/-- A sink that takes everything and keeps nothing. -/
structure Discard

instance : Sink Discard := ⟨fun _ => pure (), pure ()⟩

end Stylesheet
