/-!
Bytes read as UTF-8 text. `decode?` refuses anything that is not well formed. `decodeLossy` puts
one replacement character for every longest run of bytes that begins a character and breaks off,
so a text that was cut inside a character ends with exactly one of them.
-/

namespace Stylesheet.Text

def decode? (bytes : ByteArray) : Option String :=
  String.fromUTF8? bytes

/-- A character of which some bytes have been seen: how many are still owed, the bounds that the
next one has to meet, and the value so far. -/
structure Pending where
  owed : Nat
  low : UInt8
  high : UInt8
  value : Nat

/-- How a byte starts a character: complete, begun, or not at all. -/
inductive Start where
  | complete (c : Char)
  | begun (rest : Pending)
  | invalid

/-- Reads the first byte of a character. The bounds on the second byte rule out overlong forms,
surrogates and values past the last code point. -/
def start (b : UInt8) : Start :=
  if b < 0x80 then .complete (Char.ofNat b.toNat)
  else if 0xC2 ≤ b ∧ b ≤ 0xDF then .begun ⟨1, 0x80, 0xBF, b.toNat - 0xC0⟩
  else if b = 0xE0 then .begun ⟨2, 0xA0, 0xBF, 0⟩
  else if b = 0xED then .begun ⟨2, 0x80, 0x9F, 0xD⟩
  else if 0xE1 ≤ b ∧ b ≤ 0xEF then .begun ⟨2, 0x80, 0xBF, b.toNat - 0xE0⟩
  else if b = 0xF0 then .begun ⟨3, 0x90, 0xBF, 0⟩
  else if 0xF1 ≤ b ∧ b ≤ 0xF3 then .begun ⟨3, 0x80, 0xBF, b.toNat - 0xF0⟩
  else if b = 0xF4 then .begun ⟨3, 0x80, 0x8F, 4⟩
  else .invalid

def replacement : Char := Char.ofNat 0xFFFD

/-- Decodes the bytes after a character that is still owed some, if any. -/
def lossyChars : Option Pending → List UInt8 → List Char
  | none, [] => []
  | some _, [] => [replacement]
  | pending, b :: rest =>
    match pending with
    | some p =>
      if p.low ≤ b ∧ b ≤ p.high then
        let value := p.value * 64 + (b.toNat - 0x80)
        match p.owed with
        | 0 | 1 => Char.ofNat value :: lossyChars none rest
        | owed + 2 => lossyChars (some ⟨owed + 1, 0x80, 0xBF, value⟩) rest
      else
        match start b with
        | .complete c => replacement :: c :: lossyChars none rest
        | .begun q => replacement :: lossyChars (some q) rest
        | .invalid => replacement :: replacement :: lossyChars none rest
    | none =>
      match start b with
      | .complete c => c :: lossyChars none rest
      | .begun q => lossyChars (some q) rest
      | .invalid => replacement :: lossyChars none rest

/-- The text of the bytes, with replacement characters where they are not well formed. -/
def decodeLossy (bytes : ByteArray) : String :=
  String.ofList (lossyChars none bytes.data.toList)

end Stylesheet.Text
