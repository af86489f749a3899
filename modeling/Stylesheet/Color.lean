import Stylesheet.Number.Binary
import Stylesheet.Text.Hex

/-!
Colours of three byte channels: from computed channels, from hexadecimal text, and as text.
-/

namespace Stylesheet

/-- A colour with channels from 0 to 255. -/
structure Color where
  red : UInt8
  green : UInt8
  blue : UInt8
  deriving DecidableEq

namespace Color

/-- The colour nearest to three computed channels. -/
def ofChannels (red green blue : Float) : Color :=
  ⟨Number.toByte red, Number.toByte green, Number.toByte blue⟩

def map (f : Float → Float) (c : Color) : Color :=
  ofChannels (f c.red.toFloat) (f c.green.toFloat) (f c.blue.toFloat)

/-- The channel of one digit, which stands for the digit written twice. -/
def channelOfDigit? (c : Char) : Option UInt8 :=
  (Text.hexValue? c).map fun n => UInt8.ofNat (17 * n)

/-- The channel of two digits. A plus sign may stand in place of the first. -/
def channelOfPair? (high low : Char) : Option UInt8 := do
  let sixteens ← if high = '+' then some 0 else Text.hexValue? high
  let ones ← Text.hexValue? low
  return UInt8.ofNat (16 * sixteens + ones)

/-- The colour of the characters after the hash sign: one digit or one pair a channel. -/
def ofHexChars? : List Char → Option Color
  | [r, g, b] => return ⟨← channelOfDigit? r, ← channelOfDigit? g, ← channelOfDigit? b⟩
  | [r₁, r₀, g₁, g₀, b₁, b₀] =>
    return ⟨← channelOfPair? r₁ r₀, ← channelOfPair? g₁ g₀, ← channelOfPair? b₁ b₀⟩
  | _ => none

/-- Reads a colour such as `#fff` or `#c0ffee`. -/
def ofHex? (s : String) : Option Color :=
  match s.toList with
  | '#' :: digits => ofHexChars? digits
  | _ => none

def channelText (channel : UInt8) : List Char :=
  [(channel.toNat / 16).digitChar, (channel.toNat % 16).digitChar]

def text (c : Color) : String :=
  String.ofList ('#' :: (channelText c.red ++ channelText c.green ++ channelText c.blue))

end Color

end Stylesheet
