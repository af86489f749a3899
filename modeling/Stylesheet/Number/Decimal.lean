import Stylesheet.Number.Binary

/-!
Decimal numbers as written: a sign, a natural coefficient and a power of ten. A decimal is read as
the nearest float, and a float is written with the fewest digits that read back. Both directions go
through the same reader, so what is written reads back by the way it was chosen.
-/

namespace Stylesheet

/-- A decimal number `± coefficient · 10 ^ exponent`. -/
structure Decimal where
  negative : Bool
  coefficient : Nat
  exponent : Int
  deriving DecidableEq

namespace Decimal

/-- The nearest float; too large a magnitude is infinity. The two middle cases give the same answer
as the general ones and spare the computation of a huge power of ten. -/
def toFloat (d : Decimal) : Float :=
  if d.coefficient = 0 then Binary.toNearest d.negative 0 1
  else if 400 < d.exponent then Binary.toNearest d.negative (Nat.pow 10 400) 1
  else if d.exponent < -(401 + (d.coefficient.log2 : Int)) then Binary.toNearest d.negative 0 1
  else if 0 ≤ d.exponent then
    Binary.toNearest d.negative (d.coefficient * Nat.pow 10 d.exponent.toNat) 1
  else Binary.toNearest d.negative d.coefficient (Nat.pow 10 (-d.exponent).toNat)

/-- Reads digits with at most one point among or around them and at least one digit. -/
def ofPositional? (negative : Bool) (cs : List Char) : Option Decimal :=
  let whole := cs.takeWhile Char.isDigit
  match cs.dropWhile Char.isDigit with
  | [] => if whole.isEmpty then none else some ⟨negative, Nat.ofDigitChars 10 whole 0, 0⟩
  | '.' :: fraction =>
    if fraction.all Char.isDigit && !(whole.isEmpty && fraction.isEmpty) then
      some ⟨negative, Nat.ofDigitChars 10 (whole ++ fraction) 0, -(fraction.length : Int)⟩
    else none
  | _ => none

/-- Does the decimal read as the float with these bits? -/
def readsAs (bits : UInt64) (d : Decimal) : Bool :=
  d.toFloat.toBits == bits

/-- The decimal equal to an exact binary value: `m / 2 ^ k` is `m · 5 ^ k / 10 ^ k`. -/
def ofBinary (b : Binary) : Decimal :=
  if 0 ≤ b.exponent then ⟨b.negative, b.significand * Nat.pow 2 b.exponent.toNat, 0⟩
  else ⟨b.negative, b.significand * Nat.pow 5 (-b.exponent).toNat, b.exponent⟩

def width (n : Nat) : Nat := (Nat.toDigits 10 n).length

/-- The position of the leading digit of `num / den`: the largest `k` with `10 ^ k ≤ num / den`.
Scaling by `10 ^ 400` makes the quotient of every positive float a large natural. -/
def leadingPosition (num den : Nat) : Int :=
  (width (num * Nat.pow 10 400 / den) : Int) - 401

/-- The unit of the last digit of `num / den` when `digits` digits are written, as a power of ten. -/
def lastPosition (num den digits : Nat) : Int :=
  leadingPosition num den + 1 - digits

/-- The ratio `num / den` counted in units of `10 ^ unit`, again as a ratio. -/
def inUnits (num den : Nat) (unit : Int) : Nat × Nat :=
  if 0 ≤ unit then (num, den * Nat.pow 10 unit.toNat) else (num * Nat.pow 10 (-unit).toNat, den)

/-- The decimal above `count` units. One that needs a digit more is a power of ten. -/
def successor (negative : Bool) (count digits : Nat) (unit : Int) : Decimal :=
  if count + 1 = Nat.pow 10 digits then ⟨negative, 1, unit + digits⟩
  else ⟨negative, count + 1, unit⟩

/-- The decimal of `digits` digits that reads back. Only the two neighbours of the value can; where
both do, it is the nearer one. -/
def hit? (b : Binary) (bits : UInt64) (digits : Nat) : Option Decimal :=
  let unit := lastPosition b.ratio.1 b.ratio.2 digits
  let units := inUnits b.ratio.1 b.ratio.2 unit
  let below : Decimal := ⟨b.negative, units.1 / units.2, unit⟩
  let above := successor b.negative (units.1 / units.2) digits unit
  let belowIsNearer := decide (2 * (units.1 % units.2) < units.2)
  if below.readsAs bits && (belowIsNearer || !above.readsAs bits) then some below
  else if above.readsAs bits then some above
  else none

/-- The fewest digits that read back as the finite float `x`. Seventeen always suffice; the exact
value stands behind the search, so the answer reads back in any case. -/
def shortest (x : Float) (b : Binary) : Decimal :=
  if b.significand = 0 then ⟨b.negative, 0, 0⟩
  else ((List.range 17).findSome? fun n => hit? b x.toBits (n + 1)).getD (ofBinary b)

/-- The digits with a point where the exponent puts it, never in exponent notation. -/
def magnitudeText (d : Decimal) : List Char :=
  let digits := Nat.toDigits 10 d.coefficient
  if 0 ≤ d.exponent then digits ++ List.replicate d.exponent.toNat '0'
  else
    let places := (-d.exponent).toNat
    if places < digits.length then
      digits.take (digits.length - places) ++ '.' :: digits.drop (digits.length - places)
    else '0' :: '.' :: (List.replicate (places - digits.length) '0' ++ digits)

def text (d : Decimal) : String :=
  String.ofList (if d.negative then '-' :: d.magnitudeText else d.magnitudeText)

end Decimal

/-- The text of a number in CSS. Zero has no sign, whole numbers show every digit of their exact
value, and other numbers the fewest digits that read back. -/
def Number.text (x : Float) : String :=
  match Binary.ofFloat? x with
  | none => if x.isNaN then "NaN" else if x > 0.0 then "inf" else "-inf"
  | some b =>
    if b.significand = 0 then "0"
    else if b.isWhole then Decimal.text ⟨b.negative, b.ratio.1 / b.ratio.2, 0⟩
    else (Decimal.shortest x b).text

end Stylesheet
