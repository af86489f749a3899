/-!
Finite floats as exact quantities `± significand · 2 ^ exponent`, and the float nearest to a ratio
of naturals. Everything that has to be exact about numbers (their text, their remainder, their
rounding to a colour channel) is computed on this form with unbounded naturals.
-/

namespace Stylesheet

/-- The exact value of a finite float, `± significand · 2 ^ exponent`. -/
structure Binary where
  negative : Bool
  significand : Nat
  exponent : Int
  deriving DecidableEq

namespace Binary

/-- The bit pattern of positive infinity, the least one above all finite magnitudes. -/
def infinityBits : Nat := 2047 * Nat.pow 2 52

/-- Splits a finite float into sign, significand and exponent; infinities and NaN have no such
form. -/
def ofFloat? (x : Float) : Option Binary :=
  let bits := x.toBits.toNat
  let negative := decide (Nat.pow 2 63 ≤ bits)
  let scale : Nat := bits / Nat.pow 2 52 % Nat.pow 2 11
  let fraction : Nat := bits % Nat.pow 2 52
  if scale = 2047 then none
  else if scale = 0 then some ⟨negative, fraction, -1074⟩
  else some ⟨negative, fraction + Nat.pow 2 52, (scale : Int) - 1075⟩

/-- The magnitude as a ratio of naturals. -/
def ratio (b : Binary) : Nat × Nat :=
  if 0 ≤ b.exponent then (b.significand * Nat.pow 2 b.exponent.toNat, 1)
  else (b.significand, Nat.pow 2 (-b.exponent).toNat)

def isWhole (b : Binary) : Bool :=
  b.ratio.1 % b.ratio.2 == 0

/-- The quotient rounded to the nearest natural, a half going to the even neighbour. -/
def roundEven (num den : Nat) : Nat :=
  let whole := num / den
  let twice := 2 * (num % den)
  if twice < den then whole
  else if den < twice then whole + 1
  else whole + whole % 2

/-- The quotient rounded to the nearest natural, a half going up. -/
def roundHalfUp (num den : Nat) : Nat :=
  (2 * num + den) / (2 * den)

/-- The largest `k` with `2 ^ k ≤ num / den`, for positive `num` and `den`. -/
def floorLog2 (num den : Nat) : Int :=
  let k : Int := (num.log2 : Int) - den.log2
  let reached :=
    if 0 ≤ k then decide (den * Nat.pow 2 k.toNat ≤ num)
    else decide (den ≤ num * Nat.pow 2 (-k).toNat)
  if reached then k else k - 1

/-- The bit pattern, sign apart, of the float nearest to `num / den`. The significand has 53 bits
where the exponent allows it; adding it to the shifted exponent carries by itself when rounding
reaches the next power of two, and a pattern past the largest float is infinity. -/
def nearestBits (num den : Nat) : Nat :=
  if num = 0 then 0
  else
    let exponent := max (floorLog2 num den - 52) (-1074)
    let significand :=
      if 0 ≤ exponent then roundEven num (den * Nat.pow 2 exponent.toNat)
      else roundEven (num * Nat.pow 2 (-exponent).toNat) den
    min (significand + (exponent + 1074).toNat * Nat.pow 2 52) infinityBits

def toNearest (negative : Bool) (num den : Nat) : Float :=
  Float.ofBits (UInt64.ofNat ((if negative then Nat.pow 2 63 else 0) + nearestBits num den))

def toFloat (b : Binary) : Float :=
  toNearest b.negative b.ratio.1 b.ratio.2

/-- The remainder of the magnitudes on their common scale, with the sign of the dividend. -/
def remainder (a b : Binary) : Binary :=
  let scale := min a.exponent b.exponent
  let left := a.significand * Nat.pow 2 (a.exponent - scale).toNat
  let right := b.significand * Nat.pow 2 (b.exponent - scale).toNat
  ⟨a.negative, left % right, scale⟩

/-- Rounds to the nearest byte, a half going up; values outside `0..255` go to the nearer end. -/
def toByte (b : Binary) : UInt8 :=
  if b.negative then 0
  else UInt8.ofNat (min (roundHalfUp b.ratio.1 b.ratio.2) 255)

end Binary

namespace Number

def notANumber : Float := 0.0 / 0.0

/-- The remainder of a division that truncates, so that it has the sign of the dividend. A finite
number divided by an infinite one is its own remainder. -/
def remainder (x y : Float) : Float :=
  match Binary.ofFloat? x, Binary.ofFloat? y with
  | some a, some b => if b.significand = 0 then notANumber else (a.remainder b).toFloat
  | some _, none => if y.isNaN then notANumber else x
  | none, _ => notANumber

/-- The byte nearest to a number. NaN gives zero, and infinities give the nearer end. -/
def toByte (x : Float) : UInt8 :=
  match Binary.ofFloat? x with
  | some b => b.toByte
  | none => if x > 0.0 then 255 else 0

end Number

end Stylesheet
