import Mathlib.Tactic.IntervalCases
import Stylesheet.Color

/-!
Which texts are read as colours. A text of three or six hexadecimal digits after a hash sign is, and
its digits are the channels of the colour. The reader of pairs also takes a plus sign for the first
digit; without one in the text, nothing else is read as a colour.
-/

namespace Stylesheet

namespace Text

/-- The character is the hexadecimal digit of a value, in either case. -/
def IsHexDigit (c : Char) (n : Nat) : Prop :=
  n < 16 ∧ (c = n.digitChar ∨ c = n.digitChar.toUpper)

instance (c : Char) (n : Nat) : Decidable (IsHexDigit c n) :=
  inferInstanceAs (Decidable (_ ∧ _))

/-- Only characters of ASCII have a value as a digit. -/
theorem toNat_lt_of_hexValue? {c : Char} {n : Nat} (h : hexValue? c = some n) : c.toNat < 128 := by
  have hle {last : Char} (hc : c ≤ last) : c.toNat ≤ last.toNat := UInt32.le_iff_toNat_le.mp hc
  unfold hexValue? at h
  split at h
  · next hdigit => exact (Char.isDigit_iff_toNat.mp hdigit).2.trans_lt (by decide)
  · split at h
    · next hlower => exact (hle hlower.2).trans_lt (by decide)
    · split at h
      · next hupper => exact (hle hupper.2).trans_lt (by decide)
      · cases h

theorem isHexDigit_ofNat :
    ∀ code < 128, ∀ n ∈ hexValue? (Char.ofNat code), IsHexDigit (Char.ofNat code) n := by
  decide

/-- A character has a value exactly if it is a digit, letters in either case. -/
theorem hexValue?_eq_some_iff {c : Char} {n : Nat} : hexValue? c = some n ↔ IsHexDigit c n := by
  constructor
  · intro h
    have hdigit := isHexDigit_ofNat c.toNat (toNat_lt_of_hexValue? h) n
    rw [Char.ofNat_toNat] at hdigit
    exact hdigit h
  · rintro ⟨hn, rfl | rfl⟩ <;> interval_cases n <;> rfl

/-- The character is one of ASCII that is written with ink. -/
def IsVisible (c : Char) : Prop := 32 < c.toNat ∧ c.toNat < 127

instance (c : Char) : Decidable (IsVisible c) := inferInstanceAs (Decidable (_ ∧ _))

theorem IsHexDigit.isVisible {c : Char} {n : Nat} (h : IsHexDigit c n) : IsVisible c := by
  obtain ⟨hn, rfl | rfl⟩ := h <;> interval_cases n <;> decide

/-- A plus sign is no digit. -/
theorem IsHexDigit.ne_plus {c : Char} {n : Nat} (h : IsHexDigit c n) : c ≠ '+' := by
  rintro rfl
  have hvalue := hexValue?_eq_some_iff.mpr h
  cases hvalue

end Text

namespace Color

open Text

/-- A channel of one digit is 17 times the digit. -/
def OfDigit (digit : Char) (channel : UInt8) : Prop :=
  ∃ n, IsHexDigit digit n ∧ channel.toNat = 17 * n

/-- A channel of two digits is the number that they write. -/
def OfPair (high low : Char) (channel : UInt8) : Prop :=
  ∃ m n, IsHexDigit high m ∧ IsHexDigit low n ∧ channel.toNat = 16 * m + n

/-- A channel of one digit with a plus sign before it. -/
def OfSigned (high low : Char) (channel : UInt8) : Prop :=
  high = '+' ∧ ∃ n, IsHexDigit low n ∧ channel.toNat = n

/-- The text writes the colour after a hash sign, by one digit or by two characters a channel. What
two characters may stand for a channel is given. -/
inductive Written (pair : Char → Char → UInt8 → Prop) (s : String) (c : Color) : Prop where
  | short {r g b : Char} (text : s.toList = ['#', r, g, b]) (red : OfDigit r c.red)
      (green : OfDigit g c.green) (blue : OfDigit b c.blue)
  | long {r₁ r₀ g₁ g₀ b₁ b₀ : Char} (text : s.toList = ['#', r₁, r₀, g₁, g₀, b₁, b₀])
      (red : pair r₁ r₀ c.red) (green : pair g₁ g₀ c.green) (blue : pair b₁ b₀ c.blue)

theorem ofNat_eq_iff {n : Nat} {channel : UInt8} (h : n < 256) :
    UInt8.ofNat n = channel ↔ channel.toNat = n := by
  rw [← UInt8.toNat_inj, UInt8.toNat_ofNat_of_lt' h, eq_comm]

/-- A single digit stands for itself written twice. -/
theorem channelOfDigit?_eq_some_iff {digit : Char} {channel : UInt8} :
    channelOfDigit? digit = some channel ↔ OfDigit digit channel := by
  unfold channelOfDigit? OfDigit
  rw [Option.map_eq_some_iff]
  refine exists_congr fun n => ?_
  rw [hexValue?_eq_some_iff]
  refine and_congr_right fun hdigit => ofNat_eq_iff ?_
  have hn := hdigit.1
  omega

/-- A pair is two digits, or a plus sign and a digit. -/
theorem channelOfPair?_eq_some_iff {high low : Char} {channel : UInt8} :
    channelOfPair? high low = some channel ↔
      OfPair high low channel ∨ OfSigned high low channel := by
  by_cases hsign : high = '+'
  · have hpair : ¬ OfPair high low channel := fun ⟨_, _, hhigh, _⟩ => hhigh.ne_plus hsign
    rw [or_iff_right hpair]
    simp only [channelOfPair?, hsign, if_true, OfSigned, true_and, Option.bind_eq_bind,
      Option.bind_some, Option.bind_eq_some_iff, Option.pure_def, Option.some.injEq,
      hexValue?_eq_some_iff]
    refine exists_congr fun n => and_congr_right fun hlow => ?_
    have hn := hlow.1
    rw [ofNat_eq_iff (by omega)]
    omega
  · have hsigned : ¬ OfSigned high low channel := fun h => hsign h.1
    rw [or_iff_left hsigned]
    simp only [channelOfPair?, hsign, if_false, OfPair, Option.bind_eq_bind,
      Option.bind_eq_some_iff, Option.pure_def, Option.some.injEq, hexValue?_eq_some_iff,
      ← exists_and_left]
    refine exists_congr fun m => exists_congr fun n => ?_
    refine and_congr_right fun hhigh => and_congr_right fun hlow => ofNat_eq_iff ?_
    have hm := hhigh.1
    have hn := hlow.1
    omega

theorem ofHexChars?_three {r g b : Char} {c : Color} :
    ofHexChars? [r, g, b] = some c ↔
      OfDigit r c.red ∧ OfDigit g c.green ∧ OfDigit b c.blue := by
  simp only [ofHexChars?, Option.bind_eq_bind, Option.bind_eq_some_iff, Option.pure_def,
    Option.some.injEq, channelOfDigit?_eq_some_iff]
  constructor
  · rintro ⟨red, hred, green, hgreen, blue, hblue, rfl⟩
    exact ⟨hred, hgreen, hblue⟩
  · rintro ⟨hred, hgreen, hblue⟩
    exact ⟨_, hred, _, hgreen, _, hblue, rfl⟩

theorem ofHexChars?_six {r₁ r₀ g₁ g₀ b₁ b₀ : Char} {c : Color} :
    ofHexChars? [r₁, r₀, g₁, g₀, b₁, b₀] = some c ↔
      (OfPair r₁ r₀ c.red ∨ OfSigned r₁ r₀ c.red) ∧
      (OfPair g₁ g₀ c.green ∨ OfSigned g₁ g₀ c.green) ∧
      (OfPair b₁ b₀ c.blue ∨ OfSigned b₁ b₀ c.blue) := by
  simp only [ofHexChars?, Option.bind_eq_bind, Option.bind_eq_some_iff, Option.pure_def,
    Option.some.injEq, channelOfPair?_eq_some_iff]
  constructor
  · rintro ⟨red, hred, green, hgreen, blue, hblue, rfl⟩
    exact ⟨hred, hgreen, hblue⟩
  · rintro ⟨hred, hgreen, hblue⟩
    exact ⟨_, hred, _, hgreen, _, hblue, rfl⟩

/-- The texts that are read as a colour, with a plus sign for a leading digit. -/
theorem ofHex?_eq_some_iff {s : String} {c : Color} : ofHex? s = some c ↔
    Written (fun high low channel => OfPair high low channel ∨ OfSigned high low channel) s c := by
  constructor
  · intro h
    unfold ofHex? at h
    split at h
    · next digits htext =>
        unfold ofHexChars? at h
        split at h
        · obtain ⟨hred, hgreen, hblue⟩ := ofHexChars?_three.mp h
          exact .short htext hred hgreen hblue
        · obtain ⟨hred, hgreen, hblue⟩ := ofHexChars?_six.mp h
          exact .long htext hred hgreen hblue
        · cases h
    · cases h
  · unfold ofHex?
    rintro (⟨htext, hred, hgreen, hblue⟩ | ⟨htext, hred, hgreen, hblue⟩) <;> rw [htext]
    · exact ofHexChars?_three.mpr ⟨hred, hgreen, hblue⟩
    · exact ofHexChars?_six.mpr ⟨hred, hgreen, hblue⟩

theorem head?_of_ofHex? {s : String} {c : Color} (h : ofHex? s = some c) :
    s.toList.head? = some '#' := by
  rcases ofHex?_eq_some_iff.mp h with ⟨htext, -⟩ | ⟨htext, -⟩ <;> rw [htext] <;> rfl

theorem isVisible_of_ofHex? {s : String} {c : Color} (h : ofHex? s = some c) :
    ∀ character ∈ s.toList, IsVisible character := by
  have hdigit {digit : Char} {channel : UInt8} (h : OfDigit digit channel) : IsVisible digit := by
    obtain ⟨n, hn, -⟩ := h
    exact hn.isVisible
  have hpair {high low : Char} {channel : UInt8}
      (h : OfPair high low channel ∨ OfSigned high low channel) :
      IsVisible high ∧ IsVisible low := by
    rcases h with ⟨m, n, hm, hn, -⟩ | ⟨rfl, n, hn, -⟩
    · exact ⟨hm.isVisible, hn.isVisible⟩
    · exact ⟨by decide, hn.isVisible⟩
  have hhash : IsVisible '#' := by decide
  rcases ofHex?_eq_some_iff.mp h with ⟨htext, hred, hgreen, hblue⟩ | ⟨htext, hred, hgreen, hblue⟩
  · simp [htext, hhash, hdigit hred, hdigit hgreen, hdigit hblue]
  · simp [htext, hhash, hpair hred, hpair hgreen, hpair hblue]

/-- Without plus signs these are the texts of digits alone. -/
theorem written_ofPair_iff {s : String} {c : Color} :
    Written OfPair s c ↔ ofHex? s = some c ∧ '+' ∉ s.toList := by
  have hdigit {digit : Char} {channel : UInt8} (h : OfDigit digit channel) : digit ≠ '+' := by
    obtain ⟨n, hn, -⟩ := h
    exact hn.ne_plus
  have hpair {high low : Char} {channel : UInt8} (h : OfPair high low channel) :
      high ≠ '+' ∧ low ≠ '+' := by
    obtain ⟨m, n, hm, hn, -⟩ := h
    exact ⟨hm.ne_plus, hn.ne_plus⟩
  rw [ofHex?_eq_some_iff]
  constructor
  · rintro (⟨htext, hred, hgreen, hblue⟩ | ⟨htext, hred, hgreen, hblue⟩)
    · refine ⟨.short htext hred hgreen hblue, ?_⟩
      simp [htext, (hdigit hred).symm, (hdigit hgreen).symm, (hdigit hblue).symm]
    · refine ⟨.long htext (.inl hred) (.inl hgreen) (.inl hblue), ?_⟩
      simp [htext, (hpair hred).1.symm, (hpair hred).2.symm, (hpair hgreen).1.symm,
        (hpair hgreen).2.symm, (hpair hblue).1.symm, (hpair hblue).2.symm]
  · rintro ⟨⟨htext, hred, hgreen, hblue⟩ | ⟨htext, hred, hgreen, hblue⟩, hplus⟩
    · exact .short htext hred hgreen hblue
    · have hunsigned {high low : Char} {channel : UInt8} (hhigh : high ∈ s.toList)
          (h : OfPair high low channel ∨ OfSigned high low channel) : OfPair high low channel :=
        h.resolve_right fun hsigned => hplus (hsigned.1 ▸ hhigh)
      refine .long htext (hunsigned ?_ hred) (hunsigned ?_ hgreen) (hunsigned ?_ hblue) <;>
        simp [htext]

/-- Exactly what is read as a colour: a hash sign with three digits, each of them 17 times in its
channel, or with three pairs of characters, each of them two digits or a plus sign and a digit. The
texts of three or six digits are those among them that have no plus sign. -/
theorem hex_texts_recognised (s : String) (c : Color) :
    (ofHex? s = some c ↔
      Written (fun high low channel => OfPair high low channel ∨ OfSigned high low channel) s c) ∧
      (Written OfPair s c ↔ ofHex? s = some c ∧ '+' ∉ s.toList) :=
  ⟨ofHex?_eq_some_iff, written_ofPair_iff⟩

/-- A text with plus signs is read as a colour, though it has not six digits. -/
theorem hex_text_with_plus_signs :
    ofHex? "#+f+f+f" = some ⟨15, 15, 15⟩ ∧ ¬ ∃ c, Written OfPair "#+f+f+f" c := by
  refine ⟨by decide, ?_⟩
  rintro ⟨c, hwritten⟩
  exact (written_ofPair_iff.mp hwritten).2 (by decide)

end Color

end Stylesheet
