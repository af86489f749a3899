import Stylesheet.Definition
import Stylesheet.Proofs.HexColors
import Stylesheet.Proofs.NearestFloat

/-!
What a value given as text is read as. Numbers are numerals as one writes them: digits with at most
one point, and a minus sign if any. A dimension is a numeral with a unit right behind it. The texts
of colours, truth values, numbers and dimensions have nothing in common, each is read as what it
writes, and every other text is a keyword.
-/

namespace Stylesheet

/-- A number as it is written: digits, at most one point among or around them, at least one digit,
and perhaps a minus sign before them. -/
structure Numeral where
  negative : Bool
  whole : List Char
  /-- The digits behind the point, if there is one. -/
  fraction : Option (List Char)
  isDigit : ∀ c ∈ whole ++ fraction.getD [], c.isDigit
  some_digit : whole ++ fraction.getD [] ≠ []

namespace Numeral

def digits (n : Numeral) : List Char := n.whole ++ n.fraction.getD []

/-- How many digits stand behind the point. -/
def places (n : Numeral) : Nat := (n.fraction.getD []).length

/-- The characters without the sign. -/
def unsigned (n : Numeral) : List Char :=
  n.whole ++ (n.fraction.map ('.' :: ·)).getD []

def chars (n : Numeral) : List Char := if n.negative then '-' :: n.unsigned else n.unsigned

def text (n : Numeral) : String := String.ofList n.chars

/-- The value of the numeral, its sign apart. -/
def magnitude (n : Numeral) : ℚ := Nat.ofDigitChars 10 n.digits 0 / 10 ^ n.places

/-- The float is the one nearest to the value of the numeral. -/
def ReadsAs (n : Numeral) (x : Float) : Prop := Number.Rounds n.negative n.magnitude x

def toDecimal (n : Numeral) : Decimal := ⟨n.negative, Nat.ofDigitChars 10 n.digits 0, -n.places⟩

theorem magnitude_toDecimal (n : Numeral) : n.toDecimal.magnitude = n.magnitude := by
  rw [magnitude, Decimal.magnitude, toDecimal, zpow_neg, zpow_natCast, div_eq_mul_inv]

/-- A numeral reads as the float nearest to its value, and as no other. -/
theorem readsAs_iff {n : Numeral} {x : Float} : n.ReadsAs x ↔ x = n.toDecimal.toFloat := by
  have hread : n.ReadsAs n.toDecimal.toFloat := by
    rw [ReadsAs, ← magnitude_toDecimal]
    exact n.toDecimal.rounds_toFloat
  constructor
  · intro h
    exact h.unique hread
  · rintro rfl
    exact hread

theorem mem_unsigned {n : Numeral} {c : Char} :
    c ∈ n.unsigned ↔ c ∈ n.digits ∨ c = '.' ∧ n.fraction.isSome := by
  cases hfraction : n.fraction with
  | none => simp [unsigned, digits, hfraction]
  | some fraction =>
      simp [unsigned, digits, hfraction]
      tauto

/-- A numeral has a sign, digits and a point. -/
theorem mem_chars {n : Numeral} {c : Char} :
    c ∈ n.chars ↔ c = '-' ∧ n.negative ∨ c ∈ n.unsigned := by
  cases hnegative : n.negative <;> simp [chars, hnegative]

/-- Every numeral has a digit. -/
theorem exists_isDigit (n : Numeral) : ∃ c ∈ n.unsigned, c.isDigit := by
  obtain ⟨c, hc⟩ := List.exists_mem_of_ne_nil _ n.some_digit
  exact ⟨c, mem_unsigned.mpr (.inl hc), n.isDigit c hc⟩

theorem isNumeral_of_mem {n : Numeral} {c : Char} (h : c ∈ n.unsigned) :
    Definition.isNumeral c := by
  rcases mem_unsigned.mp h with hdigit | ⟨rfl, -⟩
  · simp [Definition.isNumeral, n.isDigit c hdigit]
  · rfl

theorem head?_unsigned_append (n : Numeral) (rest : List Char) :
    ∃ c, (n.unsigned ++ rest).head? = some c ∧ Definition.isNumeral c := by
  obtain ⟨digit, hdigit, -⟩ := n.exists_isDigit
  obtain ⟨c, more, hunsigned⟩ := List.exists_cons_of_ne_nil (List.ne_nil_of_mem hdigit)
  refine ⟨c, by rw [hunsigned]; rfl, isNumeral_of_mem (n := n) ?_⟩
  rw [hunsigned]
  exact List.mem_cons_self

theorem toList_text_append (n : Numeral) (rest : String) :
    (n.text ++ rest).toList = n.chars ++ rest.toList := by
  rw [String.toList_append, text, String.toList_ofList]

end Numeral

namespace Decimal

/-- The reader of positional numbers takes every numeral. -/
theorem ofPositional?_unsigned (n : Numeral) :
    ofPositional? n.negative n.unsigned = some n.toDecimal := by
  obtain ⟨negative, whole, fraction, hdigit, hsome⟩ := n
  have hwhole : ∀ c ∈ whole, c.isDigit := fun c hc => hdigit c (List.mem_append_left _ hc)
  unfold ofPositional?
  simp only [Numeral.unsigned, List.takeWhile_append_of_pos hwhole,
    List.dropWhile_append_of_pos hwhole]
  cases fraction with
  | none => simpa [Numeral.toDecimal, Numeral.digits, Numeral.places] using hsome
  | some fraction =>
      have hpoint : Char.isDigit '.' = false := rfl
      have hfraction : fraction.all Char.isDigit := by
        rw [List.all_eq_true]
        exact fun c hc => hdigit c (List.mem_append_right _ hc)
      have hdigits : (!(whole.isEmpty && fraction.isEmpty)) = true := by
        simpa [imp_iff_not_or] using hsome
      simp [hpoint, hfraction, hdigits, Numeral.toDecimal, Numeral.digits, Numeral.places]

/-- It takes nothing else. -/
theorem exists_numeral {negative : Bool} {cs : List Char} {d : Decimal}
    (h : ofPositional? negative cs = some d) :
    ∃ n : Numeral, n.negative = negative ∧ n.unsigned = cs ∧ n.toDecimal = d := by
  have hsplit : cs.takeWhile Char.isDigit ++ cs.dropWhile Char.isDigit = cs :=
    List.takeWhile_append_dropWhile
  have hwhole : ∀ c ∈ cs.takeWhile Char.isDigit, c.isDigit := fun c hc =>
    List.mem_takeWhile_imp hc
  unfold ofPositional? at h
  dsimp only at h
  generalize cs.takeWhile Char.isDigit = whole at *
  split at h
  · next hrest =>
      split at h
      · cases h
      · next hsome =>
          cases h
          rw [hrest] at hsplit
          refine ⟨⟨negative, whole, none, ?_, by simpa using hsome⟩, rfl, hsplit, ?_⟩
          · simpa using hwhole
          · simp [Numeral.toDecimal, Numeral.digits, Numeral.places]
  · next fraction hrest =>
      split at h
      · next hsome =>
          cases h
          rw [Bool.and_eq_true, List.all_eq_true] at hsome
          rw [hrest] at hsplit
          refine ⟨⟨negative, whole, some fraction, ?_, ?_⟩, rfl, hsplit, rfl⟩
          · exact fun c hc => (List.mem_append.mp hc).elim (hwhole c) (hsome.1 c)
          · simpa [imp_iff_not_or] using hsome.2
      · cases h
  · cases h

end Decimal

namespace Definition

/-- The unit of a dimension: a percent sign, or letters. -/
def IsUnit (unit : String) : Prop :=
  unit = "%" ∨ unit ≠ "" ∧ ∀ c ∈ unit.toList, c.isAlpha

/-- The check for a unit in a text is exact. -/
theorem isUnit_toList {unit : String} (hsome : unit ≠ "") :
    isUnit unit.toList = true ↔ IsUnit unit := by
  have hpercent : unit.toList = ['%'] ↔ unit = "%" := by
    rw [← String.toList_inj]
    rfl
  simp [isUnit, IsUnit, hsome, hpercent]

theorem not_isNumeral_of_isAlpha {c : Char} (h : c.isAlpha) : isNumeral c = false := by
  have hdigit : c.isDigit = false := by
    simp only [Char.isAlpha, Char.isUpper, Char.isLower, Char.isDigit] at h ⊢
    grind
  have hpoint : c ≠ '.' := by
    rintro rfl
    cases h
  simp [isNumeral, hdigit, hpoint]

/-- A unit begins with a character that ends a number. -/
theorem not_isNumeral_of_isUnit {unit : String} (h : IsUnit unit) :
    ∀ c ∈ unit.toList.head?, isNumeral c = false := by
  rcases h with rfl | ⟨-, hletters⟩
  · rintro c ⟨⟩
    rfl
  · intro c hc
    exact not_isNumeral_of_isAlpha (hletters c (List.mem_of_mem_head? hc))

/-- The parts put together are the text. -/
theorem eq_append_of_splitNumber {cs digits unit : List Char} {negative : Bool}
    (h : splitNumber cs = (negative, digits, unit)) :
    cs = (if negative then '-' :: digits else digits) ++ unit := by
  simp only [splitNumber, Prod.mk.injEq] at h
  obtain ⟨rfl, rfl, rfl⟩ := h
  cases cs with
  | nil => rfl
  | cons c rest => by_cases hsign : c = '-' <;> simp [hsign]

/-- A numeral is taken as far as its digits and points go. -/
theorem splitNumber_chars (n : Numeral) {unit : List Char}
    (h : ∀ c ∈ unit.head?, isNumeral c = false) :
    splitNumber (n.chars ++ unit) = (n.negative, n.unsigned, unit) := by
  have hdigits : ∀ c ∈ n.unsigned, isNumeral c := fun c hc => Numeral.isNumeral_of_mem hc
  have htake : (n.unsigned ++ unit).takeWhile isNumeral = n.unsigned := by
    rw [List.takeWhile_append_of_pos hdigits]
    cases unit <;> simp_all
  have hdrop : (n.unsigned ++ unit).dropWhile isNumeral = unit := by
    rw [List.dropWhile_append_of_pos hdigits]
    cases unit <;> simp_all
  have hsign : ((n.chars ++ unit).head? == some '-') = n.negative := by
    unfold Numeral.chars
    cases n.negative with
    | true => rfl
    | false =>
        obtain ⟨c, hhead, hc⟩ := n.head?_unsigned_append unit
        have hminus : c ≠ '-' := by
          rintro rfl
          cases hc
        simp [hhead, hminus]
  have hunsigned : (if n.negative then (n.chars ++ unit).tail else n.chars ++ unit) =
      n.unsigned ++ unit := by
    unfold Numeral.chars
    split <;> rfl
  simp only [splitNumber, hsign, hunsigned, htake, hdrop]

/-- Numerals and dimensions are read as such. -/
theorem numeric?_chars (n : Numeral) : numeric? n.chars = some (.number n.toDecimal.toFloat) := by
  have hend : ∀ c ∈ ([] : List Char).head?, isNumeral c = false := by simp
  have hsplit := splitNumber_chars n hend
  rw [List.append_nil] at hsplit
  simp [numeric?, hsplit, Decimal.ofPositional?_unsigned]

/-- A numeral with a unit is a dimension. -/
theorem numeric?_chars_append (n : Numeral) {unit : String} (h : IsUnit unit) :
    numeric? (n.chars ++ unit.toList) = some (.dimension n.toDecimal.toFloat unit) := by
  have hsplit := splitNumber_chars n (not_isNumeral_of_isUnit h)
  have hsome : unit ≠ "" := by
    rcases h with rfl | ⟨hsome, -⟩
    · decide
    · exact hsome
  simp [numeric?, hsplit, Decimal.ofPositional?_unsigned, (isUnit_toList hsome).mpr h, hsome]

/-- Nothing else is read as a number or a dimension. -/
theorem eq_of_numeric? {raw : String} {v : Value} (h : numeric? raw.toList = some v) :
    ∃ n : Numeral, (raw = n.text ∧ v = .number n.toDecimal.toFloat) ∨
      ∃ unit, IsUnit unit ∧ raw = n.text ++ unit ∧ v = .dimension n.toDecimal.toFloat unit := by
  unfold numeric? at h
  rcases hsplit : splitNumber raw.toList with ⟨negative, digits, unit⟩
  have htext := eq_append_of_splitNumber hsplit
  rw [hsplit] at h
  dsimp only at h
  split at h
  · cases h
  · next d hd =>
      obtain ⟨n, rfl, rfl, rfl⟩ := Decimal.exists_numeral hd
      refine ⟨n, ?_⟩
      have hraw : raw = n.text ++ String.ofList unit := by
        rw [← String.ofList_toList (s := raw), htext, String.ofList_append]
        rfl
      split at h
      · next hempty =>
          cases h
          rw [List.isEmpty_iff.mp hempty] at hraw
          exact .inl ⟨by simpa using hraw, rfl⟩
      · next hsome =>
          split at h
          · next hunit =>
              cases h
              refine .inr ⟨_, ?_, hraw, rfl⟩
              rw [← isUnit_toList (by simpa using hsome), String.toList_ofList]
              exact hunit
          · cases h

theorem head?_chars_append (n : Numeral) (rest : List Char) :
    ∃ c, (n.chars ++ rest).head? = some c ∧ (c = '-' ∨ isNumeral c) := by
  unfold Numeral.chars
  split
  · exact ⟨'-', rfl, .inl rfl⟩
  · obtain ⟨c, hhead, hc⟩ := n.head?_unsigned_append rest
    exact ⟨c, hhead, .inr hc⟩

/-- No number is a colour. -/
theorem ofHex?_numeral_append (n : Numeral) (unit : String) :
    Color.ofHex? (n.text ++ unit) = none := by
  obtain ⟨c, hhead, hc⟩ := head?_chars_append n unit.toList
  unfold Color.ofHex?
  split
  · next digits htext =>
      rw [Numeral.toList_text_append] at htext
      rw [htext] at hhead
      cases hhead
      rcases hc with hc | hc <;> cases hc
  · rfl

/-- No number is a truth value. -/
theorem numeral_append_ne (n : Numeral) (unit : String) (b : Bool) :
    n.text ++ unit ≠ if b then "true" else "false" := by
  intro htext
  obtain ⟨c, hhead, hc⟩ := head?_chars_append n unit.toList
  have hlist : n.chars ++ unit.toList = (if b then "true" else "false").toList := by
    rw [← htext, Numeral.toList_text_append]
  rw [hlist] at hhead
  cases b <;> cases hhead <;> rcases hc with hc | hc <;> cases hc

theorem value_of_numeric? {n : Numeral} {unit : String} {v : Value}
    (h : numeric? (n.chars ++ unit.toList) = some v) : value (n.text ++ unit) = v := by
  have htrue : n.text ++ unit ≠ "true" := numeral_append_ne n unit true
  have hfalse : n.text ++ unit ≠ "false" := numeral_append_ne n unit false
  unfold value
  rw [ofHex?_numeral_append, Numeral.toList_text_append, h]
  simp [htrue, hfalse]

theorem value_numeral (n : Numeral) : value n.text = .number n.toDecimal.toFloat := by
  have hread : numeric? (n.chars ++ ("" : String).toList) = some (.number n.toDecimal.toFloat) := by
    simpa using numeric?_chars n
  simpa using value_of_numeric? hread

/-- A number with a unit is given as a dimension. -/
theorem value_numeral_append (n : Numeral) {unit : String} (h : IsUnit unit) :
    value (n.text ++ unit) = .dimension n.toDecimal.toFloat unit :=
  value_of_numeric? (numeric?_chars_append n h)

/-- Texts that the reader of hexadecimal colours takes. -/
def IsColor (raw : String) : Prop := ∃ c, Color.ofHex? raw = some c

def IsTruth (raw : String) : Prop := ∃ b : Bool, raw = if b then "true" else "false"

def IsNumber (raw : String) : Prop := ∃ n : Numeral, raw = n.text

def IsDimension (raw : String) : Prop :=
  ∃ (n : Numeral) (unit : String), IsUnit unit ∧ raw = n.text ++ unit

/-- What a text writes. A keyword is what writes nothing else. -/
inductive Writes (raw : String) : Value → Prop where
  | color {c : Color} (h : Color.ofHex? raw = some c) : Writes raw (.color c)
  | bool {b : Bool} (h : raw = if b then "true" else "false") : Writes raw (.bool b)
  | number {x : Float} (n : Numeral) (h : raw = n.text) (hx : n.ReadsAs x) :
      Writes raw (.number x)
  | dimension {x : Float} {unit : String} (n : Numeral) (hunit : IsUnit unit)
      (h : raw = n.text ++ unit) (hx : n.ReadsAs x) : Writes raw (.dimension x unit)
  | ident (hcolor : ¬ IsColor raw) (htruth : ¬ IsTruth raw) (hnumber : ¬ IsNumber raw)
      (hdimension : ¬ IsDimension raw) : Writes raw (.ident raw)

/-- Whatever a text is read as, it writes. -/
theorem writes_value (raw : String) : Writes raw (value raw) := by
  unfold value
  split
  · next c hc => exact .color hc
  next hcolor =>
  split
  · next htrue => exact .bool htrue
  next htrue =>
  split
  · next hfalse => exact .bool hfalse
  next hfalse =>
  cases hnumeric : numeric? raw.toList with
  | some v =>
      obtain ⟨n, ⟨hraw, rfl⟩ | ⟨unit, hunit, hraw, rfl⟩⟩ := eq_of_numeric? hnumeric
      · exact .number n hraw (Numeral.readsAs_iff.mpr rfl)
      · exact .dimension n hunit hraw (Numeral.readsAs_iff.mpr rfl)
  | none =>
      refine .ident ?_ ?_ ?_ ?_
      · rintro ⟨c, hc⟩
        rw [hcolor] at hc
        cases hc
      · rintro ⟨b, hb⟩
        cases b
        · exact hfalse hb
        · exact htrue hb
      · rintro ⟨n, rfl⟩
        rw [Numeral.text, String.toList_ofList, numeric?_chars] at hnumeric
        cases hnumeric
      · rintro ⟨n, unit, hunit, rfl⟩
        rw [Numeral.toList_text_append, numeric?_chars_append n hunit] at hnumeric
        cases hnumeric

/-- A text is read as the one value that it writes. -/
theorem value_eq_iff {raw : String} {v : Value} : value raw = v ↔ Writes raw v := by
  constructor
  · rintro rfl
    exact writes_value raw
  · intro h
    cases h with
    | color hc => rw [value, hc]
    | @bool b hb =>
        rw [hb]
        cases b <;> rfl
    | number n hraw hx => rw [hraw, value_numeral, Numeral.readsAs_iff.mp hx]
    | dimension n hunit hraw hx =>
        rw [hraw, value_numeral_append n hunit, Numeral.readsAs_iff.mp hx]
    | ident hcolor htruth hnumber hdimension =>
        have hwrites := writes_value raw
        generalize value raw = v at hwrites ⊢
        cases hwrites with
        | color hc => exact absurd ⟨_, hc⟩ hcolor
        | bool hb => exact absurd ⟨_, hb⟩ htruth
        | number n hraw hx => exact absurd ⟨n, hraw⟩ hnumber
        | dimension n hunit hraw hx => exact absurd ⟨n, _, hunit, hraw⟩ hdimension
        | ident => rfl

/-- Text that is in no other class is a keyword. -/
theorem value_eq_ident {raw : String} (hcolor : ¬ IsColor raw) (htruth : ¬ IsTruth raw)
    (hnumeric : ∀ (n : Numeral) (unit : String), unit = "" ∨ IsUnit unit → raw ≠ n.text ++ unit) :
    value raw = .ident raw := by
  refine value_eq_iff.mpr (.ident hcolor htruth ?_ ?_)
  · rintro ⟨n, hraw⟩
    exact hnumeric n "" (.inl rfl) (by simpa using hraw)
  · rintro ⟨n, unit, hunit, hraw⟩
    exact hnumeric n unit (.inr hunit) hraw

/-- Texts that are numbers elsewhere: names of infinity and of what is no number, numbers with a
plus sign or an exponent, and digits of other scripts. -/
inductive Foreign (raw : String) : Prop where
  | name (h : ∀ c ∈ raw.toList, c.isDigit = false) (hhash : raw.toList.head? ≠ some '#')
      (htruth : ¬ IsTruth raw)
  | plus (h : raw.toList.head? = some '+')
  | exponent (n : Numeral) {e : Char} {power : List Char}
      (h : raw = n.text ++ String.ofList (e :: power)) (he : e.isAlpha)
      (hpower : ∃ c ∈ power, c.isAlpha = false)
  | script (h : ∃ c ∈ raw.toList, 128 ≤ c.toNat)

theorem isVisible_of_isNumeral {c : Char} (h : isNumeral c) : Text.IsVisible c := by
  rw [isNumeral, Bool.or_eq_true, beq_iff_eq] at h
  rcases h with hdigit | rfl
  · obtain ⟨hlow, hhigh⟩ := Char.isDigit_iff_toNat.mp hdigit
    exact ⟨hlow.trans_lt' (by decide), hhigh.trans_lt (by decide)⟩
  · decide

theorem isVisible_of_isAlpha {c : Char} (h : c.isAlpha) : Text.IsVisible c := by
  simp only [Char.isAlpha, Char.isUpper, Char.isLower, Bool.or_eq_true, Bool.and_eq_true,
    decide_eq_true_eq, ge_iff_le, UInt32.le_iff_toNat_le] at h
  rcases h with ⟨hlow, hhigh⟩ | ⟨hlow, hhigh⟩
  · exact ⟨hlow.trans_lt' (by decide), hhigh.trans_lt (by decide)⟩
  · exact ⟨hlow.trans_lt' (by decide), hhigh.trans_lt (by decide)⟩

theorem isVisible_of_mem_chars {n : Numeral} {c : Char} (h : c ∈ n.chars) : Text.IsVisible c := by
  rcases Numeral.mem_chars.mp h with ⟨rfl, -⟩ | hc
  · decide
  · exact isVisible_of_isNumeral (Numeral.isNumeral_of_mem hc)

theorem isVisible_of_isUnit {unit : String} (h : unit = "" ∨ IsUnit unit) :
    ∀ c ∈ unit.toList, Text.IsVisible c := by
  rcases h with rfl | rfl | ⟨-, hletters⟩
  · simp
  · have hpercent : Text.IsVisible '%' := by decide
    simpa using hpercent
  · exact fun c hc => isVisible_of_isAlpha (hletters c hc)

/-- Numbers and dimensions are written with visible characters only. -/
theorem isVisible_of_numeric {n : Numeral} {unit : String} (h : unit = "" ∨ IsUnit unit) :
    ∀ c ∈ (n.text ++ unit).toList, Text.IsVisible c := by
  intro c hc
  rw [Numeral.toList_text_append, List.mem_append] at hc
  exact hc.elim isVisible_of_mem_chars (isVisible_of_isUnit h c)

theorem isVisible_of_bool (b : Bool) :
    ∀ c ∈ (if b then "true" else "false").toList, Text.IsVisible c := by
  cases b <;> simp [Text.IsVisible]

/-- Behind a numeral, letters with something else after them are no unit. -/
theorem not_isUnit_of_power {n m : Numeral} {unit : String} {e : Char} {power : List Char}
    (hunit : unit = "" ∨ IsUnit unit) (he : e.isAlpha) (hpower : ∃ c ∈ power, c.isAlpha = false) :
    m.text ++ String.ofList (e :: power) ≠ n.text ++ unit := by
  intro hraw
  have hhead : ∀ c ∈ unit.toList.head?, isNumeral c = false := by
    rcases hunit with rfl | hunit
    · simp
    · exact not_isNumeral_of_isUnit hunit
  have hpart := splitNumber_chars n hhead
  have hpart' := splitNumber_chars m
    (show ∀ c ∈ (e :: power).head?, isNumeral c = false by simpa using not_isNumeral_of_isAlpha he)
  have hlist := congrArg String.toList hraw
  rw [Numeral.toList_text_append, Numeral.toList_text_append, String.toList_ofList] at hlist
  rw [← hlist, hpart', Prod.mk.injEq, Prod.mk.injEq] at hpart
  obtain ⟨c, hc, hother⟩ := hpower
  rcases hunit with rfl | rfl | ⟨-, hletters⟩
  · cases hpart.2.2
  · cases hpart.2.2
    cases hc
  · rw [← hpart.2.2] at hletters
    rw [hletters c (List.mem_cons_of_mem _ hc)] at hother
    cases hother

/-- None of these is read as anything but a keyword. -/
theorem Foreign.value_eq {raw : String} (h : Foreign raw) : value raw = .ident raw := by
  cases h with
  | name hdigit hhash htruth =>
      refine value_eq_ident (fun ⟨c, hc⟩ => hhash (Color.head?_of_ofHex? hc)) htruth ?_
      rintro n unit - rfl
      obtain ⟨c, hc, hisDigit⟩ := n.exists_isDigit
      rw [Numeral.toList_text_append] at hdigit
      rw [hdigit c (List.mem_append_left _ (Numeral.mem_chars.mpr (.inr hc)))] at hisDigit
      cases hisDigit
  | plus hplus =>
      refine value_eq_ident ?_ ?_ ?_
      · rintro ⟨c, hc⟩
        rw [Color.head?_of_ofHex? hc] at hplus
        cases hplus
      · rintro ⟨b, rfl⟩
        cases b <;> cases hplus
      · rintro n unit - rfl
        obtain ⟨c, hhead, hc⟩ := head?_chars_append n unit.toList
        rw [Numeral.toList_text_append, hhead] at hplus
        cases hplus
        rcases hc with hc | hc <;> cases hc
  | exponent m hraw he hpower =>
      subst hraw
      refine value_eq_ident ?_ ?_ ?_
      · rintro ⟨c, hc⟩
        rw [ofHex?_numeral_append] at hc
        cases hc
      · rintro ⟨b, hb⟩
        exact numeral_append_ne m _ b hb
      · exact fun n unit hunit => not_isUnit_of_power hunit he hpower
  | script hwide =>
      obtain ⟨c, hc, hwide⟩ := hwide
      have hhidden : ¬ Text.IsVisible c := fun h => absurd h.2 (by omega)
      refine value_eq_ident ?_ ?_ ?_
      · exact fun ⟨_, hcolor⟩ => hhidden (Color.isVisible_of_ofHex? hcolor c hc)
      · rintro ⟨b, rfl⟩
        exact hhidden (isVisible_of_bool b c hc)
      · rintro n unit hunit rfl
        exact hhidden (isVisible_of_numeric hunit c hc)

/-- A text is at most one of these. -/
theorem classes_exclusive (raw : String) :
    [IsColor, IsTruth, IsNumber, IsDimension].Pairwise fun P Q => ¬ (P raw ∧ Q raw) := by
  -- Each class has its own kind of value, and a text is read as one value.
  have hcolor (h : IsColor raw) : ∃ c, value raw = .color c := by
    obtain ⟨c, hc⟩ := h
    exact ⟨c, value_eq_iff.mpr (.color hc)⟩
  have htruth (h : IsTruth raw) : ∃ b, value raw = .bool b := by
    obtain ⟨b, hb⟩ := h
    exact ⟨b, value_eq_iff.mpr (.bool hb)⟩
  have hnumber (h : IsNumber raw) : ∃ x, value raw = .number x := by
    obtain ⟨n, rfl⟩ := h
    exact ⟨_, value_numeral n⟩
  have hdimension (h : IsDimension raw) : ∃ x unit, value raw = .dimension x unit := by
    obtain ⟨n, unit, hunit, rfl⟩ := h
    exact ⟨_, _, value_numeral_append n hunit⟩
  simp only [List.pairwise_cons, List.forall_mem_cons, List.not_mem_nil, false_imp_iff,
    implies_true, List.Pairwise.nil, and_true]
  grind

/-- A text is read as exactly what it writes: as a colour if the reader of hexadecimal colours takes
it, as a truth value, as a number if it is a numeral, as a dimension if it is a numeral with a unit
behind it, and else as itself, a keyword. It writes at most one of these, and what other readers of
numbers take besides is a keyword here. -/
theorem value_recognises_grammar (raw : String) :
    (∀ c, value raw = .color c ↔ Color.ofHex? raw = some c) ∧
      (∀ b, value raw = .bool b ↔ raw = if b then "true" else "false") ∧
      (∀ x, value raw = .number x ↔ ∃ n : Numeral, raw = n.text ∧ n.ReadsAs x) ∧
      (∀ x unit, value raw = .dimension x unit ↔
        IsUnit unit ∧ ∃ n : Numeral, raw = n.text ++ unit ∧ n.ReadsAs x) ∧
      (∀ name, value raw = .ident name ↔ name = raw ∧
        ¬ IsColor raw ∧ ¬ IsTruth raw ∧ ¬ IsNumber raw ∧ ¬ IsDimension raw) ∧
      (∀ content, value raw ≠ .str content) ∧
      [IsColor, IsTruth, IsNumber, IsDimension].Pairwise (fun P Q => ¬ (P raw ∧ Q raw)) ∧
      (Foreign raw → value raw = .ident raw) := by
  refine ⟨fun c => ?_, fun b => ?_, fun x => ?_, fun x unit => ?_, fun name => ?_,
    fun content h => ?_, classes_exclusive raw, Foreign.value_eq⟩
  · rw [value_eq_iff]
    exact ⟨fun (.color hc) => hc, .color⟩
  · rw [value_eq_iff]
    exact ⟨fun (.bool hb) => hb, .bool⟩
  · rw [value_eq_iff]
    exact ⟨fun (.number n hraw hx) => ⟨n, hraw, hx⟩, fun ⟨n, hraw, hx⟩ => .number n hraw hx⟩
  · rw [value_eq_iff]
    exact ⟨fun (.dimension n hunit hraw hx) => ⟨hunit, n, hraw, hx⟩,
      fun ⟨hunit, n, hraw, hx⟩ => .dimension n hunit hraw hx⟩
  · rw [value_eq_iff]
    constructor
    · rintro ⟨⟩
      exact ⟨rfl, ‹_›, ‹_›, ‹_›, ‹_›⟩
    · rintro ⟨rfl, hcolor, htruth, hnumber, hdimension⟩
      exact .ident hcolor htruth hnumber hdimension
  · cases value_eq_iff.mp h

theorem value_recognises_grammar_exponent :
    Foreign "1.e+5" ∧ value "1.e+5" = .ident "1.e+5" := by
  have htext : "1.e+5" = Numeral.text ⟨false, ['1'], some [], by simp, by simp⟩ ++
      String.ofList ['e', '+', '5'] := rfl
  have hforeign : Foreign "1.e+5" := .exponent _ htext rfl ⟨'+', by simp, rfl⟩
  exact ⟨hforeign, (value_recognises_grammar "1.e+5").2.2.2.2.2.2.2 hforeign⟩

end Definition

end Stylesheet
