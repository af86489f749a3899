import Stylesheet.Proofs.NumberReading
import Stylesheet.Proofs.ValueGrammar

/-!
A variable can be defined by the CSS text of its value. The text of a number is a numeral that is
read as that number: zero has no sign, a whole number shows its exact value, any other number enough
digits to be read back. Neither the name nor the text loses anything when the definition is divided
and blanks are dropped, so the value comes back.
-/

namespace Stylesheet

namespace Decimal

/-- The digits of a decimal, with the point or the zeros that its exponent asks for, are a numeral
of the same value. -/
theorem exists_numeral_unsigned (d : Decimal) : ∃ n : Numeral,
    n.negative = d.negative ∧ n.unsigned = d.magnitudeText ∧ n.magnitude = d.magnitude := by
  have hvalue : Nat.ofDigitChars 10 (Nat.toDigits 10 d.coefficient) 0 = d.coefficient :=
    Nat.ofDigitChars_ten_toDigits
  have hdigit : ∀ c ∈ Nat.toDigits 10 d.coefficient, c.isDigit := fun c hc =>
    Nat.isDigit_of_mem_toDigits (by decide) (by decide) hc
  have hzero (count : Nat) : ∀ c ∈ List.replicate count '0', c.isDigit := by
    intro c hc
    rw [List.eq_of_mem_replicate hc]
    rfl
  have hsome : Nat.toDigits 10 d.coefficient ≠ [] := Nat.toDigits_ne_nil
  unfold magnitudeText magnitude
  dsimp only
  generalize Nat.toDigits 10 d.coefficient = digits at *
  split
  · next hwhole =>
      obtain ⟨count, hcount⟩ := Int.eq_ofNat_of_zero_le hwhole
      rw [hcount, Int.toNat_natCast, zpow_natCast]
      refine ⟨⟨d.negative, digits ++ List.replicate count '0', none, ?_, ?_⟩, rfl, ?_, ?_⟩
      · intro c hc
        rw [Option.getD_none, List.append_nil, List.mem_append] at hc
        exact hc.elim (hdigit c) (hzero count c)
      · simp [hsome]
      · simp [Numeral.unsigned]
      · simp [Numeral.magnitude, Numeral.digits, Numeral.places, Nat.ofDigitChars_append, hvalue,
          Nat.ofDigitChars_replicate_zero, mul_comm]
  · next hfraction =>
      obtain ⟨places, hplaces⟩ : ∃ places : Nat, d.exponent = -places :=
        ⟨(-d.exponent).toNat, by omega⟩
      rw [hplaces, neg_neg, Int.toNat_natCast, zpow_neg, zpow_natCast, ← div_eq_mul_inv]
      split
      · next hshort =>
          refine ⟨⟨d.negative, digits.take (digits.length - places),
            some (digits.drop (digits.length - places)), ?_, ?_⟩, rfl, rfl, ?_⟩
          · simpa using hdigit
          · simpa using hsome
          · have hlength : digits.length - (digits.length - places) = places := by omega
            simp [Numeral.magnitude, Numeral.digits, Numeral.places, hvalue, hlength]
      · next hlong =>
          refine ⟨⟨d.negative, ['0'], some (List.replicate (places - digits.length) '0' ++ digits),
            ?_, ?_⟩, rfl, rfl, ?_⟩
          · intro c hc
            rw [Option.getD_some, List.mem_append, List.mem_append] at hc
            exact hc.elim (hzero 1 c) (fun hc => hc.elim (hzero _ c) (hdigit c))
          · simp
          · have hlength : places - digits.length + digits.length = places := by omega
            simp [Numeral.magnitude, Numeral.digits, Numeral.places, Nat.ofDigitChars_cons,
              Nat.ofDigitChars_append, Nat.ofDigitChars_replicate_zero, hvalue, hlength]

/-- The text of a decimal is a numeral that is read as the decimal is. -/
theorem exists_numeral_text (d : Decimal) :
    ∃ n : Numeral, n.text = d.text ∧ n.toDecimal.toFloat = d.toFloat := by
  obtain ⟨n, hnegative, hunsigned, hmagnitude⟩ := exists_numeral_unsigned d
  refine ⟨n, ?_, toFloat_congr hnegative (n.magnitude_toDecimal.trans hmagnitude)⟩
  rw [Numeral.text, Numeral.chars, text, hnegative, hunsigned]

end Decimal

theorem Binary.ratio_eq (b : Binary) :
    (b.ratio.1 : ℚ) / b.ratio.2 = b.significand * 2 ^ b.exponent := by
  unfold ratio
  split
  · next h =>
      obtain ⟨n, hn⟩ := Int.eq_ofNat_of_zero_le h
      simp [hn]
  · next h =>
      obtain ⟨n, hn⟩ : ∃ n : Nat, b.exponent = -n := ⟨(-b.exponent).toNat, by omega⟩
      simp [hn, div_eq_mul_inv]

namespace Number

/-- A whole number is read back from all the digits of its exact value. -/
theorem toFloat_of_isWhole {x : Float} {b : Binary} (h : Binary.ofFloat? x = some b)
    (hwhole : b.isWhole) : Decimal.toFloat ⟨b.negative, b.ratio.1 / b.ratio.2, 0⟩ = x := by
  have hdivides : b.ratio.2 ∣ b.ratio.1 := Nat.dvd_of_mod_eq_zero (eq_of_beq hwhole)
  have hden : (b.ratio.2 : ℚ) ≠ 0 := by
    unfold Binary.ratio
    split <;> simp
  refine Decimal.toFloat_of_exact h rfl ?_
  rw [← b.ratio_eq, ← Nat.cast_div hdivides hden, Decimal.magnitude, zpow_zero, mul_one]

theorem beq_self {x : Float} (h : x.isFinite) : x == x := by
  have hnumber : x ≠ Float.nan := by
    rintro rfl
    cases h
  exact Float.beq_iff_ne_nan_and_eq.mpr ⟨hnumber, hnumber, .inl rfl⟩

/-- The two zeros are equal to the one that is written. -/
theorem zero_beq {x : Float} {b : Binary} (h : Binary.ofFloat? x = some b)
    (hzero : b.significand = 0) : Float.ofBits 0 == x := by
  obtain ⟨-, -, hnormal, -, hbits⟩ := Binary.ofFloat?_eq_some h
  have hexponent : b.exponent = -1074 := hnormal.resolve_right (by omega)
  have hfloat : x = Float.ofBits (UInt64.ofNat (if b.negative then Nat.pow 2 63 else 0)) := by
    rw [← Float.ofBits_toBits x, ← UInt64.ofNat_toNat (x := x.toBits), ← hbits, hzero, hexponent]
    rfl
  rw [hfloat]
  cases b.negative <;> rfl

/-- The text of a finite number is a numeral that is read as the number. -/
theorem exists_numeral_text {x : Float} (h : x.isFinite) :
    ∃ n : Numeral, n.text = Number.text x ∧ n.toDecimal.toFloat == x := by
  obtain ⟨b, hb⟩ := Option.isSome_iff_exists.mp (Binary.isSome_ofFloat? h)
  unfold Number.text
  rw [hb]
  dsimp only
  split
  · next hzero =>
      refine ⟨⟨false, ['0'], none, by simp, by simp⟩, rfl, ?_⟩
      exact zero_beq hb hzero
  · split
    · next hwhole =>
        obtain ⟨n, htext, hread⟩ :=
          Decimal.exists_numeral_text ⟨b.negative, b.ratio.1 / b.ratio.2, 0⟩
        refine ⟨n, htext, ?_⟩
        rw [hread, toFloat_of_isWhole hb hwhole]
        exact beq_self h
    · obtain ⟨n, htext, hread⟩ := Decimal.exists_numeral_text (Decimal.shortest x b)
      refine ⟨n, htext, ?_⟩
      rw [hread, Decimal.toFloat_shortest hb]
      exact beq_self h

end Number

theorem Color.ofHex?_text (c : Color) : ofHex? c.text = some c := by
  have hpair (channel : UInt8) :
      OfPair (channel.toNat / 16).digitChar (channel.toNat % 16).digitChar channel := by
    have hbyte : channel.toNat < 256 := channel.toNat_lt
    exact ⟨_, _, ⟨by omega, .inl rfl⟩, ⟨by omega, .inl rfl⟩, by omega⟩
  exact ofHex?_eq_some_iff.mpr (.long String.toList_ofList (.inl (hpair c.red))
    (.inl (hpair c.green)) (.inl (hpair c.blue)))

namespace Text

/-- The text has no blank at either end. -/
def Unpadded (s : String) : Prop :=
  (∀ c ∈ s.toList.head?, isBlank c = false) ∧ ∀ c ∈ s.toList.getLast?, isBlank c = false

theorem dropWhile_isBlank {cs : List Char} (h : ∀ c ∈ cs.head?, isBlank c = false) :
    cs.dropWhile isBlank = cs := by
  cases cs with
  | nil => rfl
  | cons c rest => simp [h c rfl]

theorem Unpadded.trimChars_eq {s : String} (h : Unpadded s) : trimChars s.toList = s.toList := by
  have hlast : ∀ c ∈ s.toList.reverse.head?, isBlank c = false := by
    rw [List.head?_reverse]
    exact h.2
  rw [trimChars, dropWhile_isBlank h.1, dropWhile_isBlank hlast, List.reverse_reverse]

theorem IsVisible.isBlank_eq {c : Char} (h : IsVisible c) : isBlank c = false := by
  obtain ⟨hlow, hhigh⟩ := h
  simp [isBlank, blankRanges]
  omega

theorem unpadded_of_isVisible {s : String} (h : ∀ c ∈ s.toList, IsVisible c) : Unpadded s :=
  ⟨fun c hc => (h c (List.mem_of_mem_head? hc)).isBlank_eq,
    fun c hc => (h c (List.mem_of_mem_getLast? hc)).isBlank_eq⟩

end Text

namespace Definition

/-- The values that can be given by their text: finite numbers, with or without a unit, colours,
truth values, and keywords that are read as keywords and are not padded. -/
inductive Definable : Value → Prop where
  | number {x : Float} (h : x.isFinite) : Definable (.number x)
  | dimension {x : Float} {unit : String} (h : x.isFinite) (hunit : IsUnit unit) :
      Definable (.dimension x unit)
  | color (c : Color) : Definable (.color c)
  | bool (b : Bool) : Definable (.bool b)
  | ident {name : String} (h : ∃ read, value name = .ident read) (hpadding : Text.Unpadded name) :
      Definable (.ident name)

/-- The text of such a value is not padded, and it is read as an equal value. -/
theorem Definable.value_text {v : Value} (h : Definable v) :
    Text.Unpadded v.text ∧ value v.text == v := by
  cases h with
  | @number x hx =>
      obtain ⟨n, htext, hread⟩ := Number.exists_numeral_text hx
      have hvisible := isVisible_of_numeric (n := n) (.inl rfl)
      rw [Value.text, ← htext, value_numeral]
      exact ⟨Text.unpadded_of_isVisible (by simpa using hvisible), hread⟩
  | @dimension x unit hx hunit =>
      obtain ⟨n, htext, hread⟩ := Number.exists_numeral_text hx
      rw [Value.text, ← htext, value_numeral_append n hunit]
      refine ⟨Text.unpadded_of_isVisible (isVisible_of_numeric (.inr hunit)), ?_⟩
      exact Bool.and_eq_true_iff.mpr ⟨hread, beq_self_eq_true unit⟩
  | color c =>
      have hc : Color.ofHex? (Value.color c).text = some c := Color.ofHex?_text c
      rw [value_eq_iff.mpr (.color hc)]
      exact ⟨Text.unpadded_of_isVisible (Color.isVisible_of_ofHex? hc), beq_self_eq_true c⟩
  | bool b =>
      rw [Value.text, value_eq_iff.mpr (.bool rfl)]
      exact ⟨Text.unpadded_of_isVisible (isVisible_of_bool b), beq_self_eq_true b⟩
  | @ident name hread hpadding =>
      obtain ⟨read, hread⟩ := hread
      obtain ⟨⟩ := value_eq_iff.mp hread
      rw [Value.text, hread]
      exact ⟨hpadding, beq_self_eq_true name⟩

/-- A name and a text that are not padded are the parts of their definition. -/
theorem parse_append {name raw : String} (hsome : name ≠ "") (hequals : '=' ∉ name.toList)
    (hname : Text.Unpadded name) (hraw : Text.Unpadded raw) :
    parse (name ++ "=" ++ raw) = .ok (name, value raw) := by
  have hlist : (name ++ "=" ++ raw).toList = name.toList ++ '=' :: raw.toList := by simp
  have hbefore : ∀ c ∈ name.toList, (c != '=') = true := by
    intro c hc
    rw [bne_iff_ne]
    rintro rfl
    exact hequals hc
  have htake : (name.toList ++ '=' :: raw.toList).takeWhile (· != '=') = name.toList := by
    rw [List.takeWhile_append_of_pos hbefore]
    simp
  have hdrop : (name.toList ++ '=' :: raw.toList).dropWhile (· != '=') = '=' :: raw.toList := by
    rw [List.dropWhile_append_of_pos hbefore]
    simp
  simp only [parse, hlist, hdrop, htake, hname.trimChars_eq, hraw.trimChars_eq]
  simp [hsome]

/-- A definition by the CSS text of a value gives the name that value: an equal one, as numbers are
equal by value, whatever the number, the unit, the colour or the keyword is. -/
theorem definition_round_trip {name : String} {v : Value} (hsome : name ≠ "")
    (hequals : '=' ∉ name.toList) (hname : Text.Unpadded name) (hv : Definable v) :
    ∃ w, parse (name ++ "=" ++ v.text) = .ok (name, w) ∧ w == v := by
  obtain ⟨htext, hequal⟩ := hv.value_text
  exact ⟨value v.text, parse_append hsome hequals hname htext, hequal⟩

/-- A name with blanks and a unit inside, for the zero that is written without its sign. -/
theorem definition_round_trip_negative_zero :
    "line height" ≠ "" ∧ '=' ∉ "line height".toList ∧ Text.Unpadded "line height" ∧
      Definable (.dimension (-0.0) "em") ∧
      ∃ w, parse ("line height" ++ "=" ++ (Value.dimension (-0.0) "em").text) =
        .ok ("line height", w) ∧ w == .dimension (-0.0) "em" := by
  have hsome : "line height" ≠ "" := by decide
  have hequals : '=' ∉ "line height".toList := by simp
  have hname : Text.Unpadded "line height" := by
    simp [Text.Unpadded, Text.isBlank, Text.blankRanges]
  have hv : Definable (.dimension (-0.0) "em") :=
    .dimension (by rfl) (.inr ⟨by decide, by simp [Char.isAlpha, Char.isUpper, Char.isLower]⟩)
  exact ⟨hsome, hequals, hname, hv, definition_round_trip hsome hequals hname hv⟩

end Definition

end Stylesheet
