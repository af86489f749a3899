import Mathlib
import Stylesheet.Number.Decimal

/-!
A decimal is read as the float nearest to it. The magnitudes of floats follow the order of their
bit patterns, and the pattern of infinity counts as the power of two after the largest float. The
pattern taken for a number is nearest to it of all these, and even where two are equally near. No
other pattern is, so what a decimal is read as depends on its sign and its value, not on the way it
is written.
-/

namespace Stylesheet

namespace Binary

/-- The magnitude of the float with a bit pattern, its sign apart. -/
def magnitude (bits : Nat) : ℚ :=
  if bits < 2 ^ 52 then bits * 2 ^ (-1074 : Int)
  else (bits % 2 ^ 52 + 2 ^ 52 : Nat) * 2 ^ ((bits / 2 ^ 52 : Nat) - 1075 : Int)

/-- The magnitude of a significand on a scale. The significand may have grown to the next power of
two, for which the pattern has carried. -/
theorem magnitude_eq {significand scale : Nat} (hwidth : significand ≤ 2 ^ 53)
    (hnormal : scale = 0 ∨ 2 ^ 52 ≤ significand) :
    magnitude (significand + scale * 2 ^ 52) = significand * 2 ^ ((scale : Int) - 1074) := by
  unfold magnitude
  by_cases hsmall : significand < 2 ^ 52
  · obtain rfl : scale = 0 := by omega
    rw [zero_mul, add_zero, if_pos hsmall]
    norm_num
  rw [if_neg (by omega)]
  by_cases hcarry : significand = 2 ^ 53
  · have hquotient : (significand + scale * 2 ^ 52) / 2 ^ 52 = scale + 2 := by omega
    have hremainder : (significand + scale * 2 ^ 52) % 2 ^ 52 + 2 ^ 52 = 2 ^ 52 := by omega
    have hscale : ((scale + 2 : Nat) : Int) - 1075 = (scale : Int) - 1074 + 1 := by
      push_cast
      ring
    rw [hquotient, hremainder, hcarry, hscale, zpow_add_one₀ (by norm_num)]
    push_cast
    ring
  · have hquotient : (significand + scale * 2 ^ 52) / 2 ^ 52 = scale + 1 := by omega
    have hremainder : (significand + scale * 2 ^ 52) % 2 ^ 52 + 2 ^ 52 = significand := by omega
    rw [hquotient, hremainder]
    congr 2
    push_cast
    ring

theorem exists_significand (bits : Nat) : ∃ significand scale, bits = significand + scale * 2 ^ 52 ∧
    significand < 2 ^ 53 ∧ (scale = 0 ∨ 2 ^ 52 ≤ significand) := by
  by_cases hsmall : bits < 2 ^ 52
  · exact ⟨bits, 0, by omega, by omega, .inl rfl⟩
  · exact ⟨bits % 2 ^ 52 + 2 ^ 52, bits / 2 ^ 52 - 1, by omega, by omega, .inr (by omega)⟩

theorem magnitude_strictMono : StrictMono magnitude := by
  refine strictMono_nat_of_lt_succ fun bits => ?_
  obtain ⟨significand, scale, rfl, hwidth, hnormal⟩ := exists_significand bits
  have hnext : significand + scale * 2 ^ 52 + 1 = (significand + 1) + scale * 2 ^ 52 := by omega
  rw [hnext, magnitude_eq hwidth.le hnormal, magnitude_eq (by omega) (by omega)]
  gcongr
  omega

theorem magnitude_infinityBits : magnitude infinityBits = 2 ^ 1024 := by
  have hsplit : infinityBits = 2 ^ 52 + 2046 * 2 ^ 52 := rfl
  have hscale : ((2046 : Nat) : Int) - 1074 = (972 : Nat) := rfl
  rw [hsplit, magnitude_eq (by norm_num) (.inr le_rfl), hscale, zpow_natCast, Nat.cast_pow,
    Nat.cast_ofNat, ← pow_add]

/-- Of all patterns this one is nearest to the number, and it is even if another is as near. -/
structure IsNearest (q : ℚ) (bits : Nat) : Prop where
  le_infinity : bits ≤ infinityBits
  nearest : ∀ other ≤ infinityBits, |magnitude bits - q| ≤ |magnitude other - q|
  even_of_tie : ∀ other ≤ infinityBits, other ≠ bits →
    |magnitude other - q| = |magnitude bits - q| → Even bits

namespace IsNearest

variable {q : ℚ} {bits other : Nat}

theorem not_lt_other (hbits : IsNearest q bits) (hother : IsNearest q other) :
    ¬ bits < other := by
  intro hlt
  have htie : |magnitude bits - q| = |magnitude other - q| :=
    le_antisymm (hbits.nearest other hother.le_infinity) (hother.nearest bits hbits.le_infinity)
  have heven := hbits.even_of_tie other hother.le_infinity hlt.ne' htie.symm
  have heven' := hother.even_of_tie bits hbits.le_infinity hlt.ne htie
  -- Two even patterns have an odd one between them, which is nearer to the middle than both.
  have hbetween : bits + 1 < other := by
    rcases heven with ⟨a, rfl⟩
    rcases heven' with ⟨b, rfl⟩
    omega
  have hlow : magnitude bits < magnitude (bits + 1) := magnitude_strictMono (Nat.lt_succ_self bits)
  have hhigh : magnitude (bits + 1) < magnitude other := magnitude_strictMono hbetween
  have hnearer := hbits.nearest (bits + 1) (hbetween.le.trans hother.le_infinity)
  rcases abs_eq_abs.mp htie with hsame | hmiddle
  · linarith
  · have hq : q = (magnitude bits + magnitude other) / 2 := by linarith
    rw [abs_of_nonpos (by linarith)] at hnearer
    rcases abs_cases (magnitude (bits + 1) - q) with ⟨hdistance, -⟩ | ⟨hdistance, -⟩ <;> linarith

/-- Only one pattern is nearest. -/
theorem unique (hbits : IsNearest q bits) (hother : IsNearest q other) : bits = other :=
  le_antisymm (not_lt.mp (hother.not_lt_other hbits)) (not_lt.mp (hbits.not_lt_other hother))

end IsNearest

/-- The magnitude of a pattern is nearest to itself. -/
theorem isNearest_magnitude {bits : Nat} (h : bits ≤ infinityBits) :
    IsNearest (magnitude bits) bits where
  le_infinity := h
  nearest other _ := by
    rw [sub_self, abs_zero]
    exact abs_nonneg _
  even_of_tie other _ hne htie := by
    rw [sub_self, abs_zero, abs_eq_zero, sub_eq_zero] at htie
    exact absurd (magnitude_strictMono.injective htie) hne

section Between

variable {q : ℚ} {below : Nat}

theorem distance_of_le (hlow : magnitude below ≤ q) {other : Nat} (h : other ≤ below) :
    |magnitude other - q| = q - magnitude other := by
  have hother := magnitude_strictMono.monotone h
  rw [abs_of_nonpos (by linarith), neg_sub]

theorem distance_of_ge (hhigh : q ≤ magnitude (below + 1)) {other : Nat} (h : below + 1 ≤ other) :
    |magnitude other - q| = magnitude other - q := by
  have hother := magnitude_strictMono.monotone h
  exact abs_of_nonneg (by linarith)

/-- Of the two patterns around a number, the nearer one is nearest of all, or the even one of two
that are equally near. -/
theorem isNearest_of_between {bits : Nat} (hrange : below + 1 ≤ infinityBits)
    (hlow : magnitude below ≤ q) (hhigh : q ≤ magnitude (below + 1))
    (hbits : bits = below ∨ bits = below + 1)
    (hnotBelow : |magnitude bits - q| ≤ q - magnitude below)
    (hnotAbove : |magnitude bits - q| ≤ magnitude (below + 1) - q)
    (htie : q - magnitude below = magnitude (below + 1) - q → Even bits) : IsNearest q bits where
  le_infinity := by omega
  nearest other _ := by
    rcases Nat.lt_or_ge below other with h | h
    · have hother := magnitude_strictMono.monotone (Nat.succ_le_of_lt h)
      rw [distance_of_ge hhigh h]
      linarith
    · have hother := magnitude_strictMono.monotone h
      rw [distance_of_le hlow h]
      linarith
  even_of_tie other _ hne hequal := by
    -- Any but the two around the number are farther away than one of these.
    have hneighbour : other = below ∨ other = below + 1 := by
      by_contra hfar
      rcases Nat.lt_or_ge below other with h | h
      · have hother := magnitude_strictMono (show below + 1 < other by omega)
        rw [distance_of_ge hhigh h] at hequal
        linarith
      · have hother := magnitude_strictMono (show other < below by omega)
        rw [distance_of_le hlow h] at hequal
        linarith
    apply htie
    have hbelow := distance_of_le hlow le_rfl
    have habove := distance_of_ge hhigh le_rfl
    rcases hbits with rfl | rfl <;> rcases hneighbour with rfl | rfl
    · exact absurd rfl hne
    · linarith
    · linarith
    · exact absurd rfl hne

/-- A number past the largest float by so much is nearest to infinity. -/
theorem isNearest_infinityBits (h : 2 ^ 1024 ≤ q) : IsNearest q infinityBits := by
  rw [← magnitude_infinityBits] at h
  refine ⟨le_rfl, fun other hother => ?_, fun other hother hne htie => ?_⟩
  · have hmono := magnitude_strictMono.monotone hother
    rw [distance_of_le h le_rfl, distance_of_le h hother]
    linarith
  · have hmono := magnitude_strictMono (lt_of_le_of_ne hother hne)
    rw [distance_of_le h le_rfl, distance_of_le h hother] at htie
    linarith

/-- A number up to half of the least float is nearest to zero. -/
theorem isNearest_zero (hsign : 0 ≤ q) (h : q ≤ 2 ^ (-1075 : Int)) : IsNearest q 0 := by
  have hzero : magnitude 0 = 0 := by simp [magnitude]
  have hone : magnitude (0 + 1) = 2 * 2 ^ (-1075 : Int) := by
    rw [← zpow_one_add₀ (by norm_num)]
    simp [magnitude]
  refine isNearest_of_between (by decide) ?_ ?_ (.inl rfl) ?_ ?_ fun _ => .zero
  · rw [hzero]
    exact hsign
  · rw [hone]
    linarith
  · rw [hzero, zero_sub, abs_neg, abs_of_nonneg hsign]
    linarith
  · rw [hzero, zero_sub, abs_neg, abs_of_nonneg hsign, hone]
    linarith

end Between

/-- What rounding to a natural does: it takes one of the two around the quotient, which is no
farther away than either, and the even one of two that are equally near. -/
theorem roundEven_spec (num : Nat) {den : Nat} (hden : 0 < den) :
    (roundEven num den = num / den ∨ roundEven num den = num / den + 1) ∧
      |(roundEven num den : ℚ) - num / den| ≤ (num : ℚ) / den - (num / den : Nat) ∧
      |(roundEven num den : ℚ) - num / den| ≤ (num / den : Nat) + 1 - (num : ℚ) / den ∧
      ((num : ℚ) / den - (num / den : Nat) = (num / den : Nat) + 1 - (num : ℚ) / den →
        Even (roundEven num den)) := by
  have hpos : (0 : ℚ) < den := by exact_mod_cast hden
  have hquotient : (num : ℚ) / den = (num / den : Nat) + (num % den : Nat) / den := by
    rw [eq_comm, ← mul_left_inj' hpos.ne', add_mul, div_mul_cancel₀ _ hpos.ne',
      div_mul_cancel₀ _ hpos.ne']
    exact_mod_cast Nat.div_add_mod' num den
  have hrest : (0 : ℚ) ≤ (num % den : Nat) / den := by positivity
  have hrest' : ((num % den : Nat) : ℚ) / den < 1 := by
    rw [div_lt_one hpos]
    exact_mod_cast Nat.mod_lt num hden
  have htwice : 2 * (((num % den : Nat) : ℚ) / den) = (2 * (num % den) : Nat) / den := by
    push_cast
    ring
  rw [hquotient]
  generalize (num % den : Nat) / (den : ℚ) = rest at *
  have hbelow (h : 2 * rest ≤ 1) :
      |((num / den : Nat) : ℚ) - ((num / den : Nat) + rest)| ≤
        (num / den : Nat) + rest - (num / den : Nat) ∧
      |((num / den : Nat) : ℚ) - ((num / den : Nat) + rest)| ≤
        (num / den : Nat) + 1 - ((num / den : Nat) + rest) := by
    rw [abs_of_nonpos (by linarith)]
    constructor <;> linarith
  have habove (h : 1 ≤ 2 * rest) :
      |((num / den + 1 : Nat) : ℚ) - ((num / den : Nat) + rest)| ≤
        (num / den : Nat) + rest - (num / den : Nat) ∧
      |((num / den + 1 : Nat) : ℚ) - ((num / den : Nat) + rest)| ≤
        (num / den : Nat) + 1 - ((num / den : Nat) + rest) := by
    push_cast
    rw [abs_of_nonneg (by linarith)]
    constructor <;> linarith
  unfold roundEven
  dsimp only
  split
  · next hless =>
      have hhalf : 2 * rest < 1 := by
        rw [htwice, div_lt_one hpos]
        exact_mod_cast hless
      exact ⟨.inl rfl, (hbelow hhalf.le).1, (hbelow hhalf.le).2, fun htie => by linarith⟩
  · split
    · next hmore =>
        have hhalf : 1 < 2 * rest := by
          rw [htwice, one_lt_div hpos]
          exact_mod_cast hmore
        exact ⟨.inr rfl, (habove hhalf.le).1, (habove hhalf.le).2, fun htie => by linarith⟩
    · next hless hmore =>
        have hhalf : 2 * rest = 1 := by
          rw [htwice, div_eq_one_iff_eq hpos.ne']
          exact_mod_cast (by omega : 2 * (num % den) = den)
        have heven : Even (num / den + num / den % 2) := by
          rw [Nat.even_iff]
          omega
        rcases Nat.mod_two_eq_zero_or_one (num / den) with hparity | hparity <;>
          rw [hparity] at heven ⊢
        · exact ⟨.inl rfl, (hbelow hhalf.le).1, (hbelow hhalf.le).2, fun _ => heven⟩
        · exact ⟨.inr rfl, (habove hhalf.ge).1, (habove hhalf.ge).2, fun _ => heven⟩

/-- The ratio counted in units of `2 ^ exponent`. -/
theorem exists_inUnits (num : Nat) {den : Nat} (hden : 0 < den) (exponent : Int) :
    ∃ num' den' : Nat, 0 < den' ∧ (num : ℚ) / den = num' / den' * 2 ^ exponent ∧
      (if 0 ≤ exponent then roundEven num (den * Nat.pow 2 exponent.toNat)
        else roundEven (num * Nat.pow 2 (-exponent).toNat) den) = roundEven num' den' := by
  have hpos : (den : ℚ) ≠ 0 := by exact_mod_cast hden.ne'
  split
  · next h =>
      obtain ⟨n, rfl⟩ := Int.eq_ofNat_of_zero_le h
      refine ⟨num, den * 2 ^ n, by positivity, ?_, by rw [Int.toNat_natCast, Nat.pow_eq]⟩
      rw [zpow_natCast]
      push_cast
      field_simp
  · next h =>
      obtain ⟨n, rfl⟩ : ∃ n : Nat, exponent = -n := ⟨(-exponent).toNat, by omega⟩
      refine ⟨num * 2 ^ n, den, hden, ?_, by rw [neg_neg, Int.toNat_natCast, Nat.pow_eq]⟩
      rw [zpow_neg, zpow_natCast]
      push_cast
      field_simp

/-- The comparison with a power of two, as `floorLog2` makes it. -/
theorem two_zpow_le_div_iff {num den : Nat} (hden : 0 < den) (k : Int) :
    (2 : ℚ) ^ k ≤ num / den ↔
      (if 0 ≤ k then decide (den * Nat.pow 2 k.toNat ≤ num)
        else decide (den ≤ num * Nat.pow 2 (-k).toNat)) = true := by
  have hpos : (0 : ℚ) < den := by exact_mod_cast hden
  rw [le_div_iff₀ hpos]
  split
  · next hk =>
      obtain ⟨n, rfl⟩ := Int.eq_ofNat_of_zero_le hk
      rw [zpow_natCast, decide_eq_true_iff, Int.toNat_natCast, Nat.pow_eq, mul_comm]
      exact_mod_cast Iff.rfl
  · next hk =>
      obtain ⟨n, rfl⟩ : ∃ n : Nat, k = -n := ⟨(-k).toNat, by omega⟩
      rw [zpow_neg, zpow_natCast, decide_eq_true_iff, neg_neg, Int.toNat_natCast, Nat.pow_eq,
        inv_mul_le_iff₀ (by positivity), mul_comm]
      exact_mod_cast Iff.rfl

theorem log2_bounds {n : Nat} (h : 0 < n) :
    (2 : ℚ) ^ (n.log2 : Int) ≤ n ∧ (n : ℚ) < 2 ^ ((n.log2 : Int) + 1) := by
  have hlow : 2 ^ n.log2 ≤ n := Nat.log2_self_le (by omega)
  have hhigh : n < 2 ^ (n.log2 + 1) := Nat.lt_log2_self
  exact ⟨by exact_mod_cast hlow, by exact_mod_cast hhigh⟩

/-- `floorLog2` is the exponent of the greatest power of two up to the ratio. -/
theorem floorLog2_spec {num den : Nat} (hnum : 0 < num) (hden : 0 < den) :
    (2 : ℚ) ^ floorLog2 num den ≤ num / den ∧
      (num : ℚ) / den < 2 ^ (floorLog2 num den + 1) := by
  obtain ⟨hnumLow, hnumHigh⟩ := log2_bounds hnum
  obtain ⟨hdenLow, hdenHigh⟩ := log2_bounds hden
  have hpos : (0 : ℚ) < den := by exact_mod_cast hden
  have hsplit (a b : Int) : (2 : ℚ) ^ a = 2 ^ (a - b) * 2 ^ b := by
    rw [← zpow_add₀ (by norm_num), sub_add_cancel]
  have hlow : (2 : ℚ) ^ ((num.log2 : Int) - den.log2 - 1) ≤ num / den := by
    rw [le_div_iff₀ hpos]
    calc (2 : ℚ) ^ ((num.log2 : Int) - den.log2 - 1) * den
        ≤ 2 ^ ((num.log2 : Int) - den.log2 - 1) * 2 ^ ((den.log2 : Int) + 1) := by gcongr
      _ = 2 ^ (num.log2 : Int) := by
          rw [hsplit num.log2 (den.log2 + 1)]
          congr 2
          ring
      _ ≤ num := hnumLow
  have hhigh : (num : ℚ) / den < 2 ^ ((num.log2 : Int) - den.log2 + 1) := by
    rw [div_lt_iff₀ hpos]
    calc (num : ℚ) < 2 ^ ((num.log2 : Int) + 1) := hnumHigh
      _ = 2 ^ ((num.log2 : Int) - den.log2 + 1) * 2 ^ (den.log2 : Int) := by
          rw [hsplit (num.log2 + 1) den.log2]
          congr 2
          ring
      _ ≤ 2 ^ ((num.log2 : Int) - den.log2 + 1) * den := by gcongr
  have hreached := @two_zpow_le_div_iff num den hden ((num.log2 : Int) - den.log2)
  unfold floorLog2
  dsimp only
  by_cases h : (2 : ℚ) ^ ((num.log2 : Int) - den.log2) ≤ num / den
  · rw [if_pos (hreached.mp h)]
    exact ⟨h, hhigh⟩
  · rw [if_neg (mt hreached.mpr h), sub_add_cancel]
    exact ⟨hlow, lt_of_not_ge h⟩

section Quotient

variable {num den : Nat} {log exponent : Int}

theorem quotient_lt (hden : 0 < den) (h : (num : ℚ) / den * 2 ^ exponent < 2 ^ (log + 1))
    (hlog : log - 52 ≤ exponent) : num / den < 2 ^ 53 := by
  have hpos : (0 : ℚ) < den := by exact_mod_cast hden
  have hlt : (num : ℚ) / den * 2 ^ exponent < 2 ^ (53 : Nat) * 2 ^ exponent :=
    calc (num : ℚ) / den * 2 ^ exponent < 2 ^ (log + 1) := h
      _ ≤ 2 ^ (53 + exponent) := zpow_le_zpow_right₀ (by norm_num) (by omega)
      _ = 2 ^ (53 : Nat) * 2 ^ exponent := by
          rw [zpow_add₀ (by norm_num)]
          norm_cast
  have hquotient := lt_of_mul_lt_mul_right hlt (by positivity)
  rw [div_lt_iff₀ hpos] at hquotient
  rw [Nat.div_lt_iff_lt_mul hden]
  exact_mod_cast hquotient

theorem le_quotient (hden : 0 < den) (h : 2 ^ log ≤ (num : ℚ) / den * 2 ^ exponent)
    (hlog : exponent = log - 52) : 2 ^ 52 ≤ num / den := by
  have hpos : (0 : ℚ) < den := by exact_mod_cast hden
  have hle : (2 : ℚ) ^ (52 : Nat) * 2 ^ exponent ≤ num / den * 2 ^ exponent := by
    refine le_trans (le_of_eq ?_) h
    rw [← zpow_natCast, ← zpow_add₀ (by norm_num)]
    congr 1
    push_cast
    omega
  have hquotient := le_of_mul_le_mul_right hle (by positivity)
  rw [le_div_iff₀ hpos] at hquotient
  rw [Nat.le_div_iff_mul_le hden]
  exact_mod_cast hquotient

end Quotient

/-- A quotient that fits the significand on a scale is rounded on that scale. -/
theorem isNearest_of_quotient {num den scale : Nat} (hden : 0 < den) (hwidth : num / den < 2 ^ 53)
    (hnormal : scale = 0 ∨ 2 ^ 52 ≤ num / den) :
    IsNearest ((num : ℚ) / den * 2 ^ ((scale : Int) - 1074))
      (min (roundEven num den + scale * 2 ^ 52) infinityBits) := by
  obtain ⟨hchoice, hnotBelow, hnotAbove, htie⟩ := roundEven_spec num hden
  have hlow := magnitude_eq hwidth.le hnormal
  have hhigh : magnitude (num / den + scale * 2 ^ 52 + 1) =
      ((num / den : Nat) + 1) * 2 ^ ((scale : Int) - 1074) := by
    rw [Nat.add_right_comm, magnitude_eq (by omega) (by omega), Nat.cast_succ]
  have hrounded : magnitude (roundEven num den + scale * 2 ^ 52) =
      roundEven num den * 2 ^ ((scale : Int) - 1074) :=
    magnitude_eq (by omega) (by omega)
  have hunit : (0 : ℚ) < 2 ^ ((scale : Int) - 1074) := by positivity
  generalize (2 : ℚ) ^ ((scale : Int) - 1074) = unit at *
  have hdistance := abs_nonneg ((roundEven num den : ℚ) - num / den)
  have hscaled : |(roundEven num den : ℚ) * unit - num / den * unit| =
      |(roundEven num den : ℚ) - num / den| * unit := by
    rw [← sub_mul, abs_mul, abs_of_pos hunit]
  by_cases hrange : num / den + scale * 2 ^ 52 + 1 ≤ infinityBits
  · rw [min_eq_left (by omega)]
    refine isNearest_of_between hrange ?_ ?_ (by omega) ?_ ?_ ?_
    · rw [hlow]
      gcongr
      linarith
    · rw [hhigh]
      gcongr
      linarith
    · rw [hrounded, hlow, hscaled, ← sub_mul]
      gcongr
    · rw [hrounded, hhigh, hscaled, ← sub_mul]
      gcongr
    · rw [hlow, hhigh, ← sub_mul, ← sub_mul, mul_left_inj' hunit.ne']
      intro hequal
      exact (htie hequal).add (even_iff_two_dvd.mpr ⟨scale * 2 ^ 51, by ring⟩)
  · rw [min_eq_right (by omega)]
    refine isNearest_infinityBits ?_
    calc (2 : ℚ) ^ 1024 = magnitude infinityBits := magnitude_infinityBits.symm
      _ ≤ magnitude (num / den + scale * 2 ^ 52) := magnitude_strictMono.monotone (by omega)
      _ = (num / den : Nat) * unit := hlow
      _ ≤ num / den * unit := by
          gcongr
          linarith

/-- The pattern computed for a ratio is the nearest one. -/
theorem isNearest_nearestBits (num : Nat) {den : Nat} (hden : 0 < den) :
    IsNearest (num / den) (nearestBits num den) := by
  unfold nearestBits
  split
  · next hzero =>
      rw [hzero, Nat.cast_zero, zero_div]
      exact isNearest_zero le_rfl (by positivity)
  next hnum =>
  dsimp only
  obtain ⟨hreach, hbound⟩ := floorLog2_spec (Nat.pos_of_ne_zero hnum) hden
  generalize hexponent : max (floorLog2 num den - 52) (-1074) = exponent
  obtain ⟨scale, rfl⟩ : ∃ scale : Nat, exponent = scale - 1074 :=
    ⟨(exponent + 1074).toNat, by omega⟩
  have hscale : ((scale : Int) - 1074 + 1074).toNat = scale := by omega
  obtain ⟨num', den', hden', hunits, hround⟩ := exists_inUnits num hden ((scale : Int) - 1074)
  rw [hround, hscale, hunits, Nat.pow_eq]
  rw [hunits] at hreach hbound
  refine isNearest_of_quotient hden' (quotient_lt hden' hbound (by omega)) ?_
  rcases Nat.eq_zero_or_pos scale with hleast | hleast
  · exact .inl hleast
  · exact .inr (le_quotient hden' hreach (by omega))

end Binary

/-- The float is the one nearest to the number with the given sign and magnitude, a tie going to the
even pattern; past the largest float it is infinity. -/
def Number.Rounds (negative : Bool) (magnitude : ℚ) (x : Float) : Prop :=
  ∃ bits, Binary.IsNearest magnitude bits ∧
    x = Float.ofBits (UInt64.ofNat ((if negative then 2 ^ 63 else 0) + bits))

theorem Number.Rounds.unique {negative : Bool} {magnitude : ℚ} {x y : Float}
    (hx : Number.Rounds negative magnitude x) (hy : Number.Rounds negative magnitude y) :
    x = y := by
  obtain ⟨bits, hbits, rfl⟩ := hx
  obtain ⟨bits', hbits', rfl⟩ := hy
  rw [hbits.unique hbits']

theorem Binary.rounds_toNearest (negative : Bool) (num : Nat) {den : Nat} (hden : 0 < den) :
    Number.Rounds negative (num / den) (toNearest negative num den) :=
  ⟨nearestBits num den, isNearest_nearestBits num hden, rfl⟩

namespace Decimal

/-- The exact value of the decimal, its sign apart. -/
def magnitude (d : Decimal) : ℚ := d.coefficient * 10 ^ d.exponent

theorem two_pow_le_ten_pow (n : Nat) : (2 : ℚ) ^ (3 * n) ≤ 10 ^ n := by
  rw [pow_mul]
  gcongr
  norm_num

theorem nearestBits_ten_pow {n : Nat} (h : 400 ≤ n) :
    Binary.nearestBits (10 ^ n) 1 = Binary.infinityBits := by
  have hlarge : 2 ^ 1024 ≤ ((10 ^ n : Nat) : ℚ) / (1 : Nat) := by
    rw [Nat.cast_one, div_one, Nat.cast_pow, Nat.cast_ofNat]
    exact (pow_le_pow_right₀ (by norm_num) (by omega)).trans (two_pow_le_ten_pow n)
  exact (Binary.isNearest_nearestBits _ one_pos).unique (Binary.isNearest_infinityBits hlarge)

theorem le_magnitude_of_large {d : Decimal} (hsome : d.coefficient ≠ 0) (h : 400 < d.exponent) :
    2 ^ 1024 ≤ d.magnitude := by
  have hone : (1 : ℚ) ≤ d.coefficient := by exact_mod_cast Nat.one_le_iff_ne_zero.mpr hsome
  calc (2 : ℚ) ^ 1024 ≤ 2 ^ (3 * 400) := pow_le_pow_right₀ (by norm_num) (by norm_num)
    _ ≤ 10 ^ 400 := two_pow_le_ten_pow 400
    _ = 1 * 10 ^ (400 : Int) := by rw [one_mul, zpow_ofNat]
    _ ≤ d.coefficient * 10 ^ d.exponent :=
        mul_le_mul hone (zpow_le_zpow_right₀ (by norm_num) h.le) (by positivity) (by positivity)

theorem magnitude_le_of_small {d : Decimal}
    (h : d.exponent < -(401 + (d.coefficient.log2 : Int))) :
    d.magnitude ≤ 2 ^ (-1075 : Int) := by
  have hcoefficient : (d.coefficient : ℚ) ≤ 10 ^ ((d.coefficient.log2 : Int) + 1) := by
    have hlog : d.coefficient < 2 ^ (d.coefficient.log2 + 1) := Nat.lt_log2_self
    have hpow : 2 ^ (d.coefficient.log2 + 1) ≤ 10 ^ (d.coefficient.log2 + 1) :=
      Nat.pow_le_pow_left (by norm_num) _
    exact_mod_cast (hlog.trans_le hpow).le
  calc d.magnitude ≤ 10 ^ ((d.coefficient.log2 : Int) + 1) * 10 ^ d.exponent := by
        unfold magnitude
        gcongr
    _ = 10 ^ ((d.coefficient.log2 : Int) + 1 + d.exponent) := (zpow_add₀ (by norm_num) _ _).symm
    _ ≤ 10 ^ (-400 : Int) := zpow_le_zpow_right₀ (by norm_num) (by omega)
    _ = (10 ^ 400)⁻¹ := by rw [zpow_neg, zpow_ofNat]
    _ ≤ (2 ^ (3 * 400))⁻¹ := inv_anti₀ (by positivity) (two_pow_le_ten_pow 400)
    _ ≤ (2 ^ 1075)⁻¹ := inv_anti₀ (by positivity) (pow_le_pow_right₀ (by norm_num) (by norm_num))
    _ = 2 ^ (-1075 : Int) := by rw [zpow_neg, zpow_ofNat]

/-- A decimal is read as the float nearest to its exact value. The shortcuts for a huge and for a
tiny exponent are no exceptions: there every value is read as infinity, and as zero. -/
theorem rounds_toFloat (d : Decimal) : Number.Rounds d.negative d.magnitude d.toFloat := by
  have hzero (h : Binary.IsNearest d.magnitude 0) :
      Number.Rounds d.negative d.magnitude (Binary.toNearest d.negative 0 1) :=
    ⟨0, h, rfl⟩
  unfold toFloat
  split
  · next hnone =>
      refine hzero (Binary.isNearest_zero ?_ ?_) <;> simp [magnitude, hnone]
  next hsome =>
  split
  · next hlarge =>
      refine ⟨_, Binary.isNearest_infinityBits (le_magnitude_of_large hsome hlarge), ?_⟩
      simp only [Binary.toNearest, Nat.pow_eq, nearestBits_ten_pow, le_refl]
  split
  · next hsmall =>
      have hsign : 0 ≤ d.magnitude := by
        unfold magnitude
        positivity
      exact hzero (Binary.isNearest_zero hsign (magnitude_le_of_small hsmall))
  split
  · next hwhole =>
      obtain ⟨n, hn⟩ := Int.eq_ofNat_of_zero_le hwhole
      convert Binary.rounds_toNearest d.negative (d.coefficient * Nat.pow 10 d.exponent.toNat)
        one_pos using 1
      simp [magnitude, hn]
  · next hfraction =>
      obtain ⟨n, hn⟩ : ∃ n : Nat, d.exponent = -n := ⟨(-d.exponent).toNat, by omega⟩
      convert Binary.rounds_toNearest d.negative d.coefficient
        (show 0 < Nat.pow 10 (-d.exponent).toNat from Nat.pow_pos (by norm_num)) using 1
      simp [magnitude, hn, div_eq_mul_inv]

/-- Two writings of one number are read as one float. -/
theorem toFloat_congr {d d' : Decimal} (hsign : d.negative = d'.negative)
    (hvalue : d.magnitude = d'.magnitude) : d.toFloat = d'.toFloat := by
  have h := rounds_toFloat d
  rw [hsign, hvalue] at h
  exact h.unique (rounds_toFloat d')

end Decimal

end Stylesheet
