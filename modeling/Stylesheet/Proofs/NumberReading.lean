import Stylesheet.Json
import Stylesheet.Proofs.NearestFloat

/-!
A number that is written reads back as itself. A finite float is the one nearest to its own exact
value. The decimal written for it is either one that was tried and read back, or the exact value.
-/

namespace Stylesheet

namespace Binary

theorem ofFloat?_eq_some {x : Float} {b : Binary} (h : ofFloat? x = some b) :
    b.significand < 2 ^ 53 ∧ -1074 ≤ b.exponent ∧
      (b.exponent = -1074 ∨ 2 ^ 52 ≤ b.significand) ∧
      b.significand + (b.exponent + 1074).toNat * 2 ^ 52 ≤ infinityBits ∧
      (if b.negative then Nat.pow 2 63 else 0) +
        (b.significand + (b.exponent + 1074).toNat * 2 ^ 52) = x.toBits.toNat := by
  have hbits : x.toBits.toNat < 2 ^ 64 := x.toBits.toNat_lt
  unfold ofFloat? at h
  dsimp only at h
  generalize x.toBits.toNat = bits at *
  simp only [Nat.pow_eq, infinityBits] at *
  split at h
  · cases h
  · split at h
    · obtain rfl := Option.some.inj h
      simp only [decide_eq_true_eq, Int.reduceNeg, Int.reduceAdd, Int.toNat_zero, zero_mul,
        add_zero]
      exact ⟨by omega, le_rfl, .inl trivial, by omega, by split <;> omega⟩
    · obtain rfl := Option.some.inj h
      simp only [decide_eq_true_eq]
      have hscale : (((bits / 2 ^ 52 % 2 ^ 11 : Nat) : Int) - 1075 + 1074).toNat =
          bits / 2 ^ 52 % 2 ^ 11 - 1 := by omega
      rw [hscale]
      exact ⟨by omega, by omega, .inr (by omega), by omega, by split <;> omega⟩

/-- A finite float is the one nearest to its exact value. -/
theorem rounds_of_ofFloat? {x : Float} {b : Binary} (h : ofFloat? x = some b) :
    Number.Rounds b.negative (b.significand * 2 ^ b.exponent) x := by
  obtain ⟨hwidth, hleast, hnormal, hfinite, hbits⟩ := ofFloat?_eq_some h
  have hscale : ((b.exponent + 1074).toNat : Int) - 1074 = b.exponent := by omega
  have hmagnitude : magnitude (b.significand + (b.exponent + 1074).toNat * 2 ^ 52) =
      b.significand * 2 ^ b.exponent := by
    rw [magnitude_eq hwidth.le (by omega), hscale]
  refine ⟨_, hmagnitude ▸ isNearest_magnitude hfinite, ?_⟩
  rw [← Nat.pow_eq, hbits, UInt64.ofNat_toNat, Float.ofBits_toBits]

open Float.Model Float.Model.UnpackedFloat in
/-- The exponent field of a float, as `ofFloat?` computes it. -/
theorem toNat_unpackExponent (bits : UInt64) :
    (unpackExponent bits.toBitVec : BitVec Format.binary64.exponentBits).toNat =
      bits.toNat / Nat.pow 2 52 % Nat.pow 2 11 := by
  rw [unpackExponent_def]
  exact (BitVec.extractLsb'_toNat _ _ _).trans (by rw [Nat.shiftRight_eq_div_pow]; rfl)

open Float.Model Float.Model.UnpackedFloat in
/-- Only infinities and NaN have no exact value. -/
theorem isSome_ofFloat? {x : Float} (h : x.isFinite) : (ofFloat? x).isSome := by
  have hscale : x.toBits.toNat / Nat.pow 2 52 % Nat.pow 2 11 ≠ 2047 := by
    intro hscale
    have hones : (unpackExponent x.toBits.toBitVec : BitVec Format.binary64.exponentBits) = -1#_ :=
      BitVec.eq_of_toNat_eq ((toNat_unpackExponent x.toBits).trans hscale)
    change (UnpackedFloat.unpack Format.binary64 x.toBits.toBitVec).isFinite = true at h
    unfold UnpackedFloat.unpack at h
    rw [if_pos hones] at h
    split at h <;> cases h
  unfold ofFloat?
  dsimp only
  rw [if_neg hscale]
  split <;> rfl

end Binary

namespace Decimal

/-- A decimal that is the exact value of a float is read as that float. -/
theorem toFloat_of_exact {x : Float} {b : Binary} {d : Decimal} (h : Binary.ofFloat? x = some b)
    (hsign : d.negative = b.negative)
    (hvalue : d.magnitude = b.significand * 2 ^ b.exponent) : d.toFloat = x := by
  have hread := rounds_toFloat d
  rw [hsign, hvalue] at hread
  exact hread.unique (Binary.rounds_of_ofFloat? h)

theorem magnitude_ofBinary (b : Binary) :
    (ofBinary b).magnitude = b.significand * 2 ^ b.exponent := by
  unfold ofBinary magnitude
  split
  · next hexponent =>
      obtain ⟨n, hn⟩ := Int.eq_ofNat_of_zero_le hexponent
      simp [hn]
  · next hexponent =>
      obtain ⟨n, hn⟩ : ∃ n : Nat, b.exponent = -n := ⟨(-b.exponent).toNat, by omega⟩
      have hten : (10 : ℚ) ^ n = 2 ^ n * 5 ^ n := by rw [← mul_pow]; norm_num
      rw [hn, neg_neg, Int.toNat_natCast, Nat.pow_eq, zpow_neg, zpow_neg, zpow_natCast,
        zpow_natCast, hten]
      push_cast
      field_simp

theorem toFloat_ofBinary {x : Float} {b : Binary} (h : Binary.ofFloat? x = some b) :
    (ofBinary b).toFloat = x := by
  refine toFloat_of_exact h ?_ (magnitude_ofBinary b)
  unfold ofBinary
  split <;> rfl

/-- A decimal of few digits is taken only if it reads back. -/
theorem readsAs_hit? {b : Binary} {bits : UInt64} {digits : Nat} {d : Decimal}
    (h : hit? b bits digits = some d) : d.readsAs bits := by
  unfold hit? at h
  dsimp only at h
  split at h
  · next hbelow =>
      obtain rfl := Option.some.inj h
      exact (Bool.and_eq_true_iff.mp hbelow).1
  · split at h
    · next habove =>
        obtain rfl := Option.some.inj h
        exact habove
    · cases h

theorem toFloat_of_readsAs {x : Float} {d : Decimal} (h : d.readsAs x.toBits) : d.toFloat = x := by
  rw [← Float.ofBits_toBits d.toFloat, ← Float.ofBits_toBits x, eq_of_beq h]

theorem toFloat_shortest {x : Float} {b : Binary} (h : Binary.ofFloat? x = some b) :
    (shortest x b).toFloat = x := by
  unfold shortest
  split
  · next hzero =>
      refine toFloat_of_exact h rfl ?_
      simp [magnitude, hzero]
  · cases hfound : (List.range 17).findSome? fun n => hit? b x.toBits (n + 1) with
    | none => exact toFloat_ofBinary h
    | some d =>
      obtain ⟨n, -, hhit⟩ := List.exists_of_findSome?_eq_some hfound
      exact toFloat_of_readsAs (readsAs_hit? hhit)

end Decimal

/-- Every finite float is written as a number that reads back as that float, its sign included. -/
theorem Json.float?_ofFloat {x : Float} (h : x.isFinite) : float? (ofFloat x) = some x := by
  obtain ⟨b, hb⟩ := Option.isSome_iff_exists.mp (Binary.isSome_ofFloat? h)
  unfold ofFloat
  rw [hb]
  exact congrArg some (Decimal.toFloat_shortest hb)

end Stylesheet
