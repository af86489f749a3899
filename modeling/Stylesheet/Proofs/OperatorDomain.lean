import Mathlib
import Stylesheet.Operator.Apply

/-!
On which operands the operators are defined, and what kind of value they give. The refusals are
told without a look at how results are computed: by the kinds of the operands, by their units where
numbers are compared, and by the zeros of a divisor. An absent operand makes arithmetic absent
before anything else is asked of the operands, but a comparison is refused for it.
-/

namespace Stylesheet

/-- One of the two zeros. -/
def Number.IsZero (x : Float) : Prop := x = 0.0 ∨ x = -0.0

namespace Value

/-- Is the value a number or dimension? -/
def isNumeric : Value → Bool
  | .number _ | .dimension .. => true
  | _ => false

def isColor : Value → Bool
  | .color _ => true
  | _ => false

/-- The unit of a dimension. All other values have the empty one. -/
def unit : Value → String
  | .dimension _ unit => unit
  | _ => ""

/-- Is the number zero, or one of the channels of the colour? -/
def HasZero : Value → Prop
  | .number x | .dimension x _ => Number.IsZero x
  | .color c => c.red = 0 ∨ c.green = 0 ∨ c.blue = 0
  | _ => False

/-- The kinds that arithmetic combines: numbers with numbers, colours with colours, and a colour
with a number on its right. -/
def Combines (v w : Value) : Prop :=
  v.isNumeric ∧ w.isNumeric ∨ v.isColor ∧ w.isColor ∨ v.isColor ∧ w.isNumeric

theorem numeric?_eq_none_iff {v : Value} : v.numeric? = none ↔ ¬ v.isNumeric := by
  cases v <;> simp [numeric?, isNumeric]

/-- A numeric value has a number and a unit, and it counts as zero if its number is one of the
zeros. -/
theorem exists_numeric? {v : Value} (h : v.isNumeric) :
    ∃ x, v.numeric? = some (x, v.unit) ∧ (v.HasZero ↔ Number.IsZero x) := by
  cases v with
  | number x => exact ⟨x, rfl, Iff.rfl⟩
  | dimension x unit => exact ⟨x, rfl, Iff.rfl⟩
  | _ => cases h

end Value

namespace Operator

def isComparison : Operator → Bool
  | .lt | .gt | .le | .ge => true
  | _ => false

/-- Is the operator a binary one of arithmetic? -/
def isArithmetic : Operator → Bool
  | .add | .sub | .mul | .div | .mod => true
  | _ => false

/-- Does the operator have a result on all operands? -/
def isTotal : Operator → Bool
  | .not | .concat | .eq | .ne | .and | .or => true
  | _ => false

/-- Every operator is negation, a comparison, arithmetic, or defined everywhere. -/
theorem families (op : Operator) :
    op = .neg ∨ op.isComparison ∨ op.isArithmetic ∨ op.isTotal := by
  cases op <;> decide

def Divides (op : Operator) : Prop := op = .div ∨ op = .mod

/-- Is this an addition with a string in it? -/
def JoinsTexts (op : Operator) (v w : Value) : Prop := op = .add ∧ (isStr v ∨ isStr w)

/-- The operands that an operator is not defined on. -/
inductive Refuses : Operator → List (Option Value) → Prop where
  | negation {v : Value} (h : ¬ v.isNumeric) : Refuses .neg [some v]
  | absent {op : Operator} {a b : Option Value} (hop : op.isComparison)
      (h : a = none ∨ b = none) : Refuses op [a, b]
  | incomparable {op : Operator} {v w : Value} (hop : op.isComparison)
      (h : ¬ v.isNumeric ∨ ¬ w.isNumeric) : Refuses op [some v, some w]
  | units {op : Operator} {v w : Value} (hop : op.isComparison)
      (hleft : v.unit ≠ "") (hright : w.unit ≠ "") (hdiffer : v.unit ≠ w.unit) :
      Refuses op [some v, some w]
  | kinds {op : Operator} {v w : Value} (hop : op.isArithmetic) (hjoins : ¬ op.JoinsTexts v w)
      (h : ¬ v.Combines w) : Refuses op [some v, some w]
  | zero {op : Operator} {v w : Value} (hop : op.Divides) (h : w.HasZero) :
      Refuses op [some v, some w]

/-- What arithmetic makes of two present operands. -/
inductive Computes (op : Operator) (v w : Value) : Value → Prop where
  | text (hjoins : op.JoinsTexts v w) : Computes op v w (.str (v.plainText ++ w.plainText))
  | color {c : Color} (hjoins : ¬ op.JoinsTexts v w) (hleft : v.isColor) :
      Computes op v w (.color c)
  | number {x : Float} (hjoins : ¬ op.JoinsTexts v w) (hleft : v.isNumeric) (hright : w.isNumeric)
      (hunits : v.unit = "" ∧ w.unit = "") : Computes op v w (.number x)
  | dimension {x : Float} (hjoins : ¬ op.JoinsTexts v w) (hleft : v.isNumeric)
      (hright : w.isNumeric) (hunits : ¬ (v.unit = "" ∧ w.unit = "")) :
      Computes op v w (.dimension x (if v.unit = "" then w.unit else v.unit))

end Operator

/-- Both zeros equal zero, and no other float does. -/
theorem Number.beq_zero_iff (x : Float) : x == 0.0 ↔ IsZero x := by
  rw [Float.beq_iff_ne_nan_and_eq, IsZero]
  constructor
  · rintro ⟨-, -, hzero | ⟨-, hsigns⟩ | ⟨hzero, -⟩⟩
    · exact .inl hzero
    · exact absurd hsigns (by decide)
    · exact .inr hzero
  · rintro (rfl | rfl)
    · exact ⟨by decide, by decide, .inl rfl⟩
    · exact ⟨by decide, by decide, .inr (.inr ⟨rfl, rfl⟩)⟩

/-- Of the bytes, only zero is a zero as a number. -/
theorem Number.isZero_toFloat_iff (byte : UInt8) : IsZero byte.toFloat ↔ byte = 0 := by
  have hbytes : ∀ n : Fin 256, (UInt8.ofFin n).toFloat == 0.0 ↔ n = 0 := by decide +kernel
  rw [← beq_zero_iff]
  have hbyte := hbytes byte.toFin
  rw [UInt8.ofFin_toFin] at hbyte
  rw [hbyte, ← UInt8.toFin_inj]
  rfl

namespace Operator

variable {op : Operator}

theorem arity_of_comparison (hop : op.isComparison) : op.arity = 2 := by
  cases op <;> simp [isComparison] at hop <;> rfl

theorem arity_of_arithmetic (hop : op.isArithmetic) : op.arity = 2 := by
  cases op <;> simp [isArithmetic] at hop <;> rfl

/-- Arithmetic on numbers is refused for a zero divisor only. -/
theorem onNumbers?_eq_none_iff (hop : op.isArithmetic) (x y : Float) :
    op.onNumbers? x y = none ↔ op.Divides ∧ Number.IsZero y := by
  rw [← Number.beq_zero_iff]
  cases op <;> simp [isArithmetic] at hop <;> simp [onNumbers?, Divides]

/-- A computation on all three channels needs a result in each of them. -/
theorem bind_channels_eq_none_iff {r g b : Option Float} {f : Float → Float → Float → Color} :
    (do return f (← r) (← g) (← b) : Option Color) = none ↔ r = none ∨ g = none ∨ b = none := by
  cases r <;> cases g <;> cases b <;> simp

/-- A colour cannot be divided by one that has a zero channel. -/
theorem onColors?_eq_none_iff (hop : op.isArithmetic) (c d : Color) :
    op.onColors? c d = none ↔ op.Divides ∧ (Value.color d).HasZero := by
  rw [onColors?, bind_channels_eq_none_iff]
  simp only [onNumbers?_eq_none_iff hop, Number.isZero_toFloat_iff, ← and_or_left, Value.HasZero]

theorem onColorNumber?_eq_none_iff (hop : op.isArithmetic) (c : Color) (x : Float) :
    op.onColorNumber? c x = none ↔ op.Divides ∧ Number.IsZero x := by
  rw [onColorNumber?, bind_channels_eq_none_iff]
  simp only [onNumbers?_eq_none_iff hop, or_self]

/-- The unit of the result is that of the left operand where it has one. -/
theorem onNumerics?_of_numeric {v w : Value} {x y : Float} (hv : v.numeric? = some (x, v.unit))
    (hw : w.numeric? = some (y, w.unit)) :
    op.onNumerics? v w = (op.onNumbers? x y).map fun z =>
      Value.ofNumeric z (if v.unit = "" then w.unit else v.unit) := by
  simp only [onNumerics?, hv, hw, Option.bind_eq_bind, Option.bind_some]
  cases op.onNumbers? x y <;> rfl

theorem onNumerics?_of_other {v w : Value} (h : ¬ (v.isNumeric ∧ w.isNumeric)) :
    op.onNumerics? v w = none := by
  rcases not_and_or.mp h with hv | hw
  · simp [onNumerics?, Value.numeric?_eq_none_iff.mpr hv]
  · simp [onNumerics?, Value.numeric?_eq_none_iff.mpr hw]

/-- Numeric arithmetic is refused for values that are not numeric and for a zero divisor. -/
theorem onNumerics?_eq_none_iff (hop : op.isArithmetic) (v w : Value) :
    op.onNumerics? v w = none ↔
      ¬ (v.isNumeric ∧ w.isNumeric) ∨ op.Divides ∧ w.HasZero := by
  by_cases hnumeric : v.isNumeric ∧ w.isNumeric
  · obtain ⟨x, hx, -⟩ := Value.exists_numeric? hnumeric.1
    obtain ⟨y, hy, hzero⟩ := Value.exists_numeric? hnumeric.2
    rw [onNumerics?_of_numeric hx hy, Option.map_eq_none_iff, onNumbers?_eq_none_iff hop, hzero]
    simp [hnumeric]
  · exact iff_of_true (onNumerics?_of_other hnumeric) (.inl hnumeric)

/-- Numbers give a number, whose unit is that of the left one, or of the right one where the left
has none. -/
theorem computes_of_onNumerics? {v w value : Value} (hjoins : ¬ op.JoinsTexts v w)
    (h : op.onNumerics? v w = some value) : op.Computes v w value := by
  have hnumeric : v.isNumeric ∧ w.isNumeric := by
    by_contra hother
    rw [onNumerics?_of_other hother] at h
    cases h
  obtain ⟨x, hx, -⟩ := Value.exists_numeric? hnumeric.1
  obtain ⟨y, hy, -⟩ := Value.exists_numeric? hnumeric.2
  rw [onNumerics?_of_numeric hx hy] at h
  obtain ⟨z, -, rfl⟩ := Option.map_eq_some_iff.mp h
  by_cases hunits : v.unit = "" ∧ w.unit = ""
  · rw [if_pos hunits.1, hunits.2]
    exact .number hjoins hnumeric.1 hnumeric.2 hunits
  · have hunit : (if v.unit = "" then w.unit else v.unit) ≠ "" := by
      split
      · next hleft => exact fun hright => hunits ⟨hleft, hright⟩
      · next hleft => exact hleft
    rw [Value.ofNumeric, if_neg hunit]
    exact .dimension hjoins hnumeric.1 hnumeric.2 hunits

/-- Addition with a string joins the plain texts. -/
theorem arithmetic?_of_joins {v w : Value} (h : op.JoinsTexts v w) :
    op.arithmetic? v w = some (.str (v.plainText ++ w.plainText)) :=
  if_pos h

/-- A colour on the left gives a colour, if it gives anything. -/
theorem arithmetic?_of_color (hop : op.isArithmetic) {c : Color} {w : Value}
    (hjoins : ¬ op.JoinsTexts (.color c) w) :
    ∃ computed : Option Color, op.arithmetic? (.color c) w = computed.map .color ∧
      (computed = none ↔ ¬ (w.isColor ∨ w.isNumeric) ∨ op.Divides ∧ w.HasZero) := by
  by_cases hcolor : w.isColor
  · cases w with
    | color d =>
        refine ⟨op.onColors? c d, if_neg hjoins, ?_⟩
        rw [onColors?_eq_none_iff hop]
        simp [hcolor]
    | _ => cases hcolor
  · have hcomputed : op.arithmetic? (.color c) w =
        (w.numeric?.bind fun y => op.onColorNumber? c y.1).map .color := by
      refine (if_neg hjoins).trans ?_
      cases w with
      | color d => exact absurd rfl hcolor
      | _ => rfl
    refine ⟨_, hcomputed, ?_⟩
    by_cases hnumeric : w.isNumeric
    · obtain ⟨y, hy, hzero⟩ := Value.exists_numeric? hnumeric
      rw [hy, Option.bind_some, onColorNumber?_eq_none_iff hop, hzero]
      simp [hnumeric]
    · simp [Value.numeric?_eq_none_iff.mpr hnumeric, hcolor, hnumeric]

theorem arithmetic?_of_numeric {v w : Value} (hjoins : ¬ op.JoinsTexts v w) (hv : ¬ v.isColor) :
    op.arithmetic? v w = op.onNumerics? v w := by
  refine (if_neg hjoins).trans ?_
  cases v with
  | color c => exact absurd rfl hv
  | _ => rfl

/-- What arithmetic refuses: operands that do not combine, and a zero divisor, unless texts are
joined. -/
theorem arithmetic?_eq_none_iff (hop : op.isArithmetic) (v w : Value) :
    op.arithmetic? v w = none ↔
      ¬ op.JoinsTexts v w ∧ (¬ v.Combines w ∨ op.Divides ∧ w.HasZero) := by
  by_cases hjoins : op.JoinsTexts v w
  · simp [arithmetic?_of_joins hjoins, hjoins]
  · by_cases hcolor : v.isColor
    · cases v with
      | color c =>
          obtain ⟨computed, hcomputed, hnone⟩ := arithmetic?_of_color hop hjoins
          rw [hcomputed, Option.map_eq_none_iff, hnone]
          simp [hjoins, Value.Combines, Value.isNumeric, Value.isColor]
      | _ => cases hcolor
    · rw [arithmetic?_of_numeric hjoins hcolor, onNumerics?_eq_none_iff hop]
      simp [hjoins, Value.Combines, hcolor]

/-- What arithmetic gives is what the kinds of its operands call for. -/
theorem computes_of_arithmetic? (hop : op.isArithmetic) {v w value : Value}
    (h : op.arithmetic? v w = some value) : op.Computes v w value := by
  by_cases hjoins : op.JoinsTexts v w
  · rw [arithmetic?_of_joins hjoins] at h
    cases h
    exact .text hjoins
  · by_cases hcolor : v.isColor
    · cases v with
      | color c =>
          obtain ⟨computed, hcomputed, -⟩ := arithmetic?_of_color hop hjoins
          rw [hcomputed] at h
          obtain ⟨d, -, rfl⟩ := Option.map_eq_some_iff.mp h
          exact .color hjoins hcolor
      | _ => cases hcolor
    · rw [arithmetic?_of_numeric hjoins hcolor] at h
      exact computes_of_onNumerics? hjoins h

theorem ordered?_ne_none (hop : op.isComparison) (x y : Float) : op.ordered? x y ≠ none := by
  cases op <;> simp [isComparison] at hop <;> simp [ordered?]

/-- A comparison is refused for values that are not numeric and for two different units. -/
theorem compare?_eq_none_iff (hop : op.isComparison) (v w : Value) :
    op.compare? v w = none ↔ (¬ v.isNumeric ∨ ¬ w.isNumeric) ∨
      v.unit ≠ "" ∧ w.unit ≠ "" ∧ v.unit ≠ w.unit := by
  by_cases hv : v.isNumeric
  · by_cases hw : w.isNumeric
    · obtain ⟨x, hx, -⟩ := Value.exists_numeric? hv
      obtain ⟨y, hy, -⟩ := Value.exists_numeric? hw
      simp only [compare?, hx, hy, Option.bind_eq_bind, Option.bind_some, hv, hw]
      split
      · next hunits => simp [hunits]
      · next hunits => simpa [ordered?_ne_none hop] using hunits
    · refine iff_of_true ?_ (.inl (.inr hw))
      simp [compare?, Value.numeric?_eq_none_iff.mpr hw]
  · refine iff_of_true ?_ (.inl (.inl hv))
    simp [compare?, Value.numeric?_eq_none_iff.mpr hv]

theorem result?_of_negation (v : Value) : result? .neg [some v] = (negate? v).map some := rfl

theorem negate?_eq_none_iff (v : Value) : negate? v = none ↔ ¬ v.isNumeric := by
  cases v <;> simp [negate?, Value.isNumeric]

/-- A comparison needs both operands, and its result is a truth value. -/
theorem result?_of_comparison (hop : op.isComparison) (a b : Option Value) :
    op.result? [a, b] =
      a.bind fun v => b.bind fun w => (op.compare? v w).map fun holds => some (.bool holds) := by
  cases op <;> simp [isComparison] at hop <;> cases a <;> cases b <;> rfl

theorem result?_of_arithmetic (hop : op.isArithmetic) (v w : Value) :
    op.result? [some v, some w] = (op.arithmetic? v w).map some := by
  cases op <;> simp [isArithmetic] at hop <;> rfl

/-- Absence comes first: the other operand is not looked at. -/
theorem result?_of_absent (hop : op.isArithmetic) {a b : Option Value} (h : none ∈ [a, b]) :
    op.result? [a, b] = some none := by
  cases op <;> simp [isArithmetic] at hop <;> cases a <;> cases b <;> simp at h <;> rfl

theorem refuses_negation_iff (a : Option Value) : result? .neg [a] = none ↔ Refuses .neg [a] := by
  cases a with
  | none =>
      refine iff_of_false (by simp [result?, arity, unary?]) fun hrefuses => ?_
      cases hrefuses
  | some v =>
      rw [result?_of_negation, Option.map_eq_none_iff, negate?_eq_none_iff]
      refine ⟨.negation, fun hrefuses => ?_⟩
      cases hrefuses with
      | negation h => exact h

theorem not_isArithmetic (hop : op.isComparison) : ¬ op.isArithmetic := by
  cases op <;> simp [isComparison] at hop <;> simp [isArithmetic]

theorem Divides.isArithmetic (hop : op.Divides) : op.isArithmetic := by
  rcases hop with rfl | rfl <;> rfl

theorem Divides.not_joinsTexts (hop : op.Divides) (v w : Value) : ¬ op.JoinsTexts v w := by
  rintro ⟨rfl, -⟩
  rcases hop with hop | hop <;> cases hop

theorem absent_or_present (a b : Option Value) :
    none ∈ [a, b] ∨ ∃ v w, a = some v ∧ b = some w := by
  cases a <;> cases b <;> simp

/-- For comparisons the refusals are exactly the listed ones. -/
theorem refuses_comparison_iff (hop : op.isComparison) (a b : Option Value) :
    op.result? [a, b] = none ↔ op.Refuses [a, b] := by
  rw [result?_of_comparison hop]
  cases a with
  | none => exact iff_of_true rfl (.absent hop (.inl rfl))
  | some v =>
      cases b with
      | none => exact iff_of_true rfl (.absent hop (.inr rfl))
      | some w =>
          rw [Option.bind_some, Option.bind_some, Option.map_eq_none_iff, compare?_eq_none_iff hop]
          constructor
          · rintro (hkinds | ⟨hleft, hright, hdiffer⟩)
            · exact .incomparable hop hkinds
            · exact .units hop hleft hright hdiffer
          · intro hrefuses
            cases hrefuses with
            | absent _ h => simp at h
            | incomparable _ hkinds => exact .inl hkinds
            | units _ hleft hright hdiffer => exact .inr ⟨hleft, hright, hdiffer⟩
            | kinds harithmetic => exact absurd harithmetic (not_isArithmetic hop)
            | zero hdivides => exact absurd hdivides.isArithmetic (not_isArithmetic hop)

/-- The same for arithmetic, where an absent operand gives an absent result. -/
theorem refuses_arithmetic_iff (hop : op.isArithmetic) (a b : Option Value) :
    op.result? [a, b] = none ↔ op.Refuses [a, b] := by
  rcases absent_or_present a b with habsent | ⟨v, w, rfl, rfl⟩
  · rw [result?_of_absent hop habsent]
    refine iff_of_false (by simp) fun hrefuses => ?_
    cases hrefuses with
    | absent hcomparison | incomparable hcomparison | units hcomparison =>
        exact not_isArithmetic hcomparison hop
    | kinds | zero => simp at habsent
  · rw [result?_of_arithmetic hop, Option.map_eq_none_iff, arithmetic?_eq_none_iff hop]
    constructor
    · rintro ⟨hjoins, hkinds | ⟨hdivides, hzero⟩⟩
      · exact .kinds hop hjoins hkinds
      · exact .zero hdivides hzero
    · intro hrefuses
      cases hrefuses with
      | absent hcomparison | incomparable hcomparison | units hcomparison =>
          exact absurd hop (not_isArithmetic hcomparison)
      | kinds _ hjoins hkinds => exact ⟨hjoins, .inl hkinds⟩
      | zero hdivides hzero => exact ⟨hdivides.not_joinsTexts v w, .inr ⟨hdivides, hzero⟩⟩

/-- An operator that is defined everywhere gives a text or a truth value. -/
theorem exists_result_of_isTotal (hop : op.isTotal) {operands : List (Option Value)}
    (h : operands.length = op.arity) :
    ∃ value, op.result? operands = some (some value) ∧
      if op = .concat then ∃ text, value = .str text else ∃ holds, value = .bool holds := by
  cases op <;> simp [isTotal] at hop
  case not =>
    obtain ⟨a, rfl⟩ := List.length_eq_one_iff.mp h
    exact ⟨_, rfl, _, rfl⟩
  all_goals
    obtain ⟨a, b, rfl⟩ := List.length_eq_two.mp h
    exact ⟨_, rfl, _, rfl⟩

theorem not_refuses_of_isTotal (hop : op.isTotal) (operands : List (Option Value)) :
    ¬ op.Refuses operands := by
  intro hrefuses
  cases op <;> simp [isTotal] at hop
  all_goals
    cases hrefuses with
    | absent hother | incomparable hother | units hother | kinds hother => cases hother
    | zero hdivides => rcases hdivides with hdivides | hdivides <;> cases hdivides

/-- With as many operands as its arity, an operator has no result exactly if they are refused. -/
theorem result?_eq_none_iff {operands : List (Option Value)} (h : operands.length = op.arity) :
    op.result? operands = none ↔ op.Refuses operands := by
  rcases families op with rfl | hcomparison | harithmetic | htotal
  · obtain ⟨a, rfl⟩ := List.length_eq_one_iff.mp h
    exact refuses_negation_iff a
  · rw [arity_of_comparison hcomparison] at h
    obtain ⟨a, b, rfl⟩ := List.length_eq_two.mp h
    exact refuses_comparison_iff hcomparison a b
  · rw [arity_of_arithmetic harithmetic] at h
    obtain ⟨a, b, rfl⟩ := List.length_eq_two.mp h
    exact refuses_arithmetic_iff harithmetic a b
  · obtain ⟨value, hresult, -⟩ := exists_result_of_isTotal htotal h
    exact iff_of_false (by simp [hresult]) (not_refuses_of_isTotal htotal operands)

/-- An operator fails in one way only, with its own line. -/
theorem apply_eq_error_iff {operands : List (Option Value)} {line : Nat} {error : Error} :
    op.apply operands line = .error error ↔
      op.result? operands = none ∧ error = .invalidOperands op line := by
  unfold apply
  cases op.result? operands <;> simp [eq_comm]

theorem apply_eq_ok_iff {operands : List (Option Value)} {line : Nat} {result : Option Value} :
    op.apply operands line = .ok result ↔ op.result? operands = some result := by
  unfold apply
  cases op.result? operands <;> simp

theorem result_of_negation {a result : Option Value} (h : result? .neg [a] = some result) :
    result = none ↔ none ∈ [a] := by
  cases a with
  | none =>
      cases h
      simp
  | some v =>
      rw [result?_of_negation] at h
      obtain ⟨value, -, rfl⟩ := Option.map_eq_some_iff.mp h
      simp

/-- The result is absent exactly if an operand is, and else computed from both. -/
theorem result_of_arithmetic (hop : op.isArithmetic) {a b result : Option Value}
    (h : op.result? [a, b] = some result) :
    (result = none ↔ none ∈ [a, b]) ∧
      ∀ v w, [a, b] = [some v, some w] → ∃ value, result = some value ∧ op.Computes v w value := by
  rcases absent_or_present a b with habsent | ⟨v, w, rfl, rfl⟩
  · rw [result?_of_absent hop habsent] at h
    cases h
    refine ⟨iff_of_true rfl habsent, fun v w hpresent => ?_⟩
    simp [hpresent] at habsent
  · rw [result?_of_arithmetic hop] at h
    obtain ⟨value, hvalue, rfl⟩ := Option.map_eq_some_iff.mp h
    refine ⟨by simp, fun v' w' hpresent => ?_⟩
    cases hpresent
    exact ⟨value, rfl, computes_of_arithmetic? hop hvalue⟩

theorem result_of_comparison (hop : op.isComparison) {a b result : Option Value}
    (h : op.result? [a, b] = some result) : ∃ holds, result = some (.bool holds) := by
  rw [result?_of_comparison hop] at h
  obtain ⟨v, -, hright⟩ := Option.bind_eq_some_iff.mp h
  obtain ⟨w, -, hcompared⟩ := Option.bind_eq_some_iff.mp hright
  obtain ⟨holds, -, rfl⟩ := Option.map_eq_some_iff.mp hcompared
  exact ⟨holds, rfl⟩

/-- On as many operands as it takes, an operator fails exactly on those it refuses, with an error
that names the operator and its line. Where it succeeds, negation and arithmetic are absent exactly
if an operand is; arithmetic on present operands gives a text, a colour or a number as their kinds
and units tell; and of the other operators concatenation gives a text and all the rest a truth
value. -/
theorem domain_is_exact (op : Operator) (operands : List (Option Value)) (line : Nat)
    (harity : operands.length = op.arity) :
    (∀ error, op.apply operands line = .error error ↔
      op.Refuses operands ∧ error = .invalidOperands op line) ∧
    ∀ result, op.apply operands line = .ok result →
      (op = .neg ∨ op.isArithmetic → (result = none ↔ none ∈ operands)) ∧
      (op.isArithmetic → ∀ v w, operands = [some v, some w] →
        ∃ value, result = some value ∧ op.Computes v w value) ∧
      (op.isComparison ∨ op.isTotal → ∃ value, result = some value ∧
        if op = .concat then ∃ text, value = .str text else ∃ holds, value = .bool holds) := by
  refine ⟨fun error => ?_, fun result hok => ?_⟩
  · rw [apply_eq_error_iff, result?_eq_none_iff harity]
  · rw [apply_eq_ok_iff] at hok
    refine ⟨?_, ?_, ?_⟩
    · rintro (rfl | harithmetic)
      · obtain ⟨a, rfl⟩ := List.length_eq_one_iff.mp harity
        exact result_of_negation hok
      · rw [arity_of_arithmetic harithmetic] at harity
        obtain ⟨a, b, rfl⟩ := List.length_eq_two.mp harity
        exact (result_of_arithmetic harithmetic hok).1
    · rintro harithmetic v w rfl
      exact (result_of_arithmetic harithmetic hok).2 v w rfl
    · rintro (hcomparison | htotal)
      · rw [arity_of_comparison hcomparison] at harity
        obtain ⟨a, b, rfl⟩ := List.length_eq_two.mp harity
        obtain ⟨holds, rfl⟩ := result_of_comparison hcomparison hok
        have hop : op ≠ .concat := by
          rintro rfl
          cases hcomparison
        refine ⟨_, rfl, ?_⟩
        rw [if_neg hop]
        exact ⟨holds, rfl⟩
      · obtain ⟨value, hresult, hkind⟩ := exists_result_of_isTotal htotal harity
        rw [hresult] at hok
        cases hok
        exact ⟨value, rfl, hkind⟩

/-- A colour is not divided by one with a black channel, and a plain number takes over the unit of
the dimension that it multiplies. -/
theorem domain_is_exact_on_channels_and_units :
    [some (Value.color ⟨10, 20, 30⟩), some (.color ⟨1, 0, 2⟩)].length = arity .div ∧
      apply .div [some (.color ⟨10, 20, 30⟩), some (.color ⟨1, 0, 2⟩)] 7 =
        .error (.invalidOperands .div 7) ∧
      [some (Value.number 2.0), some (.dimension 3.0 "px")].length = arity .mul ∧
      apply .mul [some (.number 2.0), some (.dimension 3.0 "px")] 7 =
        .ok (some (.dimension (2.0 * 3.0) "px")) ∧
      Computes .mul (.number 2.0) (.dimension 3.0 "px") (.dimension (2.0 * 3.0) "px") := by
  have hblack : Refuses .div [some (.color ⟨10, 20, 30⟩), some (.color ⟨1, 0, 2⟩)] :=
    .zero (.inl rfl) (.inr (.inl rfl))
  have hrefused := ((domain_is_exact .div _ 7 rfl).1 _).mpr ⟨hblack, rfl⟩
  have hok : apply .mul [some (.number 2.0), some (.dimension 3.0 "px")] 7 =
      .ok (some (.dimension (2.0 * 3.0) "px")) := rfl
  obtain ⟨value, hvalue, hcomputes⟩ := ((domain_is_exact .mul _ 7 rfl).2 _ hok).2.1 rfl _ _ rfl
  cases hvalue
  exact ⟨rfl, hrefused, rfl, hok, hcomputes⟩

end Operator

end Stylesheet
