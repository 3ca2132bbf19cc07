import Mathlib.Algebra.Order.Ring.Int
import Mathlib.Algebra.GroupWithZero.Nat
import Mathlib.Tactic.Common

namespace FoundationsLab

/-! The integers among the JavaScript numbers, and what sums of them overflow to. A number
has 53 significant bits: beyond `2 ^ 53` a sum is rounded to the nearest number, and of two
that are equally near to the even one. -/

inductive JsNumber where
  | integer (value : Int)
  | infinity (negative : Bool)
  | nan
  deriving DecidableEq

namespace JsNumber

/-- The nearest multiple of a unit, the even one of two. -/
def roundTo (unit magnitude : Nat) : Nat :=
  let quotient := magnitude / unit
  let rest := magnitude % unit
  if unit < 2 * rest ∨ unit = 2 * rest ∧ quotient % 2 = 1 then (quotient + 1) * unit
  else quotient * unit

def roundMagnitude (magnitude : Nat) : Nat :=
  if magnitude ≤ 2 ^ 53 then magnitude else roundTo (2 ^ (magnitude.log2 - 52)) magnitude

def ofInt (value : Int) : JsNumber :=
  let magnitude := roundMagnitude value.natAbs
  if magnitude.log2 < 1024 then .integer (value.sign * magnitude) else .infinity (value < 0)

def neg : JsNumber → JsNumber
  | integer value => integer (-value)
  | infinity negative => infinity !negative
  | nan => nan

def add : JsNumber → JsNumber → JsNumber
  | integer left, integer right => ofInt (left + right)
  | infinity left, infinity right => if left = right then infinity left else nan
  | infinity negative, integer _ => infinity negative
  | integer _, infinity negative => infinity negative
  | nan, _ => nan
  | _, nan => nan

def sub (left right : JsNumber) : JsNumber := left.add right.neg

/-- `left < right` -/
def less : JsNumber → JsNumber → Bool
  | integer left, integer right => left < right
  | infinity left, infinity right => left && !right
  | infinity negative, integer _ => negative
  | integer _, infinity negative => !negative
  | nan, _ => false
  | _, nan => false

/-- `Math.max` -/
def max : JsNumber → JsNumber → JsNumber
  | nan, _ => nan
  | _, nan => nan
  | left, right => if left.less right then right else left

/-- Up to `2 ^ 53` all integers are numbers. -/
theorem ofInt_of_small {value : Int} (small : value.natAbs ≤ 2 ^ 53) :
    ofInt value = integer value := by
  have fits : value.natAbs.log2 < 54 := by
    rcases Nat.eq_zero_or_pos value.natAbs with isZero | positive
    · rw [isZero]
      decide
    · rw [Nat.log2_lt positive.ne']
      omega
  rw [ofInt, roundMagnitude, if_pos small, if_pos (by omega), Int.sign_mul_natAbs]

theorem add_of_small {left right : Int} (small : (left + right).natAbs ≤ 2 ^ 53) :
    (integer left).add (integer right) = integer (left + right) := ofInt_of_small small

theorem sub_of_small {left right : Int} (small : (left - right).natAbs ≤ 2 ^ 53) :
    (integer left).sub (integer right) = integer (left - right) := by
  rw [sub, neg, Int.sub_eq_add_neg]
  exact add_of_small (by rwa [← Int.sub_eq_add_neg])

theorem max_integer (left right : Int) :
    (integer left).max (integer right) = integer (Max.max left right) := by
  rw [max]
  · rw [less]
    simp only [decide_eq_true_eq]
    split
    next isLess => rw [max_eq_right isLess.le]
    next notLess => rw [max_eq_left (not_lt.mp notLess)]
  · exact fun equal => by cases equal
  · exact fun equal => by cases equal

/-- Rounding loses a unit just beyond the limit. -/
example : (integer (2 ^ 53)).add (integer 1) = integer (2 ^ 53) := by decide +kernel

/-! ## Comparing -/

/-- `===`: nothing is the same as NaN. -/
def same : JsNumber → JsNumber → Bool
  | nan, _ => false
  | left, right => left = right

theorem same_iff (left right : JsNumber) : left.same right = true ↔ left = right ∧ left ≠ nan := by
  cases left with
  | integer value => simp [same]
  | infinity negative => simp [same]
  | nan => simp [same]

/-- Neither negative nor a negative infinity. -/
def NonNegative (number : JsNumber) : Prop := number.less (integer 0) = false

theorem nonNegative_integer {value : Int} : (integer value).NonNegative ↔ 0 ≤ value := by
  simp [NonNegative, less]

theorem nonNegative_ofInt {value : Int} (positive : 0 ≤ value) : (ofInt value).NonNegative := by
  have notNegative : decide (value < 0) = false := decide_eq_false (not_lt.mpr positive)
  rw [ofInt]
  split
  · apply nonNegative_integer.mpr
    exact Int.mul_nonneg (Int.sign_nonneg_iff.mpr positive) (Int.natCast_nonneg _)
  · rw [notNegative]
    rfl

theorem nonNegative_infinity {negative : Bool} :
    (infinity negative).NonNegative ↔ negative = false := Iff.rfl

theorem nonNegative_nan : nan.NonNegative := rfl

theorem NonNegative.add {left right : JsNumber} (isLeft : left.NonNegative)
    (isRight : right.NonNegative) : (left.add right).NonNegative := by
  cases left with
  | integer value =>
      cases right with
      | integer value' =>
          apply nonNegative_ofInt
          exact Int.add_nonneg (nonNegative_integer.mp isLeft) (nonNegative_integer.mp isRight)
      | infinity negative => exact isRight
      | nan => exact nonNegative_nan
  | infinity negative =>
      cases right with
      | integer value => exact isLeft
      | infinity negative' =>
          rw [JsNumber.add]
          split
          · exact isLeft
          · exact nonNegative_nan
      | nan => exact nonNegative_nan
  | nan => exact nonNegative_nan

theorem max_nan (number : JsNumber) : number.max nan = nan ∧ nan.max number = nan := by
  cases number <;> exact ⟨rfl, rfl⟩

theorem max_choice {left right : JsNumber} (notLeft : left ≠ nan) (notRight : right ≠ nan) :
    left.max right = left ∨ left.max right = right := by
  rw [max]
  · split
    · exact .inr rfl
    · exact .inl rfl
  · exact notLeft
  · exact notRight

theorem max_eq_nan (left right : JsNumber) : left.max right = nan ↔ left = nan ∨ right = nan := by
  by_cases isLeft : left = nan
  · simp [isLeft, (max_nan right).2]
  · by_cases isRight : right = nan
    · simp [isRight, (max_nan left).1]
    · rcases max_choice isLeft isRight with same | same
      · simp [same, isLeft, isRight]
      · simp [same, isLeft, isRight]

theorem NonNegative.max {left right : JsNumber} (isLeft : left.NonNegative)
    (isRight : right.NonNegative) : (left.max right).NonNegative := by
  by_cases isNan : left = nan ∨ right = nan
  · rw [(max_eq_nan left right).mpr isNan]
    exact nonNegative_nan
  · push Not at isNan
    rcases max_choice isNan.1 isNan.2 with same | same
    · rwa [same]
    · rwa [same]

protected theorem max_self (number : JsNumber) : number.max number = number := by
  by_cases isNan : number = nan
  · rw [isNan, (max_nan nan).1]
  · rcases max_choice isNan isNan with same | same
    · exact same
    · exact same

theorem max_infinity_false {number : JsNumber} (notNan : number ≠ nan) :
    number.max (infinity false) = infinity false ∧ (infinity false).max number = infinity false := by
  cases number with
  | integer value => exact ⟨rfl, rfl⟩
  | infinity negative => cases negative <;> exact ⟨rfl, rfl⟩
  | nan => exact absurd rfl notNan

theorem max_infinity_true (number : JsNumber) :
    number.max (infinity true) = number ∧ (infinity true).max number = number := by
  cases number with
  | integer value => exact ⟨rfl, rfl⟩
  | infinity negative => cases negative <;> exact ⟨rfl, rfl⟩
  | nan => exact ⟨rfl, rfl⟩

protected theorem max_comm (left right : JsNumber) : left.max right = right.max left := by
  cases left with
  | nan => rw [(max_nan right).1, (max_nan right).2]
  | infinity negative =>
      cases negative with
      | true => rw [(max_infinity_true right).1, (max_infinity_true right).2]
      | false =>
          by_cases isNan : right = nan
          · rw [isNan, (max_nan _).1, (max_nan _).2]
          · rw [(max_infinity_false isNan).1, (max_infinity_false isNan).2]
  | integer value =>
      cases right with
      | nan => rfl
      | infinity negative => cases negative <;> rfl
      | integer value' => rw [max_integer, max_integer, Int.max_comm]

protected theorem max_assoc (left middle right : JsNumber) :
    (left.max middle).max right = left.max (middle.max right) := by
  by_cases isNan : left = nan ∨ middle = nan ∨ right = nan
  · have onLeft : (left.max middle).max right = nan := by
      rw [max_eq_nan, max_eq_nan, or_assoc]
      exact isNan
    have onRight : left.max (middle.max right) = nan := by
      rw [max_eq_nan, max_eq_nan]
      exact isNan
    rw [onLeft, onRight]
  · push Not at isNan
    obtain ⟨notLeft, notMiddle, notRight⟩ := isNan
    cases left with
    | nan => exact absurd rfl notLeft
    | infinity negative =>
        have notBoth : middle.max right ≠ nan := by
          intro isNan
          exact ((max_eq_nan _ _).mp isNan).elim notMiddle notRight
        cases negative with
        | true => rw [(max_infinity_true middle).2, (max_infinity_true _).2]
        | false =>
            rw [(max_infinity_false notMiddle).2, (max_infinity_false notRight).2,
              (max_infinity_false notBoth).2]
    | integer value =>
        cases middle with
        | nan => exact absurd rfl notMiddle
        | infinity negative =>
            cases negative with
            | true => rw [(max_infinity_true _).1, (max_infinity_true _).2]
            | false =>
                rw [(max_infinity_false notLeft).1, (max_infinity_false notRight).2,
                  (max_infinity_false notLeft).1]
        | integer value' =>
            cases right with
            | nan => exact absurd rfl notRight
            | infinity negative =>
                have notBoth : (integer value).max (integer value') ≠ nan := by
                  rw [max_integer]
                  exact fun equal => by cases equal
                cases negative with
                | true => rw [(max_infinity_true _).1, (max_infinity_true _).1]
                | false =>
                    rw [(max_infinity_false notBoth).1, (max_infinity_false notMiddle).1,
                      (max_infinity_false notLeft).1]
            | integer value'' =>
                rw [max_integer, max_integer, max_integer, max_integer, Int.max_assoc]

theorem zero_max {number : JsNumber} (nonNegative : number.NonNegative) :
    (integer 0).max number = number := by
  cases number with
  | integer value => rw [max_integer, Int.max_eq_right (nonNegative_integer.mp nonNegative)]
  | infinity negative =>
      rw [nonNegative_infinity.mp nonNegative]
      rfl
  | nan => rfl

end JsNumber

end FoundationsLab
