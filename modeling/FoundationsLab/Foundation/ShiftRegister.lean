import Mathlib.Tactic.Common

/-! Shift registers with feedback, bits coming out at the low end. A shift is
linear over exclusive or, so the effect of several shifts splits into that of the
bits that leave and that of the bits that stay. -/

namespace FoundationsLab
namespace ShiftRegister

variable {w : Nat}

def shift (feedback register : BitVec w) : BitVec w :=
  if register.getLsbD 0 then feedback ^^^ (register >>> 1) else register >>> 1

def shifts (feedback : BitVec w) : Nat → BitVec w → BitVec w
  | 0, register => register
  | count + 1, register => shifts feedback count (shift feedback register)

/-- One bit of a message goes in. -/
def feed (feedback register : BitVec w) (bit : Bool) : BitVec w :=
  if register.getLsbD 0 != bit then feedback ^^^ (register >>> 1) else register >>> 1

def feedAll (feedback : BitVec w) : BitVec w → List Bool → BitVec w
  | register, [] => register
  | register, bit :: bits => feedAll feedback (feed feedback register bit) bits

/-- The register that holds the bits, the first of them lowest. -/
def ofBits : List Bool → BitVec w
  | [] => 0#w
  | bit :: bits => (BitVec.ofBool bit).setWidth w ^^^ (ofBits bits <<< 1)

/-! ## Linearity -/

theorem shift_xor (feedback left right : BitVec w) :
    shift feedback (left ^^^ right) = shift feedback left ^^^ shift feedback right := by
  have cancel : ∀ first second : BitVec w,
      first ^^^ second = (feedback ^^^ first) ^^^ (feedback ^^^ second) := by
    intro first second
    rw [BitVec.xor_comm feedback first, BitVec.xor_assoc, ← BitVec.xor_assoc feedback,
      BitVec.xor_self, BitVec.zero_xor]
  rw [shift, shift, shift, BitVec.getLsbD_xor, BitVec.ushiftRight_xor_distrib]
  cases left.getLsbD 0 with
  | false =>
      cases right.getLsbD 0 with
      | false => rfl
      | true =>
          simp only [Bool.false_xor, if_true, Bool.false_eq_true, if_false]
          rw [← BitVec.xor_assoc, ← BitVec.xor_assoc, BitVec.xor_comm feedback]
  | true =>
      cases right.getLsbD 0 with
      | false =>
          simp only [Bool.xor_false, if_true, Bool.false_eq_true, if_false]
          rw [BitVec.xor_assoc]
      | true =>
          simp only [Bool.xor_self, if_true, Bool.false_eq_true, if_false]
          exact cancel _ _

theorem shifts_xor (feedback : BitVec w) (count : Nat) (left right : BitVec w) :
    shifts feedback count (left ^^^ right) =
      shifts feedback count left ^^^ shifts feedback count right := by
  induction count generalizing left right with
  | zero => rfl
  | succ count induction =>
      rw [shifts, shift_xor, induction]
      rfl

/-- While only zeros leave, nothing is fed back. -/
theorem shifts_of_low_zero (feedback : BitVec w) {count : Nat} {register : BitVec w}
    (isZero : ∀ i < count, register.getLsbD i = false) :
    shifts feedback count register = register >>> count := by
  induction count generalizing register with
  | zero => rw [shifts, BitVec.ushiftRight_zero]
  | succ count induction =>
      have first : shift feedback register = register >>> 1 := by
        rw [shift, isZero 0 (Nat.succ_pos _)]
        simp
      rw [shifts, first, induction, ← BitVec.shiftRight_add, Nat.add_comm]
      intro i small
      rw [BitVec.getLsbD_ushiftRight]
      exact isZero (1 + i) (by omega)

/-! ## Feeding a message -/

theorem getLsbD_ofBits {bits : List Bool} {i : Nat} (inside : i < w) :
    (ofBits bits : BitVec w).getLsbD i = bits.getD i false := by
  induction bits generalizing i with
  | nil => simp [ofBits]
  | cons bit bits induction =>
      rw [ofBits, BitVec.getLsbD_xor, BitVec.getLsbD_shiftLeft]
      cases i with
      | zero => simp [inside]
      | succ i =>
          have below := induction (show i < w by omega)
          simp [inside, below]

theorem feed_eq (feedback register : BitVec w) (positive : 0 < w) (bit : Bool) :
    feed feedback register bit =
      shift feedback (register ^^^ (BitVec.ofBool bit).setWidth w) := by
  have gone : (BitVec.ofBool bit).setWidth w >>> 1 = 0#w := by
    apply BitVec.eq_of_getLsbD_eq
    intro i inside
    simp [BitVec.getLsbD_setWidth]
  rw [feed, shift, BitVec.getLsbD_xor, BitVec.ushiftRight_xor_distrib, gone, BitVec.xor_zero]
  have low : ((BitVec.ofBool bit).setWidth w).getLsbD 0 = bit := by
    simp [positive]
  rw [low]

/-- Feeding bits one after the other is putting them all in and then shifting. -/
theorem feedAll_eq (feedback : BitVec w) {bits : List Bool} (fits : bits.length ≤ w)
    (register : BitVec w) :
    feedAll feedback register bits =
      shifts feedback bits.length (register ^^^ ofBits bits) := by
  induction bits generalizing register with
  | nil =>
      rw [feedAll, ofBits, BitVec.xor_zero]
      rfl
  | cons bit bits induction =>
      have short : bits.length + 1 ≤ w := fits
      have back : shift feedback (ofBits bits <<< 1) = ofBits bits := by
        have even : (ofBits bits <<< 1 : BitVec w).getLsbD 0 = false := by
          simp [BitVec.getLsbD_shiftLeft]
        rw [shift, even]
        apply BitVec.eq_of_getLsbD_eq
        intro i inside
        rw [if_neg (by decide), BitVec.getLsbD_ushiftRight, BitVec.getLsbD_shiftLeft]
        by_cases top : 1 + i < w
        · simp [top]
        · have beyond : bits[i]? = none := List.getElem?_eq_none (by omega)
          rw [getLsbD_ofBits inside, List.getD_eq_getElem?_getD, beyond]
          simp [top]
      rw [feedAll, induction (by omega), feed_eq feedback register (by omega)]
      change _ = shifts feedback bits.length (shift feedback (register ^^^ ofBits (bit :: bits)))
      rw [ofBits, ← BitVec.xor_assoc, shift_xor feedback (register ^^^ _), back]

end ShiftRegister
end FoundationsLab
