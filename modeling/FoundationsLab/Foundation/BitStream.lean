import Mathlib.Algebra.Group.Nat.Defs
import Mathlib.Data.List.Basic
import Mathlib.Data.Nat.Bitwise
import Mathlib.Tactic.Common

/-! # Streams of bits

Numbers as lists of bits with the least significant bit first, and bytes packed out of
such a list eight bits at a time. -/

namespace FoundationsLab.Foundation.BitStream

/-- The low bits of a number, least significant first. -/
def bitsOf : (count value : Nat) → List Bool
  | 0, _ => []
  | count + 1, value => decide (value % 2 = 1) :: bitsOf count (value / 2)

def valueOf : List Bool → Nat
  | [] => 0
  | bit :: bits => bit.toNat + 2 * valueOf bits

@[simp] theorem length_bitsOf (count value : Nat) : (bitsOf count value).length = count := by
  induction count generalizing value with
  | zero => rfl
  | succ count induction => rw [bitsOf, List.length_cons, induction]

theorem bitsOf_add (count count' value : Nat) :
    bitsOf (count + count') value = bitsOf count value ++ bitsOf count' (value / 2 ^ count) := by
  induction count generalizing value with
  | zero => rw [Nat.zero_add, Nat.pow_zero, Nat.div_one]; rfl
  | succ count induction =>
      rw [show count + 1 + count' = count + count' + 1 by omega, bitsOf, bitsOf, induction,
        Nat.div_div_eq_div_mul, Nat.pow_succ']
      rfl

@[simp] theorem valueOf_bitsOf (count value : Nat) :
    valueOf (bitsOf count value) = value % 2 ^ count := by
  induction count generalizing value with
  | zero => rw [Nat.pow_zero, Nat.mod_one]; rfl
  | succ count induction =>
      rw [bitsOf, valueOf, induction, Nat.pow_succ', Nat.mod_mul]
      rcases Nat.mod_two_eq_zero_or_one value with isEven | isOdd
      · simp [isEven]
      · simp [isOdd]

@[simp] theorem bitsOf_valueOf (bits : List Bool) : bitsOf bits.length (valueOf bits) = bits := by
  induction bits with
  | nil => rfl
  | cons bit bits induction =>
      rw [List.length_cons, valueOf, bitsOf]
      have half : (bit.toNat + 2 * valueOf bits) / 2 = valueOf bits := by
        rw [Nat.add_mul_div_left _ _ Nat.two_pos]
        cases bit <;> simp
      have low : decide ((bit.toNat + 2 * valueOf bits) % 2 = 1) = bit := by
        cases bit <;> simp
      rw [half, low, induction]

theorem valueOf_lt (bits : List Bool) : valueOf bits < 2 ^ bits.length := by
  rw [← bitsOf_valueOf bits, valueOf_bitsOf, length_bitsOf]
  exact Nat.mod_lt _ (Nat.two_pow_pos _)

theorem valueOf_append (bits bits' : List Bool) :
    valueOf (bits ++ bits') = valueOf bits + 2 ^ bits.length * valueOf bits' := by
  induction bits with
  | nil => simp [valueOf]
  | cons bit bits induction =>
      rw [List.cons_append, valueOf, induction, valueOf, List.length_cons, Nat.pow_succ']
      rw [Nat.mul_add, Nat.mul_assoc]
      omega

theorem bitsOf_mod (count value : Nat) : bitsOf count (value % 2 ^ count) = bitsOf count value := by
  have same := bitsOf_valueOf (bitsOf count value)
  rwa [length_bitsOf, valueOf_bitsOf] at same

theorem valueOf_take (bits : List Bool) (count : Nat) :
    valueOf (bits.take count) = valueOf bits % 2 ^ count := by
  by_cases inside : count ≤ bits.length
  · have split := valueOf_append (bits.take count) (bits.drop count)
    rw [List.take_append_drop, List.length_take, Nat.min_eq_left inside] at split
    have small := valueOf_lt (bits.take count)
    rw [List.length_take, Nat.min_eq_left inside] at small
    rw [split, Nat.add_mul_mod_self_left, Nat.mod_eq_of_lt small]
  · rw [List.take_of_length_le (by omega)]
    have small := valueOf_lt bits
    have larger := Nat.pow_le_pow_right Nat.two_pos (by omega : bits.length ≤ count)
    rw [Nat.mod_eq_of_lt (by omega)]

theorem valueOf_drop (bits : List Bool) (count : Nat) :
    valueOf (bits.drop count) = valueOf bits / 2 ^ count := by
  by_cases inside : count ≤ bits.length
  · have split := valueOf_append (bits.take count) (bits.drop count)
    rw [List.take_append_drop, List.length_take, Nat.min_eq_left inside] at split
    have small := valueOf_lt (bits.take count)
    rw [List.length_take, Nat.min_eq_left inside] at small
    rw [split, Nat.add_mul_div_left _ _ (Nat.two_pow_pos count), Nat.div_eq_of_lt small, Nat.zero_add]
  · rw [List.drop_eq_nil_of_le (by omega)]
    have small := valueOf_lt bits
    have larger := Nat.pow_le_pow_right Nat.two_pos (by omega : bits.length ≤ count)
    rw [Nat.div_eq_of_lt (by omega)]
    rfl

/-- A value above another one in the same word. -/
theorem or_shift_eq {low high count : Nat} (small : low < 2 ^ count) :
    low ||| high <<< count = low + 2 ^ count * high := by
  rw [Nat.shiftLeft_eq, Nat.mul_comm high, Nat.or_comm, Nat.add_comm low]
  exact (Nat.two_pow_add_eq_or_of_lt small high).symm

/-! ## Words with the most significant bit first -/

/-- The bits of a number, most significant first. -/
def wordOf (value length : Nat) : List Bool := (bitsOf length value).reverse

@[simp] theorem length_wordOf (value length : Nat) : (wordOf value length).length = length := by
  rw [wordOf, List.length_reverse, length_bitsOf]

theorem wordOf_succ (value length : Nat) :
    wordOf value (length + 1) = decide (value / 2 ^ length % 2 = 1) :: wordOf value length := by
  rw [wordOf, bitsOf_add, List.reverse_append]
  rfl

/-- A word that begins another one is its quotient. -/
theorem wordOf_prefix {value value' length length' : Nat} (isPrefix : wordOf value length <+: wordOf value' length')
    (small : value < 2 ^ length) (small' : value' < 2 ^ length') :
    length ≤ length' ∧ value = value' / 2 ^ (length' - length) := by
  have shorter : length ≤ length' := by
    have lengths := isPrefix.length_le
    rwa [length_wordOf, length_wordOf] at lengths
  refine ⟨shorter, ?_⟩
  have isSuffix : bitsOf length value <:+ bitsOf length' value' := by
    rw [wordOf, wordOf, List.reverse_prefix] at isPrefix
    exact isPrefix
  have isEnd := List.suffix_iff_eq_drop.mp isSuffix
  rw [length_bitsOf, length_bitsOf] at isEnd
  have sameValue := congrArg valueOf isEnd
  rw [valueOf_bitsOf, valueOf_drop, valueOf_bitsOf, Nat.mod_eq_of_lt small,
    Nat.mod_eq_of_lt small'] at sameValue
  exact sameValue

/-! ## Bytes -/

def bitsOfBytes (bytes : List UInt8) : List Bool := bytes.flatMap fun byte => bitsOf 8 byte.toNat

/-- The whole bytes of the stream; bits that are left over do not show. -/
def packBytes (bits : List Bool) : List UInt8 :=
  if 8 ≤ bits.length then .ofNat (valueOf (bits.take 8)) :: packBytes (bits.drop 8) else []
termination_by bits.length

@[simp] theorem length_bitsOfBytes (bytes : List UInt8) :
    (bitsOfBytes bytes).length = 8 * bytes.length := by
  induction bytes with
  | nil => rfl
  | cons byte bytes induction =>
      rw [bitsOfBytes, List.flatMap_cons, List.length_append, length_bitsOf, List.length_cons]
      rw [bitsOfBytes] at induction
      omega

@[simp] theorem bitsOfBytes_append (bytes bytes' : List UInt8) :
    bitsOfBytes (bytes ++ bytes') = bitsOfBytes bytes ++ bitsOfBytes bytes' := List.flatMap_append

theorem packBytes_short {bits : List Bool} (short : bits.length < 8) : packBytes bits = [] := by
  rw [packBytes, if_neg (Nat.not_le_of_lt short)]

@[simp] theorem packBytes_nil : packBytes [] = [] := packBytes_short (Nat.succ_pos 7)

theorem length_packBytes (bits : List Bool) : (packBytes bits).length = bits.length / 8 := by
  induction bits using packBytes.induct with
  | case1 bits long induction =>
      rw [packBytes, if_pos long, List.length_cons, induction, List.length_drop]
      omega
  | case2 bits short =>
      rw [packBytes, if_neg short]
      simp only [List.length_nil]
      omega

/-- Whole bytes go first. -/
theorem packBytes_append {bits : List Bool} (bits' : List Bool) (whole : bits.length % 8 = 0) :
    packBytes (bits ++ bits') = packBytes bits ++ packBytes bits' := by
  induction bits using packBytes.induct with
  | case1 bits long induction =>
      have long' : 8 ≤ (bits ++ bits').length := by
        rw [List.length_append]
        omega
      rw [packBytes, if_pos long', packBytes.eq_1 bits, if_pos long, List.take_append_of_le_length long,
        List.drop_append_of_le_length long, induction (by rw [List.length_drop]; omega)]
      rfl
  | case2 bits short =>
      have isEmpty : bits = [] := List.eq_nil_of_length_eq_zero (by omega)
      rw [isEmpty, packBytes_nil]
      rfl

/-- The first bytes hold the first bits. -/
theorem packBytes_take (bits : List Bool) (count : Nat) :
    packBytes (bits.take (8 * count)) = (packBytes bits).take count := by
  have isLong := length_packBytes bits
  rcases Nat.le_total (8 * count) bits.length with inside | outside
  · have front : (bits.take (8 * count)).length = 8 * count := by
      rw [List.length_take]
      omega
    have isFront := length_packBytes (bits.take (8 * count))
    have whole : (bits.take (8 * count)).length % 8 = 0 := by omega
    have split := packBytes_append (bits.drop (8 * count)) whole
    rw [List.take_append_drop] at split
    rw [split, List.take_left' (by omega)]
  · rw [List.take_of_length_le outside, List.take_of_length_le (by omega)]

theorem packBytes_eight {bits : List Bool} (eight : bits.length = 8) :
    packBytes bits = [.ofNat (valueOf bits)] := by
  rw [packBytes, if_pos (by omega), List.take_of_length_le (by omega), packBytes_short]
  rw [List.length_drop]
  omega

/-- Bytes give back the bits they were packed from. -/
theorem bitsOfBytes_packBytes (bits : List Bool) :
    bitsOfBytes (packBytes bits) = bits.take (8 * (bits.length / 8)) := by
  induction bits using packBytes.induct with
  | case1 bits long induction =>
      have eight : (bits.take 8).length = 8 := by
        rw [List.length_take]
        omega
      have isByte : valueOf (bits.take 8) < 256 := by
        have small := valueOf_lt (bits.take 8)
        rwa [eight] at small
      have whole : 8 * (bits.length / 8) = 8 + 8 * ((bits.length - 8) / 8) := by omega
      rw [packBytes, if_pos long, bitsOfBytes, List.flatMap_cons, ← bitsOfBytes, induction,
        UInt8.toNat_ofNat_of_lt' isByte, List.length_drop, whole, List.take_add]
      have same := bitsOf_valueOf (bits.take 8)
      rw [eight] at same
      rw [same]
  | case2 bits short =>
      have none : 8 * (bits.length / 8) = 0 := by omega
      rw [packBytes, if_neg short, none]
      rfl

end FoundationsLab.Foundation.BitStream
