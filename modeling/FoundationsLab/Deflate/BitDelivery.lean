import FoundationsLab.Deflate.BitReader
import FoundationsLab.Foundation.BitStream

/-! # What the reader delivers

A reader stands before a list of bits: those in its buffer and those of the bytes that
it has not read. A read takes them off the front. -/

namespace FoundationsLab.Deflate

open Foundation.BitStream

/-- These bits are to come, and nothing was read past the end. -/
structure Delivers (r : Bitreader) (stream : List Bool) : Prop where
  buffer : r.bitBuf < 2 ^ r.bitCount
  bits : bitsOf r.bitCount r.bitBuf ++ bitsOfBytes (r.input.drop r.pos) = stream
  bounded : stream.length ≤ 8 * r.input.length
  clear : r.underflow = false

section Reading

variable {r : Bitreader} {bits : List Bool}

theorem delivers_brInit (input : List UInt8) : Delivers (brInit input) (bitsOfBytes input) where
  buffer := Nat.one_pos
  bits := rfl
  bounded := (length_bitsOfBytes input).le
  clear := rfl

theorem Delivers.length (delivers : Delivers r bits) :
    bits.length = r.bitCount + 8 * (r.input.length - r.pos) := by
  rw [← delivers.bits, List.length_append, length_bitsOf, length_bitsOfBytes, List.length_drop]

theorem fill_delivers (count : Nat) (delivers : Delivers r bits) (enough : count ≤ bits.length) :
    ∃ r', fill r count = .ok r' ∧ Delivers r' bits ∧ count ≤ r'.bitCount := by
  induction r using fill.induct count with
  | case1 r short atEnd induction =>
      have total := delivers.length
      omega
  | case2 r short inside induction =>
      have isByte : r.pos < r.input.length := by omega
      rw [fill, if_pos short, if_neg inside, Checked.get, List.getElem?_eq_getElem isByte]
      apply induction
      have rest : bitsOfBytes (r.input.drop r.pos) =
          bitsOf 8 r.input[r.pos].toNat ++ bitsOfBytes (r.input.drop (r.pos + 1)) := by
        rw [List.drop_eq_getElem_cons isByte, bitsOfBytes, List.flatMap_cons]
        rfl
      constructor
      · dsimp only
        rw [or_shift_eq delivers.buffer, Nat.pow_add]
        have byte := r.input[r.pos].toNat_lt
        have buffer := delivers.buffer
        calc r.bitBuf + 2 ^ r.bitCount * r.input[r.pos].toNat
            < 2 ^ r.bitCount + 2 ^ r.bitCount * r.input[r.pos].toNat := by omega
          _ = 2 ^ r.bitCount * (r.input[r.pos].toNat + 1) := by rw [Nat.mul_add]; omega
          _ ≤ 2 ^ r.bitCount * 2 ^ 8 := Nat.mul_le_mul_left _ byte
      · dsimp only
        rw [← delivers.bits, rest, bitsOf_add, or_shift_eq delivers.buffer,
          Nat.add_mul_div_left _ _ (Nat.two_pow_pos _), Nat.div_eq_of_lt delivers.buffer, Nat.zero_add,
          ← bitsOf_mod r.bitCount (_ + _), Nat.add_mul_mod_self_left, bitsOf_mod, List.append_assoc]
      · exact delivers.bounded
      · exact delivers.clear
  | case3 r full =>
      rw [fill, if_neg full]
      exact ⟨r, rfl, delivers, Nat.le_of_not_lt full⟩

/-- A read takes the value of the next bits. -/
theorem brBits_delivers {count : Nat} (delivers : Delivers r bits) (enough : count ≤ bits.length) :
    ∃ r', brBits r count = .ok (valueOf (bits.take count), r') ∧ Delivers r' (bits.drop count) := by
  obtain ⟨r', filled, delivers', full⟩ := fill_delivers count delivers enough
  have whole := Nat.add_sub_of_le full
  have split : bitsOf r'.bitCount r'.bitBuf = bitsOf count r'.bitBuf ++
      bitsOf (r'.bitCount - count) (r'.bitBuf / 2 ^ count) := by
    rw [← bitsOf_add, whole]
  refine ⟨{ r' with bitBuf := r'.bitBuf >>> count, bitCount := r'.bitCount - count }, ?_, ?_⟩
  · rw [brBits, filled, ← delivers'.bits, split, List.append_assoc,
      List.take_left' (length_bitsOf _ _), valueOf_bitsOf]
    show Except.ok (r'.bitBuf &&& (1 <<< count - 1), _) = _
    rw [Nat.one_shiftLeft, Nat.and_two_pow_sub_one_eq_mod]
  · constructor
    · dsimp only
      rw [Nat.shiftRight_eq_div_pow, Nat.div_lt_iff_lt_mul (Nat.two_pow_pos _), ← Nat.pow_add,
        Nat.sub_add_cancel full]
      exact delivers'.buffer
    · dsimp only
      rw [← delivers'.bits, split, List.append_assoc, List.drop_left' (length_bitsOf _ _),
        Nat.shiftRight_eq_div_pow]
    · rw [List.length_drop]
      have bounded := delivers'.bounded
      dsimp only
      omega
    · exact delivers'.clear

/-- A field that was written is read. -/
theorem brBits_field {count : Nat} (value : Nat) {rest : List Bool}
    (delivers : Delivers r (bitsOf count value ++ rest)) :
    ∃ r', brBits r count = .ok (value % 2 ^ count, r') ∧ Delivers r' rest := by
  have enough : count ≤ (bitsOf count value ++ rest).length := by
    rw [List.length_append, length_bitsOf]
    exact Nat.le_add_right _ _
  obtain ⟨r', read, delivers'⟩ := brBits_delivers delivers enough
  rw [List.take_left' (length_bitsOf _ _), valueOf_bitsOf] at read
  rw [List.drop_left' (length_bitsOf _ _)] at delivers'
  exact ⟨r', read, delivers'⟩

theorem brBits_bit {bit : Bool} (delivers : Delivers r (bit :: bits)) :
    ∃ r', brBits r 1 = .ok (bit.toNat, r') ∧ Delivers r' bits := by
  obtain ⟨r', read, delivers'⟩ := brBits_delivers delivers (Nat.succ_le_succ (Nat.zero_le _))
  exact ⟨r', read, delivers'⟩

/-- Alignment drops the bits up to the next whole byte. -/
theorem brAlign_delivers (delivers : Delivers r bits) :
    ∃ r', brAlign r = .ok r' ∧ Delivers r' (bits.drop (bits.length % 8)) := by
  have total := delivers.length
  have same : r.bitCount % 8 = bits.length % 8 := by omega
  rw [brAlign, same]
  dsimp only
  split
  · obtain ⟨r', read, delivers'⟩ := brBits_delivers delivers (Nat.mod_le bits.length 8)
    exact ⟨r', by rw [read]; rfl, delivers'⟩
  · rename_i none
    rw [not_not.mp none]
    exact ⟨r, rfl, delivers⟩

end Reading

end FoundationsLab.Deflate
