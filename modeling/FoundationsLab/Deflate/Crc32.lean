import FoundationsLab.Deflate.BitReader
import FoundationsLab.Foundation.ShiftRegister

/-! # The checksum

`deflate_crc32` takes a byte at a time through a table. The definition that it is to
agree with takes the message bit by bit through a shift register. -/

namespace FoundationsLab.Deflate

open ShiftRegister

/-- The polynomial, lowest bit last. -/
def polynomial : BitVec 32 := 0xEDB88320#32

/-! ## As the code has it -/

/-- The inner loop, over `k`. -/
def tableEntryFrom : (turns : Nat) → BitVec 32 → BitVec 32
  | 0, c => c
  | turns + 1, c =>
      tableEntryFrom turns
        (if c &&& 1#32 ≠ 0#32 then 0xEDB88320#32 ^^^ (c >>> 1) else c >>> 1)

def crcTable : List (BitVec 32) :=
  (List.range 256).map fun i => tableEntryFrom 8 (BitVec.ofNat 32 i)

/-- `crc = table[(crc ^ data[i]) & 0xFF] ^ (crc >> 8)` -/
def crcStep (crc : BitVec 32) (byte : UInt8) : Df (BitVec 32) := do
  let index := (crc ^^^ byte.toBitVec.setWidth 32) &&& 0xFF#32
  let entry ← Checked.get crcTable index.toNat
  return entry ^^^ (crc >>> 8)

def crcLoop : List UInt8 → BitVec 32 → Df (BitVec 32)
  | [], crc => return crc
  | byte :: data, crc => do
      let crc ← crcStep crc byte
      crcLoop data crc

def deflateCrc32 (data : List UInt8) : Df (BitVec 32) := do
  let crc ← crcLoop data 0xFFFFFFFF#32
  return crc ^^^ 0xFFFFFFFF#32

/-! ## Bit by bit -/

/-- The bits of a byte in the order of the message, lowest first. -/
def bitsOf (byte : UInt8) : List Bool := (List.range 8).map fun i => byte.toBitVec.getLsbD i

def crc32Bitwise (data : List UInt8) : BitVec 32 :=
  feedAll polynomial 0xFFFFFFFF#32 (data.flatMap bitsOf) ^^^ 0xFFFFFFFF#32

/-! ## The table -/

theorem tableEntryFrom_eq (turns : Nat) (c : BitVec 32) :
    tableEntryFrom turns c = shifts polynomial turns c := by
  induction turns generalizing c with
  | zero => rfl
  | succ turns induction =>
      have low : (c &&& 1#32 ≠ 0#32) ↔ c.getLsbD 0 = true := by
        rw [BitVec.and_one_eq_setWidth_ofBool_getLsbD]
        cases c.getLsbD 0 <;> decide
      rw [tableEntryFrom, induction, shifts, shift, polynomial]
      simp only [low]

theorem get_crcTable {index : Nat} (inside : index < 256) :
    (Checked.get crcTable index : Df (BitVec 32)) =
      .ok (shifts polynomial 8 (BitVec.ofNat 32 index)) := by
  have found : crcTable[index]? = some (tableEntryFrom 8 (BitVec.ofNat 32 index)) := by
    rw [crcTable, List.getElem?_map, List.getElem?_range inside]
    rfl
  rw [Checked.get, found, tableEntryFrom_eq]

/-! ## One byte -/

theorem getLsbD_lowMask (i : Nat) : (0xFF#32).getLsbD i = decide (i < 8) := by
  have isMask : (0xFF#32).getLsbD i = Nat.testBit (2 ^ 8 - 1) i := by
    rw [BitVec.getLsbD_ofNat]
    by_cases inside : i < 32
    · simp [inside]
    · have high : Nat.testBit 255 i = false :=
        Nat.testBit_lt_two_pow (Nat.lt_of_lt_of_le (by decide : 255 < 2 ^ 32)
          (Nat.pow_le_pow_right (by decide) (by omega)))
      simp [inside, high]
  rw [isMask, Nat.testBit_two_pow_sub_one]

/-- A register is its low byte and the rest. -/
theorem split_low (register : BitVec 32) :
    register = (register &&& 0xFF#32) ^^^ (register &&& ~~~0xFF#32) := by
  apply BitVec.eq_of_getLsbD_eq
  intro i inside
  rw [BitVec.getLsbD_xor, BitVec.getLsbD_and, BitVec.getLsbD_and, BitVec.getLsbD_not]
  cases register.getLsbD i <;> cases (0xFF#32).getLsbD i <;> simp [inside]

theorem byte_eq_ofBits (byte : UInt8) :
    (byte.toBitVec.setWidth 32 : BitVec 32) = ofBits (bitsOf byte) := by
  apply BitVec.eq_of_getLsbD_eq
  intro i inside
  rw [getLsbD_ofBits inside, BitVec.getLsbD_setWidth, List.getD_eq_getElem?_getD, bitsOf,
    List.getElem?_map]
  by_cases small : i < 8
  · rw [List.getElem?_range small]
    simp [inside]
  · rw [List.getElem?_eq_none (by simp; omega), BitVec.getLsbD_of_ge _ _ (by omega)]
    simp

/-- A step through the table is eight steps of the register. -/
theorem crcStep_eq (crc : BitVec 32) (byte : UInt8) :
    crcStep crc byte = .ok (feedAll polynomial crc (bitsOf byte)) := by
  have eight : (bitsOf byte).length = 8 := by simp [bitsOf]
  rw [feedAll_eq polynomial (by omega) crc, eight, ← byte_eq_ofBits]
  generalize isMixed : crc ^^^ byte.toBitVec.setWidth 32 = mixed
  have bound : (mixed &&& 0xFF#32).toNat < 256 := by
    rw [BitVec.toNat_and]
    exact Nat.lt_of_le_of_lt Nat.and_le_right (by decide)
  have stays : shifts polynomial 8 (mixed &&& ~~~0xFF#32) = crc >>> 8 := by
    rw [shifts_of_low_zero]
    · apply BitVec.eq_of_getLsbD_eq
      intro i inside
      rw [BitVec.getLsbD_ushiftRight, BitVec.getLsbD_ushiftRight, BitVec.getLsbD_and,
        BitVec.getLsbD_not, getLsbD_lowMask, ← isMixed, BitVec.getLsbD_xor,
        BitVec.getLsbD_setWidth]
      by_cases top : 8 + i < 32
      · simp [top]
      · simp [top, BitVec.getLsbD_of_ge crc (8 + i) (by omega)]
    · intro i small
      rw [BitVec.getLsbD_and, BitVec.getLsbD_not, getLsbD_lowMask]
      simp [small]
  have leaves := shifts_xor polynomial 8 (mixed &&& 0xFF#32) (mixed &&& ~~~0xFF#32)
  rw [← split_low, stays] at leaves
  rw [leaves, crcStep, isMixed]
  change (Checked.get crcTable (mixed &&& 0xFF#32).toNat >>= fun entry =>
    pure (entry ^^^ (crc >>> 8))) = _
  rw [get_crcTable bound, BitVec.ofNat_toNat, BitVec.setWidth_eq]
  rfl

/-! ## Messages -/

theorem feedAll_append (feedback register : BitVec 32) (first second : List Bool) :
    feedAll feedback register (first ++ second) =
      feedAll feedback (feedAll feedback register first) second := by
  induction first generalizing register with
  | nil => rfl
  | cons bit bits induction => exact induction _

theorem crcLoop_eq (data : List UInt8) (crc : BitVec 32) :
    crcLoop data crc = .ok (feedAll polynomial crc (data.flatMap bitsOf)) := by
  induction data generalizing crc with
  | nil => rfl
  | cons byte data induction =>
      rw [List.flatMap_cons, feedAll_append, ← induction, crcLoop, crcStep_eq]
      rfl

/-- The table gives the checksum that the polynomial defines, and each of its steps
is eight steps of the shift register. -/
theorem crc32_bitwise :
    (∀ crc byte, crcStep crc byte = .ok (feedAll polynomial crc (bitsOf byte))) ∧
      ∀ data, deflateCrc32 data = .ok (crc32Bitwise data) := by
  constructor
  · exact crcStep_eq
  · intro data
    rw [deflateCrc32, crcLoop_eq]
    rfl

end FoundationsLab.Deflate
