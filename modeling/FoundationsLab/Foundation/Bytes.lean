import Mathlib.Data.Nat.Basic
import Mathlib.Tactic.Ring

/-! # Byte strings

Big-endian integers in a byte string, and readers that take them off its front.
A reader is `none` when the bytes run out. -/

namespace FoundationsLab.Foundation

abbrev Bytes := List UInt8

/-- The low `width` bytes of a number, the most significant first. -/
def bigEndian : (width n : Nat) → Bytes
  | 0, _ => []
  | width + 1, n => UInt8.ofNat (n / 256 ^ width) :: bigEndian width n

def ofBigEndian (bytes : Bytes) : Nat := bytes.foldl (fun n byte => n * 256 + byte.toNat) 0

/-- The number that the low `bits` bits stand for in two's complement. -/
def signed (bits n : Nat) : Int := if n < 2 ^ (bits - 1) then n else n - 2 ^ bits

def takeBytes (count : Nat) (bytes : Bytes) : Option (Bytes × Bytes) :=
  if count ≤ bytes.length then some (bytes.take count, bytes.drop count) else none

def readUnsigned (width : Nat) (bytes : Bytes) : Option (Nat × Bytes) :=
  (takeBytes width bytes).map fun (front, rest) => (ofBigEndian front, rest)

def readInt (bytes : Bytes) : Option (Int × Bytes) :=
  (readUnsigned 4 bytes).map fun (n, rest) => (signed 32 n, rest)

def readLong (bytes : Bytes) : Option (Int × Bytes) :=
  (readUnsigned 8 bytes).map fun (n, rest) => (signed 64 n, rest)

def writeInt (n : Nat) : Bytes := bigEndian 4 n

def writeLong (n : Nat) : Bytes := bigEndian 8 n

/-! ## Round trips -/

@[simp] theorem length_bigEndian (width n : Nat) : (bigEndian width n).length = width := by
  induction width with
  | zero => rfl
  | succ width induction => simp [bigEndian, induction]

@[simp] theorem length_writeInt (n : Nat) : (writeInt n).length = 4 := length_bigEndian 4 n

@[simp] theorem length_writeLong (n : Nat) : (writeLong n).length = 8 := length_bigEndian 8 n

theorem foldl_bigEndian (width n acc : Nat) :
    (bigEndian width n).foldl (fun n byte => n * 256 + byte.toNat) acc =
      acc * 256 ^ width + n % 256 ^ width := by
  induction width generalizing acc with
  | zero => simp [bigEndian, Nat.mod_one]
  | succ width induction =>
      have byte : (UInt8.ofNat (n / 256 ^ width)).toNat = n / 256 ^ width % 256 := rfl
      have split : n % 256 ^ (width + 1) = n % 256 ^ width + 256 ^ width * (n / 256 ^ width % 256) :=
        Nat.mod_pow_succ
      rw [bigEndian, List.foldl_cons, induction, byte, split, pow_succ]
      ring

theorem ofBigEndian_bigEndian {width n : Nat} (bound : n < 256 ^ width) :
    ofBigEndian (bigEndian width n) = n := by
  rw [ofBigEndian, foldl_bigEndian, Nat.zero_mul, Nat.zero_add, Nat.mod_eq_of_lt bound]

theorem takeBytes_append (front rest : Bytes) :
    takeBytes front.length (front ++ rest) = some (front, rest) := by
  simp [takeBytes]

theorem takeBytes_of_lt {count : Nat} {bytes : Bytes} (short : bytes.length < count) :
    takeBytes count bytes = none :=
  if_neg (by omega)

theorem readUnsigned_append {width n : Nat} (bound : n < 256 ^ width) (rest : Bytes) :
    readUnsigned width (bigEndian width n ++ rest) = some (n, rest) := by
  have taken := takeBytes_append (bigEndian width n) rest
  rw [length_bigEndian] at taken
  simp [readUnsigned, taken, ofBigEndian_bigEndian bound]

theorem readInt_append {n : Nat} (bound : n < 2 ^ 31) (rest : Bytes) :
    readInt (writeInt n ++ rest) = some ((n : Int), rest) := by
  have read := readUnsigned_append (by omega : n < 256 ^ 4) rest
  simp only [readInt, writeInt, read, Option.map_some, signed]
  rw [if_pos bound]

theorem readLong_append {n : Nat} (bound : n < 2 ^ 63) (rest : Bytes) :
    readLong (writeLong n ++ rest) = some ((n : Int), rest) := by
  have read := readUnsigned_append (by omega : n < 256 ^ 8) rest
  simp only [readLong, writeLong, read, Option.map_some, signed]
  rw [if_pos bound]

theorem readInt_of_lt {bytes : Bytes} (short : bytes.length < 4) : readInt bytes = none := by
  simp [readInt, readUnsigned, takeBytes_of_lt short]

end FoundationsLab.Foundation
