import Mathlib.Tactic.Common
import Mathlib.Data.Nat.Bitwise

/-! # Byte-addressed memory

Little-endian 64-bit words over a memory of bytes. Most facts are about words
at aligned addresses: two of these are the same word or do not overlap. -/

namespace FoundationsLab.Foundation

def Memory : Type := Nat → UInt8

namespace Memory

/-- The `count` bytes from an address on, least significant first. -/
def loadBytes (mem : Memory) (start : Nat) : Nat → Nat
  | 0 => 0
  | count + 1 => (mem start).toNat + 256 * loadBytes mem (start + 1) count

def load64 (mem : Memory) (address : Nat) : Nat := loadBytes mem address 8

def store64 (mem : Memory) (address value : Nat) : Memory := fun other =>
  if address ≤ other ∧ other < address + 8 then UInt8.ofNat (value / 256 ^ (other - address))
  else mem other

/-- `memcpy` between areas that do not overlap. -/
def copy (mem : Memory) (target source count : Nat) : Memory := fun other =>
  if target ≤ other ∧ other < target + count then mem (source + (other - target)) else mem other

def fill (mem : Memory) (target : Nat) (byte : UInt8) (count : Nat) : Memory := fun other =>
  if target ≤ other ∧ other < target + count then byte else mem other

def storeByte (mem : Memory) (address : Nat) (byte : UInt8) : Memory := fun other =>
  if other = address then byte else mem other

/-! ## Words -/

theorem loadBytes_congr {mem mem' : Memory} : ∀ (address count : Nat),
    (∀ other, address ≤ other → other < address + count → mem' other = mem other) →
    loadBytes mem' address count = loadBytes mem address count
  | _, 0, _ => rfl
  | address, count + 1, same => by
      have rest := loadBytes_congr (address + 1) count
        fun other lower upper => same other (by omega) (by omega)
      simp only [loadBytes, rest, same address le_rfl (by omega)]

theorem load64_congr {mem mem' : Memory} {address : Nat}
    (same : ∀ other, address ≤ other → other < address + 8 → mem' other = mem other) :
    load64 mem' address = load64 mem address :=
  loadBytes_congr address 8 same

theorem loadBytes_lt (mem : Memory) : ∀ (address count : Nat),
    loadBytes mem address count < 256 ^ count
  | _, 0 => Nat.one_pos
  | address, count + 1 => by
      have rest := loadBytes_lt mem (address + 1) count
      have byte : (mem address).toNat < 256 := (mem address).toNat_lt
      rw [loadBytes, pow_succ]
      omega

theorem load64_lt (mem : Memory) (address : Nat) : load64 mem address < 2 ^ 64 :=
  loadBytes_lt mem address 8

theorem loadBytes_store64 (mem : Memory) (address value : Nat) : ∀ (offset count : Nat),
    offset + count = 8 →
    loadBytes (store64 mem address value) (address + offset) count =
      value / 256 ^ offset % 256 ^ count
  | _, 0, _ => by simp [loadBytes, Nat.mod_one]
  | offset, count + 1, whole => by
      have rest := loadBytes_store64 mem address value (offset + 1) count (by omega)
      have inside : address ≤ address + offset ∧ address + offset < address + 8 := by omega
      have byte : (store64 mem address value (address + offset)).toNat =
          value / 256 ^ offset % 256 := by
        rw [store64, if_pos inside, Nat.add_sub_cancel_left]
        simp
      rw [loadBytes, byte, Nat.add_assoc, rest, pow_succ 256 offset, ← Nat.div_div_eq_div_mul,
        pow_succ' 256 count, Nat.mod_mul]

theorem load64_store64 (mem : Memory) (address value : Nat) :
    load64 (store64 mem address value) address = value % 2 ^ 64 := by
  have whole := loadBytes_store64 mem address value 0 8 rfl
  simpa [load64] using whole

theorem store64_outside (mem : Memory) {address : Nat} (value : Nat) {other : Nat}
    (outside : other < address ∨ address + 8 ≤ other) :
    store64 mem address value other = mem other :=
  if_neg (by omega)

theorem load64_store64_disjoint (mem : Memory) {address other : Nat} (value : Nat)
    (disjoint : other + 8 ≤ address ∨ address + 8 ≤ other) :
    load64 (store64 mem address value) other = load64 mem other :=
  load64_congr fun _ _ _ => store64_outside mem value (by omega)

end Memory

end FoundationsLab.Foundation
