import Mathlib.Algebra.Group.Nat.Defs
import Mathlib.Data.List.Basic
import Mathlib.Tactic.Common

/-! # Byte lanes

Compares that fill a lane with ones, the mask of the lanes' top bits, and the number of
trailing zeros of a mask. The trailing zeros count the lanes before the first hit. -/

namespace FoundationsLab

namespace Lanes

/-! ## The instructions -/

def cmpeq (chunk : List UInt8) (c : UInt8) : List UInt8 :=
  chunk.map fun lane => if lane = c then 0xFF else 0

def or (left right : List UInt8) : List UInt8 := List.zipWith (· ||| ·) left right

/-- Bit `i` is the top bit of lane `i`. -/
def movemask : List UInt8 → Nat
  | [] => 0
  | lane :: rest => (if 0x80 ≤ lane then 1 else 0) + 2 * movemask rest

def complement (width mask : Nat) : Nat := 2 ^ width - 1 - mask

def ctz : (width mask : Nat) → Nat
  | 0, _ => 0
  | width + 1, mask => if mask % 2 = 1 then 0 else ctz width (mask / 2) + 1

/-! ## Lane by lane -/

/-- A lane of a compare. -/
def flag (hit : Bool) : UInt8 := if hit then 0xFF else 0

/-- The mask of a list of hits. -/
def bits : List Bool → Nat
  | [] => 0
  | hit :: rest => hit.toNat + 2 * bits rest

theorem cmpeq_eq (chunk : List UInt8) (c : UInt8) :
    cmpeq chunk c = chunk.map fun lane => flag (lane == c) := by
  refine List.map_congr_left fun lane _ => ?_
  by_cases same : lane = c
  · rw [if_pos same, same, beq_self_eq_true]
    rfl
  · rw [if_neg same, beq_eq_false_iff_ne.mpr same]
    rfl

theorem flag_or (left right : Bool) : flag left ||| flag right = flag (left || right) := by
  cases left <;> cases right <;> rfl

theorem or_eq (chunk : List UInt8) (left right : UInt8 → Bool) :
    or (chunk.map fun lane => flag (left lane)) (chunk.map fun lane => flag (right lane)) =
      chunk.map fun lane => flag (left lane || right lane) := by
  rw [or, List.zipWith_map, List.zipWith_self]
  exact List.map_congr_left fun lane _ => flag_or _ _

theorem movemask_eq (chunk : List UInt8) (hit : UInt8 → Bool) :
    movemask (chunk.map fun lane => flag (hit lane)) = bits (chunk.map hit) := by
  induction chunk with
  | nil => rfl
  | cons lane chunk induction =>
      rw [List.map_cons, List.map_cons, movemask, bits, induction]
      cases hit lane <;> rfl

/-! ## Masks -/

theorem bits_lt (hits : List Bool) : bits hits < 2 ^ hits.length := by
  induction hits with
  | nil => exact Nat.one_pos
  | cons hit hits induction =>
      rw [bits, List.length_cons, Nat.pow_succ]
      have bound := hit.toNat_lt
      omega

theorem complement_bits (hits : List Bool) :
    complement hits.length (bits hits) = bits (hits.map (!·)) := by
  induction hits with
  | nil => rfl
  | cons hit hits induction =>
      have bound := bits_lt hits
      rw [complement] at induction
      rw [complement, List.map_cons, bits, bits, ← induction, List.length_cons, Nat.pow_succ]
      cases hit
      · show 2 ^ hits.length * 2 - 1 - (0 + 2 * bits hits) = 1 + _
        omega
      · show 2 ^ hits.length * 2 - 1 - (1 + 2 * bits hits) = 0 + _
        omega

theorem bits_of_false {hits : List Bool} (none : ∀ hit ∈ hits, hit = false) : bits hits = 0 := by
  induction hits with
  | nil => rfl
  | cons hit hits induction =>
      rw [bits, none hit (List.mem_cons_self ..),
        induction fun other member => none other (List.mem_cons_of_mem _ member)]
      rfl

theorem ctz_bits (hits : List Bool) : ctz hits.length (bits hits) = hits.findIdx id := by
  induction hits with
  | nil => rfl
  | cons hit hits induction =>
      rw [List.length_cons, ctz, bits, List.findIdx_cons]
      cases hit
      · have even : (Bool.toNat false + 2 * bits hits) % 2 ≠ 1 := by
          show (0 + 2 * bits hits) % 2 ≠ 1
          omega
        have half : (Bool.toNat false + 2 * bits hits) / 2 = bits hits := by
          show (0 + 2 * bits hits) / 2 = bits hits
          omega
        rw [if_neg even, half, induction]
        rfl
      · have odd : (Bool.toNat true + 2 * bits hits) % 2 = 1 := by
          show (1 + 2 * bits hits) % 2 = 1
          omega
        rw [if_pos odd]
        rfl

end Lanes

end FoundationsLab
