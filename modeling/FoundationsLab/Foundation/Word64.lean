import Mathlib.Data.Nat.Bitwise
import Mathlib.Tactic.Common

/-! # Unsigned 64-bit arithmetic

Machine words are naturals, and the operations that can leave the range of a
word reduce their result modulo `2 ^ 64`. -/

namespace FoundationsLab.Foundation.Word64

def add (x y : Nat) : Nat := (x + y) % 2 ^ 64

def sub (x y : Nat) : Nat := (x + 2 ^ 64 - y) % 2 ^ 64

def mul (x y : Nat) : Nat := (x * y) % 2 ^ 64

/-- The bitwise complement. -/
def lnot (x : Nat) : Nat := 2 ^ 64 - (x + 1)

theorem add_of_lt {x y : Nat} (fits : x + y < 2 ^ 64) : add x y = x + y :=
  Nat.mod_eq_of_lt fits

theorem sub_of_le {x y : Nat} (bound : x < 2 ^ 64) (below : y ≤ x) : sub x y = x - y := by
  unfold sub
  have shifted : x + 2 ^ 64 - y = x - y + 2 ^ 64 := by omega
  rw [shifted, Nat.add_mod_right, Nat.mod_eq_of_lt (by omega)]

theorem mul_of_lt {x y : Nat} (fits : x * y < 2 ^ 64) : mul x y = x * y :=
  Nat.mod_eq_of_lt fits

theorem testBit_lnot {x : Nat} (bound : x < 2 ^ 64) (i : Nat) :
    (lnot x).testBit i = (decide (i < 64) && !x.testBit i) :=
  Nat.testBit_two_pow_sub_succ bound i

/-! ## Masks -/

/-- Numbers without a common bit add without a carry. -/
theorem add_eq_lor : ∀ {x y : Nat}, x &&& y = 0 → x + y = x ||| y := by
  intro x
  induction x using Nat.strongRecOn with
  | _ x induction =>
      intro y disjoint
      rcases Nat.eq_zero_or_pos x with rfl | positive
      · simp
      · have halves : x / 2 &&& y / 2 = 0 := by
          rw [← Nat.and_div_two, disjoint]
        have onHalves := induction (x / 2) (by omega) halves
        have high : (x ||| y) / 2 = x / 2 ||| y / 2 := Nat.or_div_two
        have low : (x ||| y) % 2 = x % 2 + y % 2 := by
          have lowOr := Nat.or_mod_two_pow (a := x) (b := y) (n := 1)
          have lowAnd := Nat.and_mod_two_pow (a := x) (b := y) (n := 1)
          simp only [pow_one] at lowOr lowAnd
          rw [disjoint] at lowAnd
          rcases Nat.mod_two_eq_zero_or_one x with isX | isX <;>
            rcases Nat.mod_two_eq_zero_or_one y with isY | isY <;> simp_all
        omega

/-- A word is the sum of what a mask clears and what it keeps. -/
theorem land_lnot_add_land {x mask : Nat} (bound : x < 2 ^ 64) (maskBound : mask < 2 ^ 64) :
    (x &&& lnot mask) + (x &&& mask) = x := by
  have disjoint : (x &&& lnot mask) &&& (x &&& mask) = 0 := by
    apply Nat.eq_of_testBit_eq
    intro i
    simp only [Nat.testBit_and, testBit_lnot maskBound, Nat.zero_testBit]
    cases x.testBit i <;> cases mask.testBit i <;> simp
  rw [add_eq_lor disjoint]
  apply Nat.eq_of_testBit_eq
  intro i
  simp only [Nat.testBit_or, Nat.testBit_and, testBit_lnot maskBound]
  by_cases inside : i < 64
  · cases x.testBit i <;> cases mask.testBit i <;> simp [inside]
  · have high : x.testBit i = false :=
      Nat.testBit_lt_two_pow (bound.trans_le (Nat.pow_le_pow_right (by decide) (not_lt.mp inside)))
    simp [high]

theorem land_lnot_le (x mask : Nat) : x &&& lnot mask ≤ x := Nat.and_le_left

theorem le_land_lnot_add (x mask : Nat) (bound : x < 2 ^ 64) (maskBound : mask < 2 ^ 64) :
    x ≤ (x &&& lnot mask) + mask := by
  have parts := land_lnot_add_land bound maskBound
  have kept : x &&& mask ≤ mask := Nat.and_le_right
  omega

/-- Clearing the low bits rounds down to a multiple. -/
theorem land_lnot_low {x k : Nat} (bound : x < 2 ^ 64) (small : k ≤ 64) :
    x &&& lnot (2 ^ k - 1) = x / 2 ^ k * 2 ^ k := by
  have power : 2 ^ k ≤ 2 ^ 64 := Nat.pow_le_pow_right (by decide) small
  have positive : 0 < 2 ^ k := Nat.two_pow_pos k
  have parts := land_lnot_add_land bound (by omega : 2 ^ k - 1 < 2 ^ 64)
  rw [Nat.and_two_pow_sub_one_eq_mod] at parts
  have division := Nat.div_add_mod' x (2 ^ k)
  omega

/-! ## Alignment -/

/-- Round `n` up by the usual mask trick. The alignment need not be a power of
two; then the result need not be a multiple of it either. -/
def alignUp (n alignment : Nat) : Nat := sub (add n alignment) 1 &&& lnot (sub alignment 1)

section Align

variable {n alignment : Nat}

theorem alignUp_eq (positive : 0 < alignment) (fits : n + alignment < 2 ^ 64) :
    alignUp n alignment = n + (alignment - 1) &&& lnot (alignment - 1) := by
  rw [alignUp, add_of_lt fits, sub_of_le fits (by omega), sub_of_le (by omega) positive,
    Nat.add_sub_assoc positive]

theorem le_alignUp (positive : 0 < alignment) (fits : n + alignment < 2 ^ 64) :
    n ≤ alignUp n alignment := by
  have whole := le_land_lnot_add (n + (alignment - 1)) (alignment - 1) (by omega) (by omega)
  rw [alignUp_eq positive fits]
  omega

theorem alignUp_lt (positive : 0 < alignment) (fits : n + alignment < 2 ^ 64) :
    alignUp n alignment < n + alignment := by
  have below := land_lnot_le (n + (alignment - 1)) (alignment - 1)
  rw [alignUp_eq positive fits]
  omega

theorem alignUp_lt_word (n alignment : Nat) : alignUp n alignment < 2 ^ 64 :=
  Nat.lt_of_le_of_lt (land_lnot_le _ _) (Nat.mod_lt _ (Nat.two_pow_pos 64))

/-- The result is a multiple of every power of two that divides the alignment,
also where the sum wraps around. -/
theorem dvd_alignUp {k : Nat} (small : k ≤ 64) (bound : alignment < 2 ^ 64)
    (divides : 2 ^ k ∣ alignment) : 2 ^ k ∣ alignUp n alignment := by
  apply Nat.dvd_of_mod_eq_zero
  have cleared : lnot (sub alignment 1) % 2 ^ k = 0 := by
    rcases Nat.eq_zero_or_pos alignment with rfl | positive
    · exact Nat.zero_mod _
    · have whole : lnot (sub alignment 1) = 2 ^ 64 - alignment := by
        rw [sub_of_le bound positive]
        unfold lnot
        omega
      rw [whole]
      exact Nat.mod_eq_zero_of_dvd (Nat.dvd_sub (pow_dvd_pow 2 small) divides)
  rw [alignUp, Nat.and_mod_two_pow, cleared, Nat.and_zero]

theorem alignUp_of_dvd {k : Nat} (small : k ≤ 64) (divides : 2 ^ k ∣ n)
    (fits : n + 2 ^ k < 2 ^ 64) : alignUp n (2 ^ k) = n := by
  have positive : 0 < 2 ^ k := Nat.two_pow_pos k
  obtain ⟨q, rfl⟩ := divides
  have lower := le_alignUp positive fits
  have upper := alignUp_lt positive fits
  obtain ⟨p, isMultiple⟩ := dvd_alignUp small (by omega) (dvd_refl (2 ^ k))
  rw [isMultiple] at lower upper ⊢
  have qp : q ≤ p := Nat.le_of_mul_le_mul_left lower positive
  have pq : p < q + 1 := Nat.lt_of_mul_lt_mul_left (a := 2 ^ k) (by rw [Nat.mul_add]; omega)
  rw [show p = q by omega]

end Align

end FoundationsLab.Foundation.Word64
