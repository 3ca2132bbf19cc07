import FoundationsLab.Deflate.HuffCodes
import FoundationsLab.Deflate.Safety

/-! # The lengths of the fixed code -/

namespace FoundationsLab.Deflate

open Foundation.CanonicalCode

variable {symbol : Nat}

theorem fixedLitLen_getD (inside : symbol < numLiterals) :
    fixedLitLen.getD symbol 0 =
      if symbol < 144 then 8 else if symbol < 256 then 9 else if symbol < 280 then 7 else 8 := by
  rw [numLiterals] at inside
  simp only [fixedLitLen, List.getD_eq_getElem?_getD, List.getElem?_append, List.length_append,
    List.length_replicate, List.getElem?_replicate, numLiterals]
  by_cases low : symbol < 144
  · rw [if_pos (by omega), if_pos (by omega), if_pos low, if_pos low, if_pos low]
    rfl
  · by_cases middle : symbol < 256
    · rw [if_pos (by omega), if_pos (by omega), if_neg low, if_pos (by omega), if_neg low,
        if_pos middle]
      rfl
    · by_cases isLength : symbol < 280
      · rw [if_pos (by omega), if_neg (by omega), if_pos (by omega), if_neg low, if_neg middle,
          if_pos isLength]
        rfl
      · rw [if_neg (by omega), if_pos (by omega), if_neg low, if_neg middle, if_neg isLength]
        rfl

theorem fixedLitLen_positive (inside : symbol < numLiterals) :
    fixedLitLen.getD symbol 0 ≠ 0 := by
  rw [fixedLitLen_getD inside]
  split_ifs <;> decide

theorem fixedDistLen_getD (inside : symbol < numDistances) : fixedDistLen.getD symbol 0 = 5 := by
  rw [fixedDistLen, List.getD_replicate _ inside]

theorem fixedLitLen_bounded : ∀ length ∈ fixedLitLen, length ≤ maxCodeBits := by
  intro length member
  simp only [fixedLitLen, List.mem_append, List.mem_replicate] at member
  have isMax : maxCodeBits = 15 := rfl
  omega

theorem fixedDistLen_bounded : ∀ length ∈ fixedDistLen, length ≤ maxCodeBits := by
  intro length member
  have isMax : maxCodeBits = 15 := rfl
  have isFive := List.eq_of_mem_replicate member
  omega

theorem fixedLitLen_kraft : Kraft fixedLitLen := by
  rw [Kraft, fixedLitLen, kraftSum_append, kraftSum_append, kraftSum_append,
    kraftSum_replicate _ _ (by decide), kraftSum_replicate _ _ (by decide),
    kraftSum_replicate _ _ (by decide), kraftSum_replicate _ _ (by decide)]
  decide

theorem fixedDistLen_kraft : Kraft fixedDistLen := by
  rw [Kraft, fixedDistLen, kraftSum_replicate _ _ (by decide)]
  decide

theorem count_fixedLitLen (length : Nat) :
    fixedLitLen.count length =
      (if 8 = length then 150 else 0) + (if 9 = length then 112 else 0) +
        if 7 = length then 24 else 0 := by
  have isRest : numLiterals - 280 = 6 := rfl
  simp only [fixedLitLen, isRest, List.count_append, List.count_replicate, beq_iff_eq]
  split_ifs <;> omega

end FoundationsLab.Deflate
