import FoundationsLab.Deflate.BlockChoice

/-! # The bound on the output

A stored block is never estimated too low by more than the headers of the blocks after the
first, and the bound has room for these. So the bound holds for whatever is chosen. -/

namespace FoundationsLab.Deflate

section Bound

variable {input : List UInt8}

/-- Stored blocks stay within the bound. -/
theorem stored_le_bound (length : Nat) :
    length + 5 * storedCount length ≤ deflateBound length := by
  rw [storedCount, deflateBound, maxStored]
  omega

/-- One stored block is estimated within the bound. -/
theorem one_le_bound (length : Nat) : length + 5 ≤ deflateBound length := by
  rw [deflateBound, maxStored]
  omega

theorem storedBlocks_within (input : List UInt8) :
    ∃ total, Counts (storedBlocks input 0) total ∧ bytesOf (total 0) ≤ deflateBound input.length := by
  obtain ⟨total, counts, isTotal⟩ := storedBlocks_counts input 0
  have bound := stored_le_bound input.length
  refine ⟨total, counts, ?_⟩
  rw [isTotal 0 rfl, bytesOf, Nat.sub_zero]
  omega

theorem Built.chosen_counts {candidates : Candidates} (built : Built input candidates) :
    ∃ total, Counts (candidates.write input candidates.chosen) total ∧
      bytesOf (total 0) ≤ deflateBound input.length := by
  have least := candidates.bits_chosen .stored
  have isEstimate := bytesOf_stored built.estimated
  have bound := one_le_bound input.length
  have less : bytesOf (candidates.bits candidates.chosen) ≤ bytesOf candidates.storedBits :=
    bytesOf_mono least
  cases isChosen : candidates.chosen with
  | stored => exact storedBlocks_within input
  | fixed =>
      rw [isChosen] at less
      refine ⟨_, built.counts_fixed, ?_⟩
      rw [Nat.zero_add]
      exact Nat.le_trans less (by omega)
  | dynamic =>
      rw [isChosen] at less
      refine ⟨_, built.counts_dynamic, ?_⟩
      rw [Nat.zero_add]
      exact Nat.le_trans less (by omega)

theorem levelOf_le (level : Int) : levelOf level ≤ 9 := by
  rw [levelOf, levelDefault]
  split <;> omega

/-- Every input and level come down to one program that stays within the bound. -/
theorem compressTo_counts (input : List UInt8) (level : Int) :
    ∃ program total, Counts program total ∧ bytesOf (total 0) ≤ deflateBound input.length ∧
      ∀ outCap, compressTo input outCap level = .ok (program (bwInit outCap) >>= bwFinish) := by
  by_cases isEmpty : input = []
  · refine ⟨emitStored [] true, _, emitStored_counts [] true, ?_, ?_⟩
    · rw [isEmpty]
      decide
    · intro outCap
      rw [compressTo, if_pos (List.length_eq_zero_iff.mpr isEmpty)]
      rfl
  · by_cases isStore : levelOf level = 0
    · obtain ⟨total, counts, bound⟩ := storedBlocks_within input
      refine ⟨storedBlocks input 0, total, counts, bound, ?_⟩
      intro outCap
      have positive := List.length_pos_of_ne_nil isEmpty
      rw [compressTo, if_neg (Nat.ne_of_gt positive), if_pos isStore]
      rfl
    · obtain ⟨candidates, isMeasured, built⟩ := candidatesOf_built input (levelOf_le level)
      obtain ⟨total, counts, bound⟩ := built.chosen_counts
      exact ⟨_, total, counts, bound, compressTo_chosen isEmpty isStore isMeasured⟩

theorem compressTo_writes (input : List UInt8) (level : Int) :
    ∃ program bytes, bytes ≤ deflateBound input.length ∧ Writes program bytes ∧
      ∀ outCap, compressTo input outCap level = .ok (program (bwInit outCap) >>= bwFinish) := by
  obtain ⟨program, total, counts, bound, isProgram⟩ := compressTo_counts input level
  exact ⟨program, _, bound, counts.writes, isProgram⟩

end Bound

/-- With room for the bound the encoder returns the same bytes, no more than the bound,
and the container adds its header, the checksum and the length. -/
theorem compress_within_bound (input : List UInt8) (level : Int) :
    ∃ out, out.length ≤ deflateBound input.length ∧
      (∀ outCap, deflateBound input.length ≤ outCap →
        deflateCompress input outCap level = .ok (some (out.length, out))) ∧
      deflateCrc32 input = .ok (crc32Bitwise input) ∧
      ∀ outCap, deflateBound input.length + 18 ≤ outCap →
        gzipCompress input outCap level = .ok (some (out.length + 18, gzipHeader ++ out ++
          littleEndian (crc32Bitwise input).toNat ++ littleEndian (input.length % 2 ^ 32))) := by
  obtain ⟨program, bytes, bound, ⟨out, writes, isSize⟩, isProgram⟩ := compressTo_writes input level
  have compressed : ∀ outCap, deflateBound input.length ≤ outCap →
      deflateCompress input outCap level = .ok (some (out.length, out)) := by
    intro outCap room
    obtain ⟨w, finished, clear, isOut⟩ := writes outCap (by omega)
    rw [deflateCompress, isProgram, finished]
    dsimp only [bind, Except.bind, Option.map_some]
    rw [clear, isOut]
    rfl
  have isCrc : deflateCrc32 input = .ok (crc32Bitwise input) := by
    rw [deflateCrc32, crcLoop_eq]
    rfl
  refine ⟨out, by omega, compressed, isCrc, ?_⟩
  intro outCap room
  rw [gzipCompress, if_neg (by omega), compressed _ (by omega)]
  dsimp only [bind, Except.bind]
  rw [if_neg (by omega), isCrc]
  apply congrArg Except.ok
  apply congrArg some
  apply Prod.ext
  · show (10 + (out.length : Int) + 8) = out.length + 18
    omega
  · rfl

theorem compress_within_bound_bytes : ∃ out, out.length ≤ 16 ∧
    deflateCompress [1, 2, 3] 16 9 = .ok (some (out.length, out)) := by
  obtain ⟨out, bound, compressed, -⟩ := compress_within_bound [1, 2, 3] 9
  exact ⟨out, bound, compressed 16 (by decide)⟩

end FoundationsLab.Deflate
