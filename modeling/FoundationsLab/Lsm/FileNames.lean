import FoundationsLab.Lsm.LsmTree

/-! # File names

The names of the tables. Below `10 ^ 8` all generations have names of one length,
and the names are ordered as the generations. -/

namespace FoundationsLab.Lsm

open Foundation
open Foundation.Decimal

theorem sstFile_eq {gen : Nat} (bound : gen < 10 ^ 8) :
    sstFile gen = tablePrefix ++ (numeral 8 gen ++ tableSuffix) := by
  rw [sstFile, formatPadded_of_lt (by decide) bound, List.append_assoc]

/-- The number of digits in the name of a generation. -/
def nameWidth (gen : Nat) : Nat := max 8 (Nat.toDigits 10 gen).length

theorem lt_pow_nameWidth (gen : Nat) : gen < 10 ^ nameWidth gen :=
  (Nat.length_toDigits_le_iff (by decide) (by rw [nameWidth]; omega)).mp (Nat.le_max_right _ _)

theorem sstFile_eq_numeral (gen : Nat) :
    sstFile gen = tablePrefix ++ (numeral (nameWidth gen) gen ++ tableSuffix) := by
  rw [sstFile, formatPadded, List.append_assoc]
  rfl

/-- Where two strings of one length differ, nothing behind them matters. -/
theorem append_lt_append_of_lt {front back : JavaString} (rest rest' : JavaString)
    (below : front < back) (same : front.length = back.length) : front ++ rest < back ++ rest' := by
  induction front generalizing back with
  | nil =>
      have empty : back = [] := List.length_eq_zero_iff.mp same.symm
      rw [empty] at below
      exact absurd below (lt_irrefl _)
  | cons unit front induction =>
      cases back with
      | nil => simp at same
      | cons other back =>
          rw [List.cons_append, List.cons_append, List.cons_lt_cons_iff]
          rcases List.cons_lt_cons_iff.mp below with less | ⟨equal, later⟩
          · exact .inl less
          · exact .inr ⟨equal, induction later (by simpa using same)⟩

theorem sstFile_lt {gen gen' : Nat} (below : gen < gen') (bound : gen' < 10 ^ 8) :
    sstFile gen < sstFile gen' := by
  rw [sstFile_eq (below.trans bound), sstFile_eq bound]
  refine List.append_left_lt (append_lt_append_of_lt _ _ (numeral_lt below bound) ?_)
  rw [length_numeral, length_numeral]

theorem sstFile_injective {gen gen' : Nat} (bound : gen < 10 ^ 8) (bound' : gen' < 10 ^ 8)
    (same : sstFile gen = sstFile gen') : gen = gen' := by
  rcases Nat.lt_trichotomy gen gen' with below | equal | above
  · exact absurd same (sstFile_lt below bound').ne
  · exact equal
  · exact absurd same (sstFile_lt above bound).ne'

/-- A name of eight digits has a generation of eight digits. -/
theorem lt_of_length_sstFile {gen : Nat} (short : (sstFile gen).length ≤ 19) : gen < 10 ^ 8 := by
  have digits := length_numeral (max 8 (Nat.toDigits 10 gen).length) gen
  have front : tablePrefix.length = 8 := rfl
  have back : tableSuffix.length = 3 := rfl
  rw [sstFile, formatPadded, List.length_append, List.length_append, digits, front, back] at short
  exact (Nat.length_toDigits_le_iff (by decide) (by decide)).mp (by omega)

theorem isTable_sstFile (gen : Nat) : isTable (sstFile gen) = true := by
  have front : tablePrefix <+: sstFile gen := by
    rw [sstFile, List.append_assoc]
    exact List.prefix_append _ _
  have back : tableSuffix <:+ sstFile gen := List.suffix_append _ _
  rw [isTable, List.isPrefixOf_iff_prefix.mpr front, List.isSuffixOf_iff_suffix.mpr back]
  rfl

theorem isTable_walFile : isTable walFile = false := by decide

theorem sstFile_ne_walFile (gen : Nat) : sstFile gen ≠ walFile := fun same => by
  have contradiction := isTable_sstFile gen
  rw [same, isTable_walFile] at contradiction
  exact Bool.noConfusion contradiction

theorem generation_sstFile_of_int {gen : Nat} (isInt : gen < 2 ^ 31) :
    generation (sstFile gen) = some (gen : Int) := by
  have digits : ((sstFile gen).drop tablePrefix.length).take
      ((sstFile gen).length - tableSuffix.length - tablePrefix.length) =
        numeral (nameWidth gen) gen := by
    have width := length_numeral (nameWidth gen) gen
    rw [sstFile_eq_numeral, List.drop_left]
    refine List.take_left' ?_
    simp only [List.length_append]
    omega
  have positive : 0 < nameWidth gen := by
    rw [nameWidth]
    omega
  rw [generation, digits]
  exact parseInt_numeral positive (lt_pow_nameWidth gen) isInt

theorem generation_sstFile {gen : Nat} (bound : gen < 10 ^ 8) :
    generation (sstFile gen) = some (gen : Int) :=
  generation_sstFile_of_int (by omega)

end FoundationsLab.Lsm
