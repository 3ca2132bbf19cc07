import FoundationsLab.Foundation.BitStream
import Mathlib.Algebra.GroupWithZero.Nat

/-! # Canonical codes

A code that is given by its lengths alone: the codes of each length are consecutive
numbers, and the first one follows on the codes of the length before. A length of zero
means that a symbol has no code. -/

namespace FoundationsLab.Foundation.CanonicalCode

variable {lengths : List Nat} {length length' limit symbol symbol' : Nat}

/-- How many symbols have a code of this length. -/
def countOf (lengths : List Nat) (length : Nat) : Nat :=
  if length = 0 then 0 else lengths.count length

/-- The first code of a length. -/
def first (lengths : List Nat) : (length : Nat) → Nat
  | 0 => 0
  | length + 1 => 2 * (first lengths length + countOf lengths length)

/-- How many words of this length begin with a code. -/
def used (lengths : List Nat) (length : Nat) : Nat := first lengths length + countOf lengths length

/-- The number of the symbol among those of its length. -/
def rank (lengths : List Nat) (symbol : Nat) : Nat :=
  (lengths.take symbol).count (lengths.getD symbol 0)

def code (lengths : List Nat) (symbol : Nat) : Nat :=
  first lengths (lengths.getD symbol 0) + rank lengths symbol

/-- The words of the longest length that begin with a code, which Kraft's inequality
bounds by all words of this length. -/
def kraftSum (limit : Nat) (lengths : List Nat) : Nat :=
  ((lengths.filter (· ≠ 0)).map fun length => 2 ^ (limit - length)).sum

theorem used_succ (lengths : List Nat) (length : Nat) :
    used lengths (length + 1) = 2 * used lengths length + lengths.count (length + 1) := rfl

/-! ## Shorter codes take up room -/

theorem used_le_first (less : length < length') :
    used lengths length * 2 ^ (length' - length) ≤ first lengths length' := by
  induction length' with
  | zero => exact absurd less (Nat.not_lt_zero _)
  | succ length' induction =>
      rw [first]
      rcases Nat.lt_succ_iff_lt_or_eq.mp less with shorter | rfl
      · have before := induction shorter
        rw [Nat.sub_add_comm (Nat.le_of_lt shorter), Nat.pow_succ, ← Nat.mul_assoc]
        omega
      · rw [Nat.add_sub_cancel_left, Nat.pow_one, Nat.mul_comm]
        rfl

theorem used_le_used (less : length ≤ length') :
    used lengths length * 2 ^ (length' - length) ≤ used lengths length' := by
  rcases Nat.lt_or_eq_of_le less with shorter | rfl
  · exact (used_le_first shorter).trans (Nat.le_add_right _ _)
  · rw [Nat.sub_self, Nat.pow_zero, Nat.mul_one]

/-- Room at the longest length means room at all lengths. -/
theorem used_le_two_pow (room : used lengths limit ≤ 2 ^ limit) (less : length ≤ limit) :
    used lengths length ≤ 2 ^ length := by
  have grows := (used_le_used less).trans room
  rw [← Nat.add_sub_of_le less, Nat.pow_add, Nat.add_sub_cancel_left] at grows
  exact Nat.le_of_mul_le_mul_right grows (Nat.two_pow_pos _)

/-- A symbol takes up the words that begin with its code. -/
theorem used_cons (x : Nat) (lengths : List Nat) (length : Nat) :
    used (x :: lengths) length =
      used lengths length + if x ≠ 0 ∧ x ≤ length then 2 ^ (length - x) else 0 := by
  induction length with
  | zero =>
      rw [if_neg (by omega)]
      rfl
  | succ length induction =>
      rw [used_succ, used_succ, induction, List.count_cons]
      simp only [beq_iff_eq]
      rcases Nat.lt_trichotomy x (length + 1) with less | same | greater
      · have different : x ≠ length + 1 := by omega
        rw [if_neg different]
        by_cases isZero : x = 0
        · simp [isZero]
        · rw [if_pos (by omega), if_pos (by omega), Nat.sub_add_comm (by omega), Nat.pow_succ]
          omega
      · have tooLong : ¬ (x ≠ 0 ∧ x ≤ length) := by omega
        rw [if_pos same, if_neg tooLong, if_pos (by omega), same, Nat.sub_self, Nat.pow_zero]
        omega
      · have different : x ≠ length + 1 := by omega
        have tooLong : ¬ (x ≠ 0 ∧ x ≤ length) := by omega
        rw [if_neg different, if_neg tooLong, if_neg (by omega)]
        omega

theorem kraftSum_cons (limit x : Nat) (lengths : List Nat) :
    kraftSum limit (x :: lengths) = (if x ≠ 0 then 2 ^ (limit - x) else 0) + kraftSum limit lengths := by
  rw [kraftSum, List.filter_cons]
  by_cases isZero : x = 0
  · simp [isZero, kraftSum]
  · simp [isZero, kraftSum]

theorem kraftSum_append (limit : Nat) (lengths more : List Nat) :
    kraftSum limit (lengths ++ more) = kraftSum limit lengths + kraftSum limit more := by
  rw [kraftSum, List.filter_append, List.map_append, List.sum_append, kraftSum, kraftSum]

theorem kraftSum_replicate (limit count : Nat) (positive : length ≠ 0) :
    kraftSum limit (List.replicate count length) = count * 2 ^ (limit - length) := by
  induction count with
  | zero => exact (Nat.zero_mul _).symm
  | succ count induction =>
      rw [List.replicate_succ, kraftSum_cons, if_pos positive, induction, Nat.succ_mul,
        Nat.add_comm]

/-- The sum counts the words that the longest length uses. -/
theorem kraftSum_eq_used (bounded : ∀ x ∈ lengths, x ≤ limit) :
    kraftSum limit lengths = used lengths limit := by
  induction lengths with
  | nil =>
      induction limit with
      | zero => rfl
      | succ limit induction =>
          rw [used_succ, ← induction (fun _ member => absurd member List.not_mem_nil)]
          rfl
  | cons x lengths induction =>
      have short := bounded x List.mem_cons_self
      rw [kraftSum_cons, used_cons, induction fun y member => bounded y (.tail _ member)]
      by_cases isZero : x = 0
      · simp [isZero]
      · rw [if_pos isZero, if_pos ⟨isZero, short⟩]
        omega

/-! ## Codes -/

theorem rank_lt (inside : symbol < lengths.length) :
    rank lengths symbol < lengths.count (lengths.getD symbol 0) := by
  rw [rank, List.getD_eq_getElem _ _ inside]
  calc (lengths.take symbol).count lengths[symbol]
      < (lengths.take symbol).count lengths[symbol] +
          (lengths.drop symbol).count lengths[symbol] := by
        apply Nat.lt_add_of_pos_right
        rw [List.drop_eq_getElem_cons inside, List.count_cons_self]
        exact Nat.succ_pos _
    _ = lengths.count lengths[symbol] := by rw [← List.count_append, List.take_append_drop]

theorem code_lt_used (inside : symbol < lengths.length) (positive : lengths.getD symbol 0 ≠ 0) :
    code lengths symbol < used lengths (lengths.getD symbol 0) := by
  have inCount := rank_lt inside
  rw [code, used, countOf, if_neg positive]
  omega

/-- A code fits its length. -/
theorem code_lt (room : used lengths limit ≤ 2 ^ limit) (inside : symbol < lengths.length)
    (positive : lengths.getD symbol 0 ≠ 0) (bounded : lengths.getD symbol 0 ≤ limit) :
    code lengths symbol < 2 ^ lengths.getD symbol 0 :=
  (code_lt_used inside positive).trans_le (used_le_two_pow room bounded)

/-- The first bits of a longer code come after all codes that are as short. -/
theorem used_le_front (less : length < lengths.getD symbol 0) :
    used lengths length ≤ code lengths symbol / 2 ^ (lengths.getD symbol 0 - length) := by
  rw [Nat.le_div_iff_mul_le (Nat.two_pow_pos _)]
  exact (used_le_first less).trans (Nat.le_add_right _ _)

theorem rank_injective (inside : symbol < lengths.length) (inside' : symbol' < lengths.length)
    (sameLength : lengths.getD symbol 0 = lengths.getD symbol' 0)
    (sameRank : rank lengths symbol = rank lengths symbol') : symbol = symbol' := by
  have strict : ∀ {symbol symbol' : Nat}, symbol' < lengths.length → symbol < symbol' →
      lengths.getD symbol 0 = lengths.getD symbol' 0 → rank lengths symbol < rank lengths symbol' := by
    intro symbol symbol' inside less same
    have inFront : symbol < (lengths.take symbol').length := by
      rw [List.length_take]
      omega
    have before := rank_lt inFront
    have sameTake : (lengths.take symbol').getD symbol 0 = lengths.getD symbol 0 := by
      rw [List.getD_eq_getElem _ _ inFront, List.getElem_take,
        List.getD_eq_getElem _ _ (less.trans inside)]
    rw [rank, List.take_take, Nat.min_eq_left (Nat.le_of_lt less), sameTake] at before
    rw [rank, rank, ← same]
    exact before
  rcases Nat.lt_trichotomy symbol symbol' with less | same | less
  · exact absurd sameRank (strict inside' less sameLength).ne
  · exact same
  · exact absurd sameRank.symm (strict inside less sameLength.symm).ne

/-! ## Prefixes -/

open BitStream

/-- No code begins another one. -/
theorem prefix_free (room : used lengths limit ≤ 2 ^ limit) (bounded : ∀ x ∈ lengths, x ≤ limit)
    (inside : symbol < lengths.length) (inside' : symbol' < lengths.length)
    (positive : lengths.getD symbol 0 ≠ 0) (positive' : lengths.getD symbol' 0 ≠ 0)
    (isPrefix : wordOf (code lengths symbol) (lengths.getD symbol 0) <+:
      wordOf (code lengths symbol') (lengths.getD symbol' 0)) : symbol = symbol' := by
  have bounded' : ∀ {symbol}, symbol < lengths.length → lengths.getD symbol 0 ≤ limit := by
    intro symbol inside
    rw [List.getD_eq_getElem _ _ inside]
    exact bounded _ (List.getElem_mem inside)
  obtain ⟨shorter, isFront⟩ := wordOf_prefix isPrefix (code_lt room inside positive (bounded' inside))
    (code_lt room inside' positive' (bounded' inside'))
  rcases Nat.lt_or_eq_of_le shorter with less | same
  · have after := used_le_front less
    have before := code_lt_used inside positive
    omega
  · rw [same, Nat.sub_self, Nat.pow_zero, Nat.div_one] at isFront
    apply rank_injective inside inside' same
    rw [code, code, same] at isFront
    omega

end FoundationsLab.Foundation.CanonicalCode
