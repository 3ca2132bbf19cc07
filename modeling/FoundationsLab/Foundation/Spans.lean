import Mathlib.Order.Interval.Finset.Nat
import Mathlib.Tactic.Common

/-! # Spans of addresses

A span is a first address and a length. Spans that are apart from each other and inside
a range are together no longer than the range. -/

namespace FoundationsLab.Foundation.Spans

def Apart (span other : Nat × Nat) : Prop :=
  span.1 + span.2 ≤ other.1 ∨ other.1 + other.2 ≤ span.1

def total : List (Nat × Nat) → Nat
  | [] => 0
  | span :: spans => span.2 + total spans

/-- The addresses in the spans. -/
def covered : List (Nat × Nat) → Finset Nat
  | [] => ∅
  | span :: spans => Finset.Ico span.1 (span.1 + span.2) ∪ covered spans

theorem mem_covered {spans : List (Nat × Nat)} {address : Nat} :
    address ∈ covered spans ↔
      ∃ span ∈ spans, span.1 ≤ address ∧ address < span.1 + span.2 := by
  induction spans with
  | nil => simp [covered]
  | cons span spans induction => simp [covered, induction]

theorem card_covered {spans : List (Nat × Nat)} (apart : spans.Pairwise Apart) :
    (covered spans).card = total spans := by
  induction spans with
  | nil => rfl
  | cons span spans induction =>
      obtain ⟨here, later⟩ := List.pairwise_cons.mp apart
      have disjoint : Disjoint (Finset.Ico span.1 (span.1 + span.2)) (covered spans) := by
        rw [Finset.disjoint_left]
        intro address inSpan inOthers
        obtain ⟨other, member, lower, upper⟩ := mem_covered.mp inOthers
        have inSpan := Finset.mem_Ico.mp inSpan
        rcases here other member with below | above <;> omega
      rw [covered, Finset.card_union_of_disjoint disjoint, Nat.card_Ico, induction later, total]
      omega

theorem total_le {spans : List (Nat × Nat)} {low high : Nat} (apart : spans.Pairwise Apart)
    (inside : ∀ span ∈ spans, low ≤ span.1 ∧ span.1 + span.2 ≤ high) :
    total spans ≤ high - low := by
  have within : covered spans ⊆ Finset.Ico low high := by
    intro address member
    obtain ⟨span, isSpan, lower, upper⟩ := mem_covered.mp member
    have bounds := inside span isSpan
    exact Finset.mem_Ico.mpr ⟨by omega, by omega⟩
  have size := Finset.card_le_card within
  rwa [card_covered apart, Nat.card_Ico] at size

end FoundationsLab.Foundation.Spans
