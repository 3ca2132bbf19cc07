import Mathlib.Algebra.BigOperators.Group.Finset.Basic
import Mathlib.Algebra.BigOperators.Group.Finset.Piecewise
import Mathlib.Algebra.Order.BigOperators.Group.Finset
import Mathlib.Data.Fintype.BigOperators

/-! # How often the parties hold something

Finitely many parties each hold a list. When one party changes, the tally over all of
them changes by what that party gives up and takes. -/

namespace FoundationsLab

variable {ι α β : Type*} [Fintype ι] [DecidableEq β]

/-- How often `x` is held, where `held` reads what a party holds from its state. -/
def tally (held : α → List β) (parties : ι → α) (x : β) : Nat :=
  ∑ i, (held (parties i)).count x

variable {held : α → List β} {parties : ι → α} {x : β}

theorem tally_update [DecidableEq ι] (held : α → List β) (parties : ι → α) (i : ι) (party : α)
    (x : β) : tally held (Function.update parties i party) x + (held (parties i)).count x =
      tally held parties x + (held party).count x := by
  have others : ∀ j ∈ Finset.univ \ {i},
      (held (Function.update parties i party j)).count x = (held (parties j)).count x := by
    intro j member
    rw [Function.update_of_ne (by simpa using member)]
  rw [tally, tally, Finset.sum_eq_sum_sdiff_singleton_add (Finset.mem_univ i),
    Finset.sum_eq_sum_sdiff_singleton_add (Finset.mem_univ i), Finset.sum_congr rfl others,
    Function.update_self]
  omega

theorem tally_of_empty (empty : ∀ i, held (parties i) = []) : tally held parties x = 0 :=
  Finset.sum_eq_zero fun i _ => by rw [empty i, List.count_nil]

theorem count_le_tally (held : α → List β) (parties : ι → α) (x : β) (i : ι) :
    (held (parties i)).count x ≤ tally held parties x := by
  have nonneg : ∀ j ∈ Finset.univ, 0 ≤ (held (parties j)).count x := fun _ _ => Nat.zero_le _
  exact Finset.single_le_sum nonneg (Finset.mem_univ i)

theorem tally_le_tally {held' : α → List β}
    (less : ∀ i, (held (parties i)).count x ≤ (held' (parties i)).count x) :
    tally held parties x ≤ tally held' parties x :=
  Finset.sum_le_sum fun i _ => less i

theorem tally_lt_tally {held' : α → List β}
    (less : ∀ i, (held (parties i)).count x ≤ (held' (parties i)).count x) {i : ι}
    (strict : (held (parties i)).count x < (held' (parties i)).count x) :
    tally held parties x < tally held' parties x :=
  Finset.sum_lt_sum (fun i _ => less i) ⟨i, Finset.mem_univ i, strict⟩

/-- Nothing is held where the tally of everything is zero. -/
theorem held_eq_nil (zero : ∀ x, tally held parties x = 0) (i : ι) : held (parties i) = [] := by
  refine List.eq_nil_iff_forall_not_mem.mpr fun x member => ?_
  have present := List.count_pos_iff.mpr member
  have bound := count_le_tally held parties x i
  have none := zero x
  omega

end FoundationsLab
