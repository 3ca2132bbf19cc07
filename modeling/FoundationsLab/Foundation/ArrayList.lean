import Mathlib.Data.List.Basic
import Mathlib.Tactic.Common

/-! # Indexed list updates that can fail

The index operations of `java.util.ArrayList`. An index outside the list throws
there, which is `none` here. Every lemma is stated at a split of the list, so
that a proof never computes with `take` and `drop`. -/

namespace FoundationsLab.Foundation.ArrayList

variable {α : Type*}

/-- `list.add(index, element)`. -/
def add (list : List α) (index : Nat) (element : α) : Option (List α) :=
  if index ≤ list.length then some (list.take index ++ element :: list.drop index) else none

/-- `list.set(index, element)`. -/
def set (list : List α) (index : Nat) (element : α) : Option (List α) :=
  if index < list.length then some (list.set index element) else none

/-- `list.remove(index)`: the removed element and the remaining list. -/
def remove (list : List α) (index : Nat) : Option (α × List α) :=
  list[index]?.map fun element => (element, list.eraseIdx index)

/-- `list.remove(list.size() - 1)`. -/
def removeLast (list : List α) : Option (α × List α) :=
  list.getLast?.map fun element => (element, list.dropLast)

theorem get_append (front : List α) (element : α) (back : List α) :
    (front ++ element :: back)[front.length]? = some element := by
  simp

theorem add_append (front back : List α) (element : α) :
    add (front ++ back) front.length element = some (front ++ element :: back) := by
  simp [add]

theorem set_append (front : List α) (old new : α) (back : List α) :
    set (front ++ old :: back) front.length new = some (front ++ new :: back) := by
  simp [set]

theorem remove_append (front : List α) (element : α) (back : List α) :
    remove (front ++ element :: back) front.length = some (element, front ++ back) := by
  simp [remove, List.eraseIdx_append_of_length_le]

theorem removeLast_append (front : List α) (element : α) :
    removeLast (front ++ [element]) = some (element, front) := by
  simp [removeLast]

/-- A list with room at `index` splits there. -/
theorem exists_append_of_lt {list : List α} {index : Nat} (inside : index < list.length) :
    ∃ front element back, list = front ++ element :: back ∧ front.length = index :=
  ⟨list.take index, list[index], list.drop (index + 1),
    by rw [List.getElem_cons_drop, List.take_append_drop],
    by simp [Nat.min_eq_left (Nat.le_of_lt inside)]⟩

/-- A non-empty list has a last element. -/
theorem exists_append_singleton {list : List α} (nonempty : 0 < list.length) :
    ∃ front element, list = front ++ [element] :=
  ⟨list.dropLast, list.getLast (List.ne_nil_of_length_pos nonempty),
    (List.dropLast_append_getLast _).symm⟩

end FoundationsLab.Foundation.ArrayList
