import Mathlib.Data.List.Induction

namespace FoundationsLab

/-! A set that remembers the order in which its elements were first added, as the list of
its elements. -/

namespace InsertionSet

variable {Element : Type} [DecidableEq Element]

/-- Adding an element that is there already changes nothing, its place included. -/
def add (elements : List Element) (element : Element) : List Element :=
  if element ∈ elements then elements else elements ++ [element]

def addAll (elements : List Element) (added : List Element) : List Element :=
  added.foldl add elements

@[simp] theorem mem_add (elements : List Element) (element other : Element) :
    other ∈ add elements element ↔ other ∈ elements ∨ other = element := by
  rw [add]
  split
  next member =>
    constructor
    · exact Or.inl
    · rintro (isOld | rfl)
      · exact isOld
      · exact member
  next => simp

theorem addAll_nil (elements : List Element) : addAll elements [] = elements := rfl

theorem addAll_cons (elements : List Element) (head : Element) (tail : List Element) :
    addAll elements (head :: tail) = addAll (add elements head) tail := rfl

theorem addAll_concat (elements added : List Element) (last : Element) :
    addAll elements (added ++ [last]) = add (addAll elements added) last := by
  simp [addAll]

@[simp] theorem mem_addAll (elements added : List Element) (other : Element) :
    other ∈ addAll elements added ↔ other ∈ elements ∨ other ∈ added := by
  induction added generalizing elements with
  | nil => simp [addAll_nil]
  | cons head tail induction => rw [addAll_cons, induction]; simp [or_assoc]

/-- What was added before the first occurrence of an element stands before it in the set. -/
theorem exists_first_occurrence (added done rest : List Element) (element : Element)
    (same : addAll [] added = done ++ element :: rest) :
    ∃ before after, added = before ++ element :: after ∧ ∀ other ∈ before, other ∈ done := by
  induction added using List.reverseRecOn generalizing rest with
  | nil => simp [addAll_nil] at same
  | append_singleton front last induction =>
      rw [addAll_concat, add] at same
      split at same
      next =>
        obtain ⟨before, after, isFront, earlier⟩ := induction rest same
        exact ⟨before, after ++ [last], by simp [isFront], earlier⟩
      next =>
        rcases List.eq_nil_or_concat rest with rfl | ⟨shorter, final, rfl⟩
        · -- The element is the last one added, so everything else stands before it.
          obtain ⟨sameFront, sameLast⟩ := List.append_inj' same rfl
          cases sameLast
          refine ⟨front, [], rfl, fun other member => ?_⟩
          rw [← sameFront, mem_addAll]
          exact Or.inr member
        · rw [List.concat_eq_append, ← List.cons_append, ← List.append_assoc] at same
          obtain ⟨sameFront, -⟩ := List.append_inj' same rfl
          obtain ⟨before, after, isFront, earlier⟩ := induction shorter sameFront
          exact ⟨before, after ++ [last], by simp [isFront], earlier⟩

end InsertionSet

end FoundationsLab
