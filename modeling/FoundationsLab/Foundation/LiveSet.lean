import Mathlib.Tactic.Common

namespace FoundationsLab

/-! A set that may be iterated while it changes. An entry that is removed leaves a hole, so that
the entries after it keep their places, and a new element goes to the end. An iteration is an
index into the entries. -/

namespace LiveSet

variable {Element : Type} [DecidableEq Element]

def add (entries : List (Option Element)) (element : Element) : List (Option Element) :=
  if some element ∈ entries then entries else entries ++ [some element]

def clear (entries : List (Option Element)) : List (Option Element) :=
  entries.map fun _ => none

@[simp] theorem mem_add (entries : List (Option Element)) (element other : Element) :
    some other ∈ add entries element ↔ some other ∈ entries ∨ other = element := by
  rw [add]
  split
  next member =>
    constructor
    · exact Or.inl
    · rintro (isOld | rfl)
      · exact isOld
      · exact member
  next => simp

omit [DecidableEq Element] in
@[simp] theorem not_mem_clear (entries : List (Option Element)) (element : Element) :
    some element ∉ clear entries := by
  simp [clear]

end LiveSet

end FoundationsLab
