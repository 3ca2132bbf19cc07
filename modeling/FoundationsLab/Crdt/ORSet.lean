import FoundationsLab.Crdt.JsString
import FoundationsLab.Foundation.SortedMap
import Mathlib.Data.Finset.Lattice.Lemmas
import Mathlib.Data.List.Sort

/-! # The observed-remove set

`ORSet` as the code has it: tags that are strings, the tags of each element, and
one set of retired tags. The order in which a map lists its keys does not show. -/

namespace FoundationsLab.Crdt

open Foundation
open Foundation.Decimal

structure ORSet (α : Type) [LinearOrder α] where
  replicaId : JsString
  adds : SortedMap α (Finset JsString)
  removed : Finset JsString
  clock : Nat

namespace ORSet

variable {α : Type} [LinearOrder α]

def new (replicaId : JsString) : ORSet α where
  replicaId := replicaId
  adds := .empty
  removed := ∅
  clock := 0

def tag (replicaId : JsString) (clock : Nat) : JsString := replicaId ++ colon :: decimal clock

/-- The tags of an element, none when it has no entry. -/
def tags (set : ORSet α) (element : α) : Finset JsString := (set.adds.get element).getD ∅

def add (set : ORSet α) (element : α) : ORSet α :=
  { set with
    clock := set.clock + 1
    adds := set.adds.put element (insert (tag set.replicaId (set.clock + 1)) (set.tags element)) }

def remove (set : ORSet α) (element : α) : ORSet α :=
  match set.adds.get element with
  | none => set
  | some tags => { set with removed := set.removed ∪ tags }

def has (set : ORSet α) (element : α) : Bool :=
  match set.adds.get element with
  | none => false
  | some tags => decide (∃ t ∈ tags, t ∉ set.removed)

def values (set : ORSet α) : List α := (set.adds.entries.map Prod.fst).filter set.has

/-- The loop of `merge` over the entries of the other set. -/
def mergeAdds (adds : SortedMap α (Finset JsString)) (entries : List (α × Finset JsString)) :
    SortedMap α (Finset JsString) :=
  entries.foldl (fun adds entry => adds.put entry.1 ((adds.get entry.1).getD ∅ ∪ entry.2)) adds

def merge (set other : ORSet α) : ORSet α :=
  { set with
    adds := mergeAdds set.adds other.adds.entries
    removed := set.removed ∪ other.removed }

def equals (set other : ORSet α) : Bool :=
  let a := set.values.toFinset
  let b := other.values.toFinset
  a.card = b.card && decide (∀ element ∈ a, element ∈ b)

/-! ## Reading the state -/

theorem has_iff (set : ORSet α) (element : α) :
    set.has element = true ↔ ∃ t ∈ set.tags element, t ∉ set.removed := by
  rw [has, tags]
  cases set.adds.get element with
  | none => simp
  | some tags => simp

theorem mem_values (set : ORSet α) (element : α) :
    element ∈ set.values ↔ set.has element = true := by
  rw [values, List.mem_filter, List.mem_map]
  constructor
  · exact fun member => member.2
  · intro isThere
    refine ⟨?_, isThere⟩
    rw [has] at isThere
    cases found : set.adds.get element with
    | none =>
        rw [found] at isThere
        exact Bool.noConfusion isThere
    | some tags => exact ⟨(element, tags), SortedMap.mem_of_get found, rfl⟩

theorem tags_add (set : ORSet α) (element other : α) :
    (set.add element).tags other =
      if other = element then insert (tag set.replicaId (set.clock + 1)) (set.tags element)
      else set.tags other := by
  rw [add, tags, SortedMap.get_put]
  split <;> rfl

theorem removed_remove (set : ORSet α) (element : α) :
    (set.remove element).removed = set.removed ∪ set.tags element := by
  rw [remove, tags]
  cases set.adds.get element with
  | none => simp
  | some tags => rfl

theorem tags_remove (set : ORSet α) (element other : α) :
    (set.remove element).tags other = set.tags other := by
  rw [remove]
  cases set.adds.get element <;> rfl

/-! ## Merging -/

/-- Tags of two entries together; there is an entry when either has one. -/
def joinTags : Option (Finset JsString) → Option (Finset JsString) → Option (Finset JsString)
  | none, right => right
  | some left, none => some left
  | some left, some right => some (left ∪ right)

theorem get_mergeAdds : ∀ {entries : List (α × Finset JsString)}, Ascending entries →
    ∀ (adds : SortedMap α (Finset JsString)) (element : α),
      (mergeAdds adds entries).get element = joinTags (adds.get element) (entries.lookup element)
  | [], _, adds, element => by
      cases found : adds.get element <;> simp [mergeAdds, joinTags, found]
  | entry :: rest, ascending, adds, element => by
      obtain ⟨below, restAscending⟩ := ascending_cons.mp ascending
      have later := get_mergeAdds restAscending
        (adds.put entry.1 ((adds.get entry.1).getD ∅ ∪ entry.2)) element
      have step : mergeAdds adds (entry :: rest) =
          mergeAdds (adds.put entry.1 ((adds.get entry.1).getD ∅ ∪ entry.2)) rest := rfl
      rw [step, later, SortedMap.get_put, lookup_cons_eq]
      by_cases here : element = entry.1
      · have absent : rest.lookup element = none := by
          rw [here]
          exact lookup_eq_none_of_below below
        rw [if_pos here, if_pos here, absent, here]
        cases adds.get entry.1 <;> simp [joinTags]
      · rw [if_neg here, if_neg here]

theorem get_merge (set other : ORSet α) (element : α) :
    (set.merge other).adds.get element =
      joinTags (set.adds.get element) (other.adds.get element) :=
  get_mergeAdds other.adds.ascending set.adds element

theorem tags_merge (set other : ORSet α) (element : α) :
    (set.merge other).tags element = set.tags element ∪ other.tags element := by
  rw [tags, get_merge, tags, tags]
  cases set.adds.get element <;> cases other.adds.get element <;> simp [joinTags]

/-- The part of the state that is merged. -/
def state (set : ORSet α) : SortedMap α (Finset JsString) × Finset JsString :=
  (set.adds, set.removed)

theorem tag_injective {replicaId replicaId' : JsString} {clock clock' : Nat}
    (same : tag replicaId clock = tag replicaId' clock') :
    replicaId = replicaId' ∧ clock = clock' :=
  id_colon_clock_injective same

end ORSet

end FoundationsLab.Crdt
