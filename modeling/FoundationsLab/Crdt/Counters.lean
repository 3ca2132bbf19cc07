import FoundationsLab.Crdt.JsString
import FoundationsLab.Foundation.InsertionMap
import FoundationsLab.Foundation.JsNumber

/-! # Counters

`GCounter` and `PNCounter` as the code has them: a map from replica ids to numbers, which
lists its values in the order in which the ids came. A clone is the same value again. -/

namespace FoundationsLab.Crdt

structure GCounter where
  replicaId : JsString
  counts : InsertionMap JsString JsNumber

namespace GCounter

def new (replicaId : JsString) : GCounter where
  replicaId := replicaId
  counts := .empty

/-- `counts.get(id) ?? 0` -/
def countIn (counts : InsertionMap JsString JsNumber) (id : JsString) : JsNumber :=
  (counts.get id).getD (.integer 0)

def increment (counter : GCounter) (n : JsNumber) : Except String GCounter :=
  if n.less (.integer 0) then .error "GCounter cannot decrease"
  else .ok { counter with
    counts := counter.counts.set counter.replicaId
      ((countIn counter.counts counter.replicaId).add n) }

def value (counter : GCounter) : JsNumber :=
  counter.counts.values.foldl JsNumber.add (.integer 0)

/-- The loop of `merge` over the entries of the other counter. -/
def mergeCounts (counts : InsertionMap JsString JsNumber) (entries : List (JsString × JsNumber)) :
    InsertionMap JsString JsNumber :=
  entries.foldl (fun counts entry =>
    counts.set entry.1 ((countIn counts entry.1).max entry.2)) counts

def merge (counter other : GCounter) : GCounter :=
  { counter with counts := mergeCounts counter.counts other.counts.entries }

end GCounter

structure PNCounter where
  replicaId : JsString
  p : GCounter
  n : GCounter

namespace PNCounter

def new (replicaId : JsString) : PNCounter where
  replicaId := replicaId
  p := .new replicaId
  n := .new replicaId

def increment (counter : PNCounter) (x : JsNumber) : Except String PNCounter := do
  let p ← counter.p.increment x
  return { counter with p := p }

def decrement (counter : PNCounter) (x : JsNumber) : Except String PNCounter := do
  let n ← counter.n.increment x
  return { counter with n := n }

def value (counter : PNCounter) : JsNumber := counter.p.value.sub counter.n.value

def merge (counter other : PNCounter) : PNCounter :=
  { counter with p := counter.p.merge other.p, n := counter.n.merge other.n }

end PNCounter

/-! ## One grow-only counter -/

namespace GCounter

open InsertionMap

theorem countIn_set (counts : InsertionMap JsString JsNumber) (id : JsString) (count : JsNumber)
    (other : JsString) :
    countIn (counts.set id count) other = if other = id then count else countIn counts other := by
  rw [countIn, get_set]
  split
  next => rfl
  next => rfl

/-- A merge takes the maximum of what the two have for an id. -/
theorem countIn_mergeCounts (entries : List (JsString × JsNumber))
    (nodup : (entries.map Prod.fst).Nodup) (counts : InsertionMap JsString JsNumber)
    (id : JsString) :
    countIn (mergeCounts counts entries) id =
      match entries.find? (·.1 = id) with
      | some entry => (countIn counts id).max entry.2
      | none => countIn counts id := by
  induction entries generalizing counts with
  | nil => rfl
  | cons head tail induction =>
      obtain ⟨notLater, nodupTail⟩ := List.nodup_cons.mp nodup
      change countIn (mergeCounts (counts.set head.1 _) tail) id = _
      rw [induction nodupTail]
      by_cases same : head.1 = id
      · have notFound : tail.find? (·.1 = id) = none := by
          rw [List.find?_eq_none]
          intro entry member isId
          have isHead : entry.1 = head.1 := by simpa [same] using isId
          exact notLater (List.mem_map.mpr ⟨entry, member, isHead⟩)
        rw [notFound, List.find?_cons_of_pos (by simpa using same)]
        dsimp only
        rw [countIn_set, if_pos same.symm, same]
      · rw [List.find?_cons_of_neg (by simpa using same), countIn_set,
          if_neg fun equal => same equal.symm]

theorem countIn_merge (counter other : GCounter) (id : JsString) :
    countIn (counter.merge other).counts id =
      match other.counts.get id with
      | some count => (countIn counter.counts id).max count
      | none => countIn counter.counts id := by
  rw [merge, countIn_mergeCounts _ other.counts.nodup, InsertionMap.get]
  cases other.counts.entries.find? (·.1 = id) with
  | none => rfl
  | some entry => rfl

theorem keys_mergeCounts (entries : List (JsString × JsNumber))
    (counts : InsertionMap JsString JsNumber) (id : JsString) :
    id ∈ (mergeCounts counts entries).keys ↔ id ∈ counts.keys ∨ id ∈ entries.map Prod.fst := by
  induction entries generalizing counts with
  | nil => simp [mergeCounts]
  | cons head tail induction =>
      change id ∈ (mergeCounts (counts.set head.1 _) tail).keys ↔ _
      rw [induction, keys_set, List.map_cons, List.mem_cons, or_assoc]

/-- The natural number that a count is. -/
def natural : JsNumber → Nat
  | .integer value => value.toNat
  | _ => 0

/-- Up to `2 ^ 53` the sum of the counts is exact. -/
theorem foldl_add (counts : List JsNumber) (start : Nat)
    (naturals : ∀ count ∈ counts, count = .integer (natural count))
    (small : start + (counts.map natural).sum ≤ 2 ^ 53) :
    counts.foldl JsNumber.add (.integer start) =
      .integer (start + (counts.map natural).sum : Nat) := by
  induction counts generalizing start with
  | nil => simp
  | cons head tail induction =>
      rw [List.map_cons, List.sum_cons] at small
      have isNatural := naturals head List.mem_cons_self
      rw [List.foldl_cons, isNatural, JsNumber.add_of_small (by omega)]
      have rest := induction (start + natural head)
        (fun count member => naturals count (List.mem_cons_of_mem _ member)) (by omega)
      push_cast at rest
      rw [rest, List.map_cons, List.sum_cons, ← isNatural]
      push_cast
      rw [Int.add_assoc]

end GCounter

end FoundationsLab.Crdt
