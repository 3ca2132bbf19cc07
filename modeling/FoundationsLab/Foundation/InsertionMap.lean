import Mathlib.Data.Finset.Dedup
import Mathlib.Data.List.Nodup
import Mathlib.Algebra.BigOperators.Group.Finset.Basic
import Mathlib.Algebra.GroupWithZero.Nat

namespace FoundationsLab

/-! A map that remembers the order in which its keys were first set. -/

structure InsertionMap (Key Value : Type) where
  entries : List (Key × Value)
  nodup : (entries.map Prod.fst).Nodup

namespace InsertionMap

variable {Key Value : Type} [DecidableEq Key]

def empty : InsertionMap Key Value := ⟨[], List.nodup_nil⟩

def keys (map : InsertionMap Key Value) : List Key := map.entries.map Prod.fst

def values (map : InsertionMap Key Value) : List Value := map.entries.map Prod.snd

def get (map : InsertionMap Key Value) (key : Key) : Option Value :=
  (map.entries.find? (·.1 = key)).map Prod.snd

/-- The entries with another value for one key, at its place. -/
def replaced (entries : List (Key × Value)) (key : Key) (value : Value) : List (Key × Value) :=
  entries.map fun entry => if entry.1 = key then (key, value) else entry

theorem keys_replaced (entries : List (Key × Value)) (key : Key) (value : Value) :
    (replaced entries key value).map Prod.fst = entries.map Prod.fst := by
  rw [replaced, List.map_map]
  apply List.map_congr_left
  intro entry member
  by_cases same : entry.1 = key
  · simp [same]
  · simp [same]

/-- A key that is there keeps its place, a new one comes last. -/
def set (map : InsertionMap Key Value) (key : Key) (value : Value) : InsertionMap Key Value :=
  if present : key ∈ map.keys then
    ⟨replaced map.entries key value, by rw [keys_replaced]; exact map.nodup⟩
  else
    ⟨map.entries ++ [(key, value)], by
      rw [List.map_append, List.nodup_append_comm]
      exact List.nodup_cons.mpr ⟨present, map.nodup⟩⟩

theorem keys_set (map : InsertionMap Key Value) (key : Key) (value : Value) (other : Key) :
    other ∈ (map.set key value).keys ↔ other ∈ map.keys ∨ other = key := by
  rw [set]
  split
  next present =>
    rw [keys, keys_replaced]
    constructor
    · exact Or.inl
    · rintro (member | rfl)
      · exact member
      · exact present
  next => simp [keys]

theorem find_replaced (entries : List (Key × Value)) (key : Key) (value : Value) (other : Key) :
    ((replaced entries key value).find? (·.1 = other)).map Prod.snd =
      if other = key ∧ key ∈ entries.map Prod.fst then some value
      else (entries.find? (·.1 = other)).map Prod.snd := by
  induction entries with
  | nil => simp [replaced]
  | cons head tail induction =>
      simp only [replaced, List.map_cons] at induction ⊢
      by_cases isKey : head.1 = key
      · by_cases isOther : key = other
        · simp [isKey, isOther]
        · have notOther : ¬ other = key := fun same => isOther same.symm
          rw [if_pos isKey, List.find?_cons_of_neg (by simp [isOther]),
            List.find?_cons_of_neg (by simp [isKey, isOther]), induction]
          simp [notOther]
      · by_cases isOther : head.1 = other
        · have notKey : ¬ other = key := fun same => isKey (isOther.trans same)
          simp [isOther, notKey]
        · have notHead : ¬ key = head.1 := fun same => isKey same.symm
          rw [if_neg isKey, List.find?_cons_of_neg (by simp [isOther]),
            List.find?_cons_of_neg (by simp [isOther]), induction]
          simp only [List.mem_cons, or_iff_right notHead]

@[simp] theorem get_empty (key : Key) : (empty : InsertionMap Key Value).get key = none := rfl

theorem get_set (map : InsertionMap Key Value) (key : Key) (value : Value) (other : Key) :
    (map.set key value).get other = if other = key then some value else map.get other := by
  rw [set]
  split
  next present =>
    rw [get, find_replaced]
    have present' : key ∈ map.entries.map Prod.fst := present
    simp [present', get]
  next absent =>
    have notFound : map.entries.find? (·.1 = key) = none := by
      rw [List.find?_eq_none]
      intro entry member same
      exact absent (List.mem_map.mpr ⟨entry, member, by simpa using same⟩)
    rw [get, get, List.find?_append]
    by_cases same : other = key
    · subst same
      simp [notFound]
    · have notSame : ¬ key = other := fun equal => same equal.symm
      simp [same, notSame]

/-- The value of a key is that of its only entry. -/
theorem get_of_mem (map : InsertionMap Key Value) {entry : Key × Value}
    (member : entry ∈ map.entries) : map.get entry.1 = some entry.2 := by
  obtain ⟨entries, nodup⟩ := map
  rw [get]
  dsimp only at member nodup ⊢
  induction entries with
  | nil => cases member
  | cons head tail induction =>
      obtain ⟨notLater, nodupTail⟩ := List.nodup_cons.mp nodup
      rcases List.mem_cons.mp member with same | later
      · subst same
        simp
      · have different : head.1 ≠ entry.1 := by
          intro same
          exact notLater (List.mem_map.mpr ⟨entry, later, same.symm⟩)
        rw [List.find?_cons_of_neg (by simpa using different)]
        exact induction nodupTail later

theorem mem_of_get (map : InsertionMap Key Value) {key : Key} {value : Value}
    (found : map.get key = some value) : (key, value) ∈ map.entries := by
  obtain ⟨entry, isEntry, isValue⟩ := Option.map_eq_some_iff.mp found
  have isKey : entry.1 = key := by simpa using List.find?_some isEntry
  have same : entry = (key, value) := Prod.ext isKey isValue
  exact same ▸ List.mem_of_find?_eq_some isEntry

theorem get_eq_none_iff (map : InsertionMap Key Value) (key : Key) :
    map.get key = none ↔ key ∉ map.keys := by
  constructor
  · intro absent present
    obtain ⟨entry, isEntry, rfl⟩ := List.mem_map.mp present
    rw [map.get_of_mem isEntry] at absent
    cases absent
  · intro absent
    cases found : map.get key with
    | none => rfl
    | some value => exact absurd (List.mem_map.mpr ⟨_, map.mem_of_get found, rfl⟩) absent

/-- A map with as many entries as another one, all of which the other one has, too, has no
others. -/
theorem get_eq_of_inside {map other : InsertionMap Key Value}
    (sameSize : map.entries.length = other.entries.length)
    (inside : ∀ entry ∈ map.entries, other.get entry.1 = some entry.2) (key : Key) :
    map.get key = other.get key := by
  cases found : map.get key with
  | some value => exact (inside _ (map.mem_of_get found)).symm
  | none =>
      have among : map.keys ⊆ other.keys := by
        intro key member
        obtain ⟨entry, isEntry, rfl⟩ := List.mem_map.mp member
        exact List.mem_map.mpr ⟨_, other.mem_of_get (inside entry isEntry), rfl⟩
      have sameLength : other.keys.length ≤ map.keys.length := by
        rw [keys, keys, List.length_map, List.length_map, sameSize]
      have isPerm : map.keys.Perm other.keys :=
        (List.subperm_of_subset map.nodup among).perm_of_length_le sameLength
      have absent := (map.get_eq_none_iff key).mp found
      exact ((other.get_eq_none_iff key).mpr fun present => absent (isPerm.mem_iff.mpr present)).symm

theorem length_eq_of_get {map other : InsertionMap Key Value}
    (same : ∀ key, map.get key = other.get key) : map.entries.length = other.entries.length := by
  have isPerm : map.keys.Perm other.keys := by
    apply (List.perm_ext_iff_of_nodup map.nodup other.nodup).mpr
    intro key
    rw [← not_iff_not, ← keys, ← keys, ← get_eq_none_iff, ← get_eq_none_iff, same]
  have sameLength := isPerm.length_eq
  rwa [keys, keys, List.length_map, List.length_map] at sameLength

/-- A sum over the values, key by key. -/
theorem sum_values (map : InsertionMap Key Value) {weigh : Value → Nat} {weight : Key → Nat}
    (weighed : ∀ key value, map.get key = some value → weigh value = weight key) :
    (map.values.map weigh).sum = ∑ key ∈ map.keys.toFinset, weight key := by
  have isSum : ∑ key ∈ map.keys.toFinset, weight key = (map.keys.map weight).sum :=
    List.sum_toFinset weight map.nodup
  rw [isSum, keys, values, List.map_map, List.map_map]
  apply congrArg List.sum
  apply List.map_congr_left
  intro entry member
  exact weighed entry.1 entry.2 (map.get_of_mem member)

end InsertionMap

end FoundationsLab
