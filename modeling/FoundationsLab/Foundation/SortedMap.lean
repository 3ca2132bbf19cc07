import Mathlib.Order.Lattice
import Mathlib.Algebra.GroupWithZero.Nat
import Mathlib.Data.List.Basic
import Mathlib.Data.List.Lex
import Mathlib.Tactic.Common

/-! # Sorted maps

Finite maps over a linearly ordered key type, kept as association lists with
strictly ascending keys. The list-level operations are stated on their own, so
that a concrete container can be compared with a map by comparing its flattened
entries. -/

namespace FoundationsLab.Foundation

variable {K V : Type*} [LinearOrder K]

/-! ## Ascending association lists -/

/-- The keys of an association list are strictly ascending. -/
def Ascending (entries : List (K × V)) : Prop :=
  (entries.map Prod.fst).Pairwise (· < ·)

/-- Bind `key` to `value`, keeping the list ascending. -/
def putEntry (key : K) (value : V) : List (K × V) → List (K × V)
  | [] => [(key, value)]
  | entry :: rest =>
      if key < entry.1 then (key, value) :: entry :: rest
      else if key = entry.1 then (key, value) :: rest
      else entry :: putEntry key value rest

/-- Drop the binding of `key`, if there is one. -/
def removeEntry (key : K) (entries : List (K × V)) : List (K × V) :=
  entries.filter (fun entry => entry.1 ≠ key)

/-- A key lies in the half-open window `[from, to)`; a missing bound is open. -/
def InRange (lower upper : Option K) (key : K) : Prop :=
  (∀ bound, lower = some bound → bound ≤ key) ∧
    (∀ bound, upper = some bound → key < bound)

instance (lower upper : Option K) (key : K) : Decidable (InRange lower upper key) := by
  unfold InRange
  cases lower <;> cases upper <;>
    simp only [reduceCtorEq, false_implies, implies_true, Option.some.injEq, forall_eq'] <;>
    infer_instance

/-- The entries whose keys lie in the window `[lower, upper)`. -/
def entriesInRange (lower upper : Option K) (entries : List (K × V)) : List (K × V) :=
  entries.filter (fun entry => InRange lower upper entry.1)

@[simp] theorem inRange_open (key : K) : InRange none none key := by
  simp [InRange]

@[simp] theorem entriesInRange_open (entries : List (K × V)) :
    entriesInRange none none entries = entries := by
  simp [entriesInRange]

@[simp] theorem Ascending.nil : Ascending ([] : List (K × V)) :=
  List.Pairwise.nil

theorem ascending_cons {entry : K × V} {rest : List (K × V)} :
    Ascending (entry :: rest) ↔
      (∀ other ∈ rest, entry.1 < other.1) ∧ Ascending rest := by
  simp [Ascending]

theorem ascending_append {front back : List (K × V)} :
    Ascending (front ++ back) ↔
      Ascending front ∧ Ascending back ∧
        ∀ left ∈ front, ∀ right ∈ back, left.1 < right.1 := by
  simp [Ascending, List.pairwise_append]

theorem Ascending.filter {entries : List (K × V)} (ascending : Ascending entries)
    (keep : K × V → Bool) : Ascending (entries.filter keep) :=
  List.Pairwise.sublist (List.filter_sublist.map Prod.fst) ascending

theorem Ascending.removeEntry {entries : List (K × V)} (ascending : Ascending entries)
    (key : K) : Ascending (removeEntry key entries) :=
  ascending.filter _

theorem mem_putEntry {key : K} {value : V} {entries : List (K × V)} {entry : K × V}
    (member : entry ∈ putEntry key value entries) :
    entry = (key, value) ∨ entry ∈ entries := by
  induction entries with
  | nil => exact .inl (by simpa [putEntry] using member)
  | cons head rest induction =>
      simp only [putEntry] at member
      split at member
      · simpa using member
      · split at member
        · rcases List.mem_cons.mp member with equal | inRest
          · exact .inl equal
          · exact .inr (List.mem_cons_of_mem _ inRest)
        · rcases List.mem_cons.mp member with equal | inRest
          · exact .inr (equal ▸ List.mem_cons_self)
          · exact (induction inRest).imp id (List.mem_cons_of_mem _)

theorem Ascending.putEntry {entries : List (K × V)} (ascending : Ascending entries)
    (key : K) (value : V) : Ascending (putEntry key value entries) := by
  induction entries with
  | nil => simp [FoundationsLab.Foundation.putEntry, Ascending]
  | cons head rest induction =>
      have parts := ascending_cons.mp ascending
      simp only [FoundationsLab.Foundation.putEntry]
      split
      · rename_i below
        refine ascending_cons.mpr ⟨fun other member => ?_, ascending⟩
        rcases List.mem_cons.mp member with equal | inRest
        · exact equal ▸ below
        · exact lt_trans below (parts.1 other inRest)
      · split
        · rename_i equal
          exact ascending_cons.mpr ⟨fun other member => equal ▸ parts.1 other member, parts.2⟩
        · rename_i notBelow notEqual
          refine ascending_cons.mpr ⟨fun other member => ?_, induction parts.2⟩
          rcases mem_putEntry member with equal | inRest
          · subst equal
            exact lt_of_le_of_ne (not_lt.mp notBelow) (Ne.symm notEqual)
          · exact parts.1 other inRest

/-! ## Lookup -/

theorem lookup_cons_eq (key : K) (entry : K × V) (rest : List (K × V)) :
    (entry :: rest).lookup key = if key = entry.1 then some entry.2 else rest.lookup key := by
  obtain ⟨entryKey, value⟩ := entry
  rw [List.lookup_cons]
  by_cases equal : key = entryKey
  · simp [equal]
  · simp [equal, beq_eq_false_iff_ne.mpr equal]

theorem lookup_eq_none_of_ne {key : K} {entries : List (K × V)}
    (absent : ∀ entry ∈ entries, entry.1 ≠ key) : entries.lookup key = none := by
  induction entries with
  | nil => rfl
  | cons entry rest induction =>
      have different : ¬ key = entry.1 := fun equal =>
        absent entry List.mem_cons_self equal.symm
      rw [lookup_cons_eq, if_neg different]
      exact induction fun other member => absent other (List.mem_cons_of_mem _ member)

theorem lookup_eq_none_of_below {key : K} {rest : List (K × V)}
    (below : ∀ other ∈ rest, key < other.1) : rest.lookup key = none :=
  lookup_eq_none_of_ne fun other member => (below other member).ne'

/-- In an ascending list, membership and lookup say the same. -/
theorem Ascending.lookup_eq_some_iff {entries : List (K × V)} (ascending : Ascending entries)
    {key : K} {value : V} : entries.lookup key = some value ↔ (key, value) ∈ entries := by
  induction entries with
  | nil => simp
  | cons entry rest induction =>
      have parts := ascending_cons.mp ascending
      rw [lookup_cons_eq, List.mem_cons]
      by_cases equal : key = entry.1
      · subst equal
        have notLater : ∀ later, (entry.1, later) ∉ rest := fun later member =>
          lt_irrefl entry.1 (parts.1 (entry.1, later) member)
        simp [notLater, Prod.ext_iff, eq_comm]
      · rw [if_neg equal, induction parts.2]
        simp [Prod.ext_iff, equal]

theorem lookup_putEntry (key : K) (value : V) {entries : List (K × V)}
    (ascending : Ascending entries) (other : K) :
    (putEntry key value entries).lookup other =
      if other = key then some value else entries.lookup other := by
  induction entries with
  | nil => simp [putEntry, lookup_cons_eq]
  | cons entry rest induction =>
      have parts := ascending_cons.mp ascending
      simp only [putEntry]
      split
      · rw [lookup_cons_eq]
      · split
        · rename_i equal
          rw [lookup_cons_eq, lookup_cons_eq]
          simp only [← equal]
          split <;> rfl
        · rename_i notBelow notEqual
          rw [lookup_cons_eq, lookup_cons_eq, induction parts.2]
          by_cases atHead : other = entry.1
          · have : other ≠ key := fun equal => notEqual (equal ▸ atHead)
            simp [atHead, Ne.symm notEqual]
          · simp [atHead]

theorem lookup_removeEntry (key : K) (entries : List (K × V)) (other : K) :
    (removeEntry key entries).lookup other =
      if other = key then none else entries.lookup other := by
  induction entries with
  | nil => simp [removeEntry]
  | cons entry rest induction =>
      simp only [removeEntry, List.filter_cons] at induction ⊢
      by_cases atHead : entry.1 = key
      · simp only [atHead, ne_eq, not_true_eq_false, decide_false, Bool.false_eq_true, if_false,
          induction, lookup_cons_eq]
        split <;> rfl
      · simp only [atHead, ne_eq, not_false_eq_true, decide_true, if_true, lookup_cons_eq,
          induction]
        by_cases equal : other = entry.1
        · simp [equal, atHead]
        · simp [equal]

/-- Two ascending lists with the same lookups are the same list. -/
theorem Ascending.ext {left right : List (K × V)} (leftAscending : Ascending left)
    (rightAscending : Ascending right)
    (same : ∀ key, left.lookup key = right.lookup key) : left = right := by
  have sameMembers : ∀ entry, entry ∈ left ↔ entry ∈ right := by
    rintro ⟨key, value⟩
    rw [← leftAscending.lookup_eq_some_iff, ← rightAscending.lookup_eq_some_iff, same]
  have strict : ∀ {entries : List (K × V)}, Ascending entries →
      entries.Pairwise (fun first second => first.1 < second.1) :=
    fun ascending => List.pairwise_map.mp ascending
  have nodup : ∀ {entries : List (K × V)}, Ascending entries → entries.Nodup := by
    intro entries ascending
    refine List.Pairwise.imp ?_ (strict ascending)
    intro first second below equal
    exact lt_irrefl first.1 (lt_of_lt_of_eq below (congrArg Prod.fst equal.symm))
  refine List.Perm.eq_of_pairwise
    (fun first second _ _ below above => absurd (lt_trans below above) (lt_irrefl _))
    (strict leftAscending) (strict rightAscending) ?_
  exact (List.perm_ext_iff_of_nodup (nodup leftAscending) (nodup rightAscending)).mpr sameMembers

theorem lookup_entriesInRange {entries : List (K × V)} (ascending : Ascending entries)
    (lower upper : Option K) (key : K) :
    (entriesInRange lower upper entries).lookup key =
      if InRange lower upper key then entries.lookup key else none := by
  have filtered : Ascending (entriesInRange lower upper entries) := ascending.filter _
  by_cases inside : InRange lower upper key
  · rw [if_pos inside]
    apply Option.ext
    intro value
    rw [filtered.lookup_eq_some_iff, ascending.lookup_eq_some_iff]
    simp [entriesInRange, inside]
  · rw [if_neg inside]
    apply lookup_eq_none_of_ne
    rintro entry member rfl
    exact inside (by simpa using (List.mem_filter.mp member).2)

/-! ## Entries that are put -/

/-- A new entry is added to those that were there. -/
theorem putEntry_perm {key : K} (value : V) {entries : List (K × V)}
    (absent : entries.lookup key = none) :
    (putEntry key value entries).Perm ((key, value) :: entries) := by
  induction entries with
  | nil => exact List.Perm.refl _
  | cons entry rest induction =>
      rw [lookup_cons_eq] at absent
      by_cases same : key = entry.1
      · rw [if_pos same] at absent
        cases absent
      · rw [if_neg same] at absent
        rw [putEntry, if_neg same]
        split
        · exact List.Perm.refl _
        · exact ((induction absent).cons entry).trans (List.Perm.swap _ _ _)

/-- An entry of a known key changes its value. -/
theorem putEntry_eq_map {key : K} (value : V) {entries : List (K × V)}
    (ascending : Ascending entries) (present : (entries.lookup key).isSome) :
    putEntry key value entries =
      entries.map fun entry => if entry.1 = key then (key, value) else entry := by
  induction entries with
  | nil => cases present
  | cons entry rest induction =>
      have parts := ascending_cons.mp ascending
      rw [lookup_cons_eq] at present
      by_cases same : key = entry.1
      · have others : rest.map (fun other => if other.1 = key then (key, value) else other) =
            rest := by
          refine (List.map_congr_left (g := id) ?_).trans (List.map_id _)
          intro other member
          have above := parts.1 other member
          exact if_neg (same ▸ above.ne')
        have notLess : ¬key < entry.1 := fun less => less.ne same
        rw [putEntry, if_neg notLess, if_pos same, List.map_cons, if_pos same.symm, others]
      · rw [if_neg same] at present
        rcases Option.isSome_iff_exists.mp present with ⟨old, found⟩
        have member := parts.2.lookup_eq_some_iff.mp found
        have above := parts.1 (key, old) member
        rw [putEntry, if_neg (not_lt.mpr above.le), if_neg same, List.map_cons,
          if_neg (Ne.symm same), induction parts.2 present]

/-! ## Working in the middle of a list -/

theorem putEntry_append_of_lt {key : K} {value : V} {front back : List (K × V)}
    (below : ∀ entry ∈ front, entry.1 < key) :
    putEntry key value (front ++ back) = front ++ putEntry key value back := by
  induction front with
  | nil => rfl
  | cons entry rest induction =>
      have headBelow := below entry List.mem_cons_self
      simp only [List.cons_append, putEntry]
      rw [if_neg (not_lt.mpr headBelow.le), if_neg headBelow.ne',
        induction fun other member => below other (List.mem_cons_of_mem _ member)]

theorem putEntry_append_of_gt {key : K} {value : V} {front back : List (K × V)}
    (above : ∀ entry ∈ back, key < entry.1) :
    putEntry key value (front ++ back) = putEntry key value front ++ back := by
  induction front with
  | nil =>
      cases back with
      | nil => rfl
      | cons entry rest => simp [putEntry, above entry List.mem_cons_self]
  | cons entry rest induction =>
      simp only [List.cons_append, putEntry]
      split
      · rfl
      · split
        · rfl
        · rw [induction, List.cons_append]

theorem removeEntry_append (key : K) (front back : List (K × V)) :
    removeEntry key (front ++ back) = removeEntry key front ++ removeEntry key back := by
  simp [removeEntry]

theorem removeEntry_of_ne {key : K} {entries : List (K × V)}
    (absent : ∀ entry ∈ entries, entry.1 ≠ key) : removeEntry key entries = entries := by
  simpa [removeEntry] using absent

theorem lookup_append_of_ne_left {key : K} {front back : List (K × V)}
    (absent : ∀ entry ∈ front, entry.1 ≠ key) :
    (front ++ back).lookup key = back.lookup key := by
  simp [List.lookup_append, lookup_eq_none_of_ne absent]

theorem lookup_append_of_ne_right {key : K} {front back : List (K × V)}
    (absent : ∀ entry ∈ back, entry.1 ≠ key) :
    (front ++ back).lookup key = front.lookup key := by
  simp [List.lookup_append, lookup_eq_none_of_ne absent]

/-! ## The bundled map -/

/-- A finite map as its ascending list of entries. -/
@[ext] structure SortedMap (K V : Type*) [LinearOrder K] where
  entries : List (K × V)
  ascending : Ascending entries

namespace SortedMap

@[simps] def empty : SortedMap K V where
  entries := []
  ascending := .nil

def get (map : SortedMap K V) (key : K) : Option V := map.entries.lookup key

def containsKey (map : SortedMap K V) (key : K) : Bool := (map.get key).isSome

def size (map : SortedMap K V) : Nat := map.entries.length

@[simps] def put (map : SortedMap K V) (key : K) (value : V) : SortedMap K V where
  entries := putEntry key value map.entries
  ascending := map.ascending.putEntry key value

@[simps] def remove (map : SortedMap K V) (key : K) : SortedMap K V where
  entries := removeEntry key map.entries
  ascending := map.ascending.removeEntry key

/-- The entries with `from ≤ key < to`, in ascending order. -/
def range (map : SortedMap K V) (lower upper : Option K) : List (K × V) :=
  entriesInRange lower upper map.entries

theorem range_ascending (map : SortedMap K V) (lower upper : Option K) :
    Ascending (map.range lower upper) :=
  map.ascending.filter _

@[simp] theorem get_empty (key : K) : (empty : SortedMap K V).get key = none := rfl

theorem get_put (map : SortedMap K V) (key : K) (value : V) (other : K) :
    (map.put key value).get other = if other = key then some value else map.get other :=
  lookup_putEntry key value map.ascending other

theorem get_remove (map : SortedMap K V) (key other : K) :
    (map.remove key).get other = if other = key then none else map.get other :=
  lookup_removeEntry key map.entries other

theorem get_of_mem {map : SortedMap K V} {entry : K × V} (member : entry ∈ map.entries) :
    map.get entry.1 = some entry.2 :=
  map.ascending.lookup_eq_some_iff.mpr member

theorem mem_of_get {map : SortedMap K V} {key : K} {value : V} (found : map.get key = some value) :
    (key, value) ∈ map.entries :=
  map.ascending.lookup_eq_some_iff.mp found

theorem get_eq_none {map : SortedMap K V} {key : K} (absent : ∀ entry ∈ map.entries, entry.1 ≠ key) :
    map.get key = none :=
  lookup_eq_none_of_ne absent

/-- Put entries one after the other. -/
def putAll (map : SortedMap K V) (entries : List (K × V)) : SortedMap K V :=
  entries.foldl (fun map entry => map.put entry.1 entry.2) map

/-- The entry with the greatest key that is not above `key`. -/
def floorEntry (map : SortedMap K V) (key : K) : Option (K × V) :=
  (map.entries.filter (·.1 ≤ key)).getLast?

theorem get_putAll : ∀ {entries : List (K × V)} (map : SortedMap K V), Ascending entries →
    ∀ key, (map.putAll entries).get key = (entries.lookup key).or (map.get key)
  | [], map, _, key => by simp [putAll]
  | entry :: rest, map, ascending, key => by
      have parts := ascending_cons.mp ascending
      have later := get_putAll (map.put entry.1 entry.2) parts.2 key
      have unfolded : map.putAll (entry :: rest) = (map.put entry.1 entry.2).putAll rest := rfl
      rw [unfolded, later, get_put, lookup_cons_eq]
      by_cases equal : key = entry.1
      · subst equal
        simp [lookup_eq_none_of_below parts.1]
      · simp [equal]

theorem mem_floorEntry {map : SortedMap K V} {key : K} {entry : K × V}
    (found : map.floorEntry key = some entry) : entry ∈ map.entries ∧ entry.1 ≤ key := by
  have member := List.mem_of_getLast? found
  simpa using List.mem_filter.mp member

theorem ext_get {left right : SortedMap K V} (same : ∀ key, left.get key = right.get key) :
    left = right :=
  SortedMap.ext (left.ascending.ext right.ascending same)

/-- Putting the entries of a map into the empty map gives the map. -/
theorem putAll_entries (map : SortedMap K V) : empty.putAll map.entries = map := by
  refine ext_get fun key => ?_
  rw [get_putAll _ map.ascending, get_empty, Option.or_none]
  rfl

theorem containsKey_iff (map : SortedMap K V) (key : K) :
    map.containsKey key = true ↔ ∃ value, map.get key = some value :=
  Option.isSome_iff_exists

theorem containsKey_eq_false (map : SortedMap K V) (key : K) :
    map.containsKey key = false ↔ map.get key = none := by
  rw [containsKey, Option.isSome_eq_false_iff, Option.isNone_iff_eq_none]

/-! ## Weights -/

/-- The sum of a weight over the entries. -/
def total (weigh : K × V → Nat) (map : SortedMap K V) : Nat := (map.entries.map weigh).sum

/-- The sum of a weight over the values. -/
def weight (weigh : V → Nat) (map : SortedMap K V) : Nat :=
  (map.entries.map fun entry => weigh entry.2).sum

theorem remove_of_absent {map : SortedMap K V} {key : K} (absent : map.get key = none) :
    map.remove key = map := ext_get fun other => by
  rw [get_remove]
  split
  · rename_i same
    rw [same, absent]
  · rfl

/-- The weight of an entry goes with its key. -/
theorem total_remove (weigh : K × V → Nat) (map : SortedMap K V) (key : K) :
    map.total weigh =
      ((map.get key).map fun value => weigh (key, value)).getD 0 + (map.remove key).total weigh := by
  cases found : map.get key with
  | none =>
      rw [remove_of_absent found]
      simp
  | some value =>
      obtain ⟨front, back, isEntries⟩ := List.append_of_mem (mem_of_get found)
      have ascending := map.ascending
      rw [isEntries, ascending_append, ascending_cons] at ascending
      obtain ⟨-, ⟨above, -⟩, below⟩ := ascending
      have onFront : ∀ entry ∈ front, entry.1 ≠ key := fun entry member =>
        (below entry member (key, value) List.mem_cons_self).ne
      have onBack : ∀ entry ∈ back, entry.1 ≠ key := fun entry member => (above entry member).ne'
      have removed : (map.remove key).entries = front ++ back := by
        have here : removeEntry key ((key, value) :: back) = removeEntry key back := by
          simp [removeEntry]
        rw [remove_entries, isEntries, removeEntry_append, here, removeEntry_of_ne onFront,
          removeEntry_of_ne onBack]
      rw [total, total, removed, isEntries]
      simp only [List.map_append, List.map_cons, List.sum_append, List.sum_cons, Option.map_some,
        Option.getD_some]
      omega

theorem total_put (weigh : K × V → Nat) (map : SortedMap K V) (key : K) (value : V) :
    (map.put key value).total weigh + ((map.get key).map fun old => weigh (key, old)).getD 0 =
      map.total weigh + weigh (key, value) := by
  have same : (map.put key value).remove key = map.remove key := ext_get fun other => by
    rw [get_remove, get_remove, get_put]
    split <;> rfl
  have before := total_remove weigh map key
  have after := total_remove weigh (map.put key value) key
  rw [same, get_put, if_pos rfl, Option.map_some, Option.getD_some] at after
  omega

/-- The weight of a value goes with its key. -/
theorem weight_remove (weigh : V → Nat) (map : SortedMap K V) (key : K) :
    map.weight weigh = ((map.get key).map weigh).getD 0 + (map.remove key).weight weigh :=
  total_remove (fun entry => weigh entry.2) map key

end SortedMap

end FoundationsLab.Foundation
