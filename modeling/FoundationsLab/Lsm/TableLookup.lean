import FoundationsLab.Lsm.SSTable

/-! # Lookups in a written table

A table that was written and opened again answers from its entries. The sparse
index points at entries, so the scan from there passes every entry that matters. -/

namespace FoundationsLab.Lsm

open Foundation
open Foundation.JavaString

namespace SSTable

/-! ## One entry -/

/-- An entry that comes back from its bytes. -/
structure Storable (entry : Entry) : Prop where
  lossless : Lossless entry.1
  bounded : (encodeEntry entry).length < 2 ^ 31

theorem readBytes_append {bytes : Bytes} (bound : bytes.length < 2 ^ 31) (rest : Bytes) :
    readBytes (writeInt bytes.length ++ bytes ++ rest) = some (bytes, rest) := by
  rw [readBytes, List.append_assoc, readInt_append bound]
  simp only [Option.bind_eq_bind, Option.bind_some, Int.toNat_natCast]
  rw [if_neg (by omega), takeBytes_append]

theorem length_encodeEntry (entry : Entry) :
    (encodeEntry entry).length = 4 + (getBytes entry.1).length + (encodeVersion entry.2).length := by
  simp [encodeEntry, Nat.add_assoc]

theorem length_encodeVersion_some (value : Bytes) :
    (encodeVersion (some value)).length = 5 + value.length := by
  simp [encodeVersion]
  omega

theorem readEntry_append {entry : Entry} (storable : Storable entry) (rest : Bytes) :
    readEntry (encodeEntry entry ++ rest) = some (entry, rest) := by
  obtain ⟨key, version⟩ := entry
  obtain ⟨lossless, bounded⟩ := storable
  have back : newString (getBytes key) = key := lossless
  rw [length_encodeEntry] at bounded
  have keyBound : (getBytes key).length < 2 ^ 31 := by
    dsimp only at bounded
    omega
  rw [readEntry, encodeEntry, List.append_assoc, readBytes_append keyBound]
  simp only [Option.bind_eq_bind, Option.bind_some]
  cases version with
  | none => simp [encodeVersion, takeBytes, back]
  | some value =>
      rw [length_encodeVersion_some] at bounded
      have flag : takeBytes 1 (encodeVersion (some value) ++ rest) =
          some ([1], writeInt value.length ++ value ++ rest) := takeBytes_append [1] _
      rw [flag]
      simp only [Option.bind_some, if_true]
      rw [readBytes_append (by omega)]
      simp [back]

/-! ## The data of a table -/

def dataBytes (entries : List Entry) : Bytes := entries.flatMap encodeEntry

@[simp] theorem dataBytes_append (front back : List Entry) :
    dataBytes (front ++ back) = dataBytes front ++ dataBytes back :=
  List.flatMap_append

theorem dataBytes_cons (entry : Entry) (entries : List Entry) :
    dataBytes (entry :: entries) = encodeEntry entry ++ dataBytes entries := rfl

theorem length_encodeEntry_pos (entry : Entry) : 0 < (encodeEntry entry).length := by
  rw [length_encodeEntry]
  omega

theorem length_le_dataBytes (entries : List Entry) : entries.length ≤ (dataBytes entries).length := by
  induction entries with
  | nil => simp
  | cons entry rest induction =>
      have positive := length_encodeEntry_pos entry
      rw [dataBytes_cons, List.length_append, List.length_cons]
      omega

theorem length_le_of_mem {entries : List Entry} {entry : Entry} (member : entry ∈ entries) :
    (encodeEntry entry).length ≤ (dataBytes entries).length := by
  obtain ⟨front, back, rfl⟩ := List.append_of_mem member
  rw [dataBytes_append, dataBytes_cons, List.length_append, List.length_append]
  omega

/-- Every entry of the index points at the entry with its key. -/
def PointsInto (index : SortedMap JavaString Int) (entries : List Entry) : Prop :=
  ∀ pointer ∈ index.entries, ∃ front version back,
    entries = front ++ (pointer.1, version) :: back ∧ pointer.2 = (dataBytes front).length

/-- An open table for the entries. -/
structure Holds (table : SSTable) (map : SortedMap JavaString (Option Bytes)) : Prop where
  storable : ∀ entry ∈ map.entries, Storable entry
  data : dataBytes map.entries <+: table.data
  dataEnd : table.dataEnd = (dataBytes map.entries).length
  small : table.data.length < 2 ^ 31
  index : PointsInto table.sparseIndex map.entries
  sized : table.bloom.Sized
  marked : ∀ entry ∈ map.entries, table.bloom.Marked (getBytes entry.1)

section Lookup

variable {table : SSTable} {map : SortedMap JavaString (Option Bytes)}

theorem Holds.entryAt (holds : Holds table map) {front back : List Entry} {entry : Entry}
    (split : map.entries = front ++ entry :: back) :
    entryAt table.data (dataBytes front).length =
      some (entry, ((dataBytes (front ++ [entry])).length : Int)) := by
  obtain ⟨rest, isData⟩ := holds.data
  have storable := holds.storable entry (by simp [split])
  have layout : table.data = dataBytes front ++ (encodeEntry entry ++ (dataBytes back ++ rest)) := by
    rw [← isData, split, dataBytes_append, dataBytes_cons]
    simp
  have bytes : seek table.data (dataBytes front).length =
      some (encodeEntry entry ++ (dataBytes back ++ rest)) := by
    rw [seek, if_neg (by omega), layout]
    simp
  rw [SSTable.entryAt, bytes]
  simp only [Option.bind_eq_bind, Option.bind_some, readEntry_append storable]
  rw [layout, dataBytes_append]
  simp only [List.length_append, dataBytes, List.flatMap_singleton]
  congr 2
  push_cast
  ring

/-- A pointer of the index is a position in front of an entry. -/
theorem Holds.floorPosition (holds : Holds table map) (key : JavaString) :
    ∃ front back, map.entries = front ++ back ∧
      table.floorPosition key = (dataBytes front).length ∧ ∀ entry ∈ front, entry.1 < key := by
  rw [SSTable.floorPosition]
  cases found : table.sparseIndex.floorEntry key with
  | none => exact ⟨[], map.entries, rfl, rfl, by simp⟩
  | some pointer =>
      obtain ⟨member, below⟩ := SortedMap.mem_floorEntry found
      obtain ⟨front, version, back, split, isOffset⟩ := holds.index pointer member
      have order := (ascending_append.mp (split ▸ map.ascending)).2.2
      have inside := holds.data.length_le
      have small := holds.small
      rw [split, dataBytes_append, List.length_append] at inside
      have offset : intValue pointer.2 = (dataBytes front).length := by
        have low : ((dataBytes front).length : Int) % 2 ^ 32 = (dataBytes front).length := by omega
        rw [isOffset, intValue, low, Int.toNat_natCast, signed, if_pos (by omega)]
      exact ⟨front, _, split, offset, fun entry isBefore =>
        lt_of_lt_of_le (order entry isBefore _ List.mem_cons_self) below⟩

/-! ## Point lookups -/

/-- The result for the newest version of a key. -/
def Result.ofVersion : Option (Option Bytes) → Result
  | none => .notFound
  | some none => .tombstone
  | some (some value) => .value value

theorem Holds.getFrom (holds : Holds table map) (key : JavaString) (back : List Entry) :
    ∀ (front : List Entry) (fuel : Nat), map.entries = front ++ back →
      (∀ entry ∈ front, entry.1 < key) → back.length < fuel →
      getFrom table key fuel (dataBytes front).length =
        some (Result.ofVersion (map.get key)) := by
  induction back with
  | nil =>
      intro front fuel split below enough
      obtain ⟨fuel, rfl⟩ : ∃ less, fuel = less + 1 := ⟨fuel - 1, by omega⟩
      have atEnd : ¬((dataBytes front).length : Int) < table.dataEnd := by
        rw [holds.dataEnd, split, List.append_nil]
        omega
      have absent : map.get key = none := by
        refine SortedMap.get_eq_none fun entry member => (below entry ?_).ne
        rwa [split, List.append_nil] at member
      rw [SSTable.getFrom, if_neg atEnd, absent]
      rfl
  | cons entry back induction =>
      intro front fuel split below enough
      obtain ⟨fuel, rfl⟩ : ∃ less, fuel = less + 1 := ⟨fuel - 1, by omega⟩
      have order := ascending_append.mp (split ▸ map.ascending)
      have before : ((dataBytes front).length : Int) < table.dataEnd := by
        have positive := length_encodeEntry_pos entry
        rw [holds.dataEnd, split, dataBytes_append, dataBytes_cons, List.length_append,
          List.length_append]
        omega
      have member : entry ∈ map.entries := by simp [split]
      rw [SSTable.getFrom, if_pos before, holds.entryAt split]
      simp only [Option.bind_eq_bind, Option.bind_some]
      by_cases equal : entry.1 = key
      · rw [if_pos equal, ← equal, SortedMap.get_of_mem member]
        cases entry.2 <;> rfl
      · rw [if_neg equal]
        split
        · rename_i passed
          have later := (ascending_cons.mp order.2.1).1
          have absent : map.get key = none := by
            refine SortedMap.get_eq_none fun other isOther => ?_
            rw [split] at isOther
            rcases List.mem_append.mp isOther with isBefore | isRest
            · exact (below other isBefore).ne
            · rcases List.mem_cons.mp isRest with rfl | isLater
              · exact equal
              · exact (passed.trans (later other isLater)).ne'
          rw [absent]
          rfl
        · rename_i notPassed
          refine induction (front ++ [entry]) fuel (by simp [split]) (fun other isOther => ?_)
            (by simpa using enough)
          rcases List.mem_append.mp isOther with isBefore | isEntry
          · exact below other isBefore
          · rw [List.mem_singleton.mp isEntry]
            exact lt_of_le_of_ne (not_lt.mp notPassed) equal

/-- A lookup says what the entries say. -/
theorem Holds.get (holds : Holds table map) (key : JavaString) :
    table.get key = some (Result.ofVersion (map.get key)) := by
  obtain ⟨answer, answered⟩ := holds.sized.mightContain_total (getBytes key)
  have room : map.entries.length < table.data.length + 1 := by
    have shorter := length_le_dataBytes map.entries
    have inside := holds.data.length_le
    omega
  rw [SSTable.get, answered]
  cases answer with
  | true =>
      obtain ⟨front, back, split, position, below⟩ := holds.floorPosition key
      have enough : back.length < table.data.length + 1 := by
        rw [split, List.length_append] at room
        omega
      simp only [Option.bind_eq_bind, Option.bind_some, if_true, position]
      exact holds.getFrom key back front _ split below enough
  | false =>
      have absent : map.get key = none := by
        refine SortedMap.get_eq_none fun entry member equal => ?_
        have present := (holds.marked entry member).mightContain holds.sized
        rw [equal, answered] at present
        exact absurd present (by simp)
      rw [absent]
      rfl

/-! ## Ranges -/

theorem inRange_iff {fromKey toKey : Option JavaString} {key : JavaString} :
    InRange fromKey toKey key ↔ fromKey.any (fun bound => key < bound) = false ∧
      toKey.any (fun bound => bound ≤ key) = false := by
  cases fromKey <;> cases toKey <;> simp [InRange]

theorem Holds.rangeFrom (holds : Holds table map) (fromKey toKey : Option JavaString)
    (back : List Entry) : ∀ (front : List Entry) (fuel : Nat), map.entries = front ++ back →
      back.length < fuel →
      rangeFrom table fromKey toKey fuel (dataBytes front).length =
        some (entriesInRange fromKey toKey back) := by
  induction back with
  | nil =>
      intro front fuel split enough
      obtain ⟨fuel, rfl⟩ : ∃ less, fuel = less + 1 := ⟨fuel - 1, by omega⟩
      have atEnd : ¬((dataBytes front).length : Int) < table.dataEnd := by
        rw [holds.dataEnd, split, List.append_nil]
        omega
      rw [SSTable.rangeFrom, if_neg atEnd]
      rfl
  | cons entry back induction =>
      intro front fuel split enough
      obtain ⟨fuel, rfl⟩ : ∃ less, fuel = less + 1 := ⟨fuel - 1, by omega⟩
      have order := ascending_append.mp (split ▸ map.ascending)
      have before : ((dataBytes front).length : Int) < table.dataEnd := by
        have positive := length_encodeEntry_pos entry
        rw [holds.dataEnd, split, dataBytes_append, dataBytes_cons, List.length_append,
          List.length_append]
        omega
      have next := induction (front ++ [entry]) fuel (by simp [split]) (by simpa using enough)
      rw [SSTable.rangeFrom, if_pos before, holds.entryAt split]
      simp only [Option.bind_eq_bind, Option.bind_some, next]
      split
      · rename_i below
        have outside : ¬InRange fromKey toKey entry.1 := fun inside => by
          simp [(inRange_iff.mp inside).1] at below
        simp [entriesInRange, outside]
      · rename_i notBelow
        split
        · rename_i above
          have later := (ascending_cons.mp order.2.1).1
          have outside : ∀ other ∈ entry :: back, ¬InRange fromKey toKey other.1 := by
            intro other member inside
            cases toKey with
            | none => simp at above
            | some bound =>
                have passed : bound ≤ entry.1 := by simpa using above
                have notAbove : other.1 < bound := inside.2 bound rfl
                rcases List.mem_cons.mp member with rfl | isLater
                · exact absurd passed (not_le.mpr notAbove)
                · exact absurd (later other isLater) (not_lt.mpr (notAbove.le.trans passed))
          have nothing : entriesInRange fromKey toKey (entry :: back) = [] :=
            List.filter_eq_nil_iff.mpr fun other member => by simpa using outside other member
          rw [nothing]
        · rename_i notAbove
          have inside : InRange fromKey toKey entry.1 :=
            inRange_iff.mpr ⟨by simpa using notBelow, by simpa using notAbove⟩
          simp [entriesInRange, inside]

/-- A range is the entries of the window. -/
theorem Holds.range (holds : Holds table map) (fromKey toKey : Option JavaString) :
    table.range fromKey toKey = some (entriesInRange fromKey toKey map.entries) := by
  have room : map.entries.length < table.data.length + 1 := by
    have shorter := length_le_dataBytes map.entries
    have inside := holds.data.length_le
    omega
  cases fromKey with
  | none => exact holds.rangeFrom none toKey map.entries [] _ rfl room
  | some key =>
      obtain ⟨front, back, split, position, below⟩ := holds.floorPosition key
      have enough : back.length < table.data.length + 1 := by
        rw [split, List.length_append] at room
        omega
      have skipped : entriesInRange (some key) toKey front = [] := by
        refine List.filter_eq_nil_iff.mpr fun entry member => ?_
        have outside : ¬InRange (some key) toKey entry.1 := fun inside =>
          absurd (inside.1 key rfl) (not_le.mpr (below entry member))
        simpa using outside
      have all : entriesInRange (some key) toKey map.entries = entriesInRange (some key) toKey back := by
        rw [split, entriesInRange, List.filter_append]
        exact congrArg (· ++ _) skipped
      rw [SSTable.range, all]
      simp only [position]
      exact holds.rangeFrom (some key) toKey back front _ split enough

end Lookup

end SSTable

end FoundationsLab.Lsm
