import FoundationsLab.Lsm.TableLookup

/-! # Written tables open again

What the loop of `write` keeps, and how the constructor of `SSTable` finds the
parts of the file from its footer. -/

namespace FoundationsLab.Lsm

open Foundation
open Foundation.JavaString

namespace SSTable

/-! ## The loop over the entries -/

/-- The state of the loop after the entries `done`. -/
structure Writer.Wrote (writer : Writer) (done : List Entry) : Prop where
  bytes : writer.bytes = dataBytes done
  count : writer.count = done.length
  sparse : PointsInto writer.sparse done
  sized : writer.bloom.Sized
  marked : ∀ entry ∈ done, writer.bloom.Marked (getBytes entry.1)
  numHashes : 0 ≤ writer.bloom.numHashes ∧ writer.bloom.numHashes < 2 ^ 31

theorem PointsInto.append {index : SortedMap JavaString Int} {done : List Entry}
    (points : PointsInto index done) (entry : Entry) : PointsInto index (done ++ [entry]) := by
  intro pointer member
  obtain ⟨front, version, back, rfl, isOffset⟩ := points pointer member
  exact ⟨front, version, back ++ [entry], by simp, isOffset⟩

theorem PointsInto.put {index : SortedMap JavaString Int} {done : List Entry}
    (points : PointsInto index done) (entry : Entry) :
    PointsInto (index.put entry.1 (dataBytes done).length) (done ++ [entry]) := by
  intro pointer member
  rcases mem_putEntry member with rfl | isOld
  · exact ⟨done, entry.2, [], rfl, rfl⟩
  · exact points.append entry pointer isOld

theorem Writer.Wrote.add {writer : Writer} {done : List Entry} (wrote : writer.Wrote done)
    (entry : Entry) : (writer.add entry).Wrote (done ++ [entry]) := by
  constructor
  · simp [Writer.add, wrote.bytes, dataBytes]
  · simp [Writer.add, wrote.count]
  · rw [Writer.add, wrote.bytes]
    dsimp only
    split
    · exact wrote.sparse.put entry
    · exact wrote.sparse.append entry
  · exact wrote.sized.add _
  · intro other member
    rcases List.mem_append.mp member with isOld | isNew
    · exact (wrote.marked other isOld).add _
    · rw [List.mem_singleton.mp isNew]
      exact wrote.sized.add_marked _
  · exact wrote.numHashes

theorem Writer.Wrote.foldl {writer : Writer} {done : List Entry} (wrote : writer.Wrote done)
    (entries : List Entry) : (entries.foldl Writer.add writer).Wrote (done ++ entries) := by
  induction entries generalizing writer done with
  | nil => simpa using wrote
  | cons entry rest induction => simpa using induction (wrote.add entry)

theorem foldl_add_bits_length (writer : Writer) (entries : List Entry) :
    (entries.foldl Writer.add writer).bloom.bits.length = writer.bloom.bits.length := by
  induction entries generalizing writer with
  | nil => rfl
  | cons entry rest induction =>
      rw [List.foldl_cons, induction, Writer.add, BloomFilter.add_bits,
        BloomFilter.foldl_setBit_length]

theorem start_wrote {sizing : Sizing} {expectedCount : Nat}
    (bounded : (Writer.start sizing expectedCount).bloom.bits.length < 2 ^ 31) :
    (Writer.start sizing expectedCount).Wrote [] := by
  refine ⟨rfl, rfl, fun pointer member => absurd member List.not_mem_nil, ⟨?_, ?_, bounded⟩,
    fun entry member => absurd member List.not_mem_nil, ?_⟩
  · simp only [Writer.start, BloomFilter.new]
    omega
  · simp only [Writer.start, BloomFilter.new, List.length_replicate]
    omega
  · have small := sizing.roundHashes_lt
    simp only [Writer.start, BloomFilter.new, BloomFilter.optimalHashes]
    exact ⟨by omega, by exact_mod_cast max_lt (by decide) (small _ _)⟩

/-! ## The parts of the file -/

theorem length_footer (indexOffset bloomOffset count : Nat) :
    (footer indexOffset bloomOffset count).length = FOOTER_BYTES := by
  simp [footer, FOOTER_BYTES]

theorem seek_append (front rest : Bytes) : seek (front ++ rest) front.length = some rest := by
  simp [seek]

theorem readIndex_append {entries : List (JavaString × Int)} (rest : Bytes)
    (readable : ∀ entry ∈ entries, Lossless entry.1 ∧ (getBytes entry.1).length < 2 ^ 31 ∧
      0 ≤ entry.2 ∧ entry.2 < 2 ^ 63) : ∀ (index : SortedMap JavaString Int),
    readIndex entries.length index (entries.flatMap encodeIndexEntry ++ rest) =
      some (index.putAll entries, rest) := by
  induction entries with
  | nil => exact fun _ => rfl
  | cons entry entries induction =>
      intro index
      obtain ⟨lossless, keyBound, lower, upper⟩ := readable entry List.mem_cons_self
      have back : newString (getBytes entry.1) = entry.1 := lossless
      have offset : ((entry.2.toNat : Nat) : Int) = entry.2 := by omega
      have later := induction (fun other member => readable other (List.mem_cons_of_mem _ member))
        (index.put entry.1 entry.2)
      rw [List.length_cons, List.flatMap_cons, List.append_assoc, readIndex, encodeIndexEntry,
        List.append_assoc, readBytes_append keyBound]
      simp only [Option.bind_eq_bind, Option.bind_some]
      rw [readLong_append (by omega)]
      simp only [Option.bind_some, back, offset, later]
      rfl

theorem length_le_flatMap_encodeIndexEntry (entries : List (JavaString × Int)) :
    entries.length ≤ (entries.flatMap encodeIndexEntry).length := by
  induction entries with
  | nil => simp
  | cons entry rest induction =>
      simp only [List.flatMap_cons, List.length_append, List.length_cons, encodeIndexEntry,
        length_writeInt, length_writeLong]
      omega

theorem length_writeTo (filter : BloomFilter) :
    filter.bits.length ≤ filter.writeTo.length := by
  have words : filter.bits.length ≤
      (filter.bits.flatMap fun word => writeLong word.toNat).length := by
    rw [List.length_flatMap]
    simp
    omega
  simp only [BloomFilter.writeTo, List.length_append]
  omega

/-- The constructor on a file that is put together from its parts. -/
theorem new_parts {file : FileName} {data index rest : Bytes} {sparse : SortedMap JavaString Int}
    {bloom : BloomFilter} {count : Nat}
    (isIndex : index = writeInt sparse.size ++ sparse.entries.flatMap encodeIndexEntry)
    (readable : ∀ entry ∈ sparse.entries, Lossless entry.1 ∧ (getBytes entry.1).length < 2 ^ 31 ∧
      0 ≤ entry.2 ∧ entry.2 < 2 ^ 63)
    (sized : bloom.Sized) (numHashes : 0 ≤ bloom.numHashes ∧ bloom.numHashes < 2 ^ 31)
    (isFile : rest = data ++ index ++ bloom.writeTo ++
      footer data.length (data ++ index).length count)
    (short : count ≤ data.length) (small : rest.length < 2 ^ 31) :
    SSTable.new file rest = some ⟨file, rest, sparse, bloom, data.length, count⟩ := by
  have total := congrArg List.length isFile
  simp only [List.length_append, length_footer] at total
  have indexRoom := length_le_flatMap_encodeIndexEntry sparse.entries
  have indexLength := congrArg List.length isIndex
  rw [List.length_append, length_writeInt] at indexLength
  have atFooter : seek rest (rest.length - FOOTER_BYTES) =
      some (footer data.length (data ++ index).length count) := by
    have position : (rest.length : Int) - FOOTER_BYTES =
        (data ++ index ++ bloom.writeTo).length := by
      simp only [List.length_append]
      omega
    rw [position, isFile, seek_append]
  have atIndex : seek rest data.length = some (index ++ (bloom.writeTo ++
      footer data.length (data ++ index).length count)) := by
    rw [isFile, List.append_assoc, List.append_assoc, seek_append]
  have atBloom : seek rest (data ++ index).length = some (bloom.writeTo ++
      footer data.length (data ++ index).length count) := by
    rw [isFile, List.append_assoc, seek_append]
  have indexStart : ∀ tail, readInt (index ++ tail) =
      some ((sparse.entries.length : Int), sparse.entries.flatMap encodeIndexEntry ++ tail) := by
    intro tail
    have few : sparse.entries.length < 2 ^ 31 := by omega
    rw [isIndex, List.append_assoc]
    exact readInt_append few _
  have dataEnd : intValue data.length = data.length := by
    have low : (data.length : Int) % 2 ^ 32 = data.length := by omega
    rw [intValue, low, Int.toNat_natCast, signed, if_pos (by omega)]
  have magic : readLong (writeLong MAGIC) = some ((MAGIC : Int), []) := by
    have read := readLong_append (by decide : MAGIC < 2 ^ 63) []
    rwa [List.append_nil] at read
  rw [SSTable.new, atFooter]
  simp only [Option.bind_eq_bind, Option.bind_some, footer, List.append_assoc]
  rw [readLong_append (by omega)]
  simp only [Option.bind_some]
  rw [readLong_append (by rw [List.length_append]; omega)]
  simp only [Option.bind_some]
  rw [readInt_append (by omega)]
  simp only [Option.bind_some, magic, ne_eq, not_true_eq_false, if_false, atIndex, indexStart,
    Int.toNat_natCast]
  rw [readIndex_append _ readable]
  simp only [Option.bind_some, atBloom]
  rw [BloomFilter.readFrom_append sized numHashes.1 numHashes.2]
  simp only [Option.bind_some]
  rw [if_neg (by omega), SortedMap.putAll_entries, dataEnd]

/-- A written table opens and holds what was written. -/
theorem new_write {sizing : Sizing} {map : SortedMap JavaString (Option Bytes)}
    {expectedCount : Nat} (file : FileName) (lossless : ∀ entry ∈ map.entries, Lossless entry.1)
    (small : (write sizing map.entries expectedCount).length < 2 ^ 31) :
    ∃ table, SSTable.new file (write sizing map.entries expectedCount) = some table ∧
      table.file = file ∧ Holds table map := by
  obtain ⟨writer, isWriter⟩ : ∃ writer, writer =
    map.entries.foldl Writer.add (Writer.start sizing expectedCount) := ⟨_, rfl⟩
  have isFile : write sizing map.entries expectedCount = writer.bytes ++ writer.index ++
      writer.bloom.writeTo ++ footer writer.bytes.length (writer.bytes ++ writer.index).length
        writer.count := by
    rw [isWriter]
    rfl
  obtain ⟨contents, isContents⟩ : ∃ contents, contents =
    write sizing map.entries expectedCount := ⟨_, rfl⟩
  rw [← isContents] at isFile small ⊢
  have total := congrArg List.length isFile
  simp only [List.length_append, length_footer] at total
  have bounded : writer.bloom.bits.length < 2 ^ 31 := by
    have room := length_writeTo writer.bloom
    omega
  have wrote : writer.Wrote map.entries := by
    rw [isWriter, foldl_add_bits_length] at bounded
    rw [isWriter]
    exact (start_wrote bounded).foldl map.entries
  have storable : ∀ entry ∈ map.entries, Storable entry := by
    intro entry member
    have inside := length_le_of_mem member
    rw [← wrote.bytes] at inside
    exact ⟨lossless entry member, by omega⟩
  have readable : ∀ pointer ∈ writer.sparse.entries, Lossless pointer.1 ∧
      (getBytes pointer.1).length < 2 ^ 31 ∧ 0 ≤ pointer.2 ∧ pointer.2 < 2 ^ 63 := by
    intro pointer member
    obtain ⟨front, version, back, split, isOffset⟩ := wrote.sparse pointer member
    have isEntry : (pointer.1, version) ∈ map.entries := by simp [split]
    have bound := (storable _ isEntry).bounded
    rw [length_encodeEntry] at bound
    have inside := congrArg (fun entries => (dataBytes entries).length) split
    simp only [← wrote.bytes, dataBytes_append, List.length_append] at inside
    dsimp only at bound
    exact ⟨lossless _ isEntry, by omega, by omega, by omega⟩
  have short : writer.count ≤ writer.bytes.length := by
    rw [wrote.count, wrote.bytes]
    exact length_le_dataBytes map.entries
  refine ⟨_, new_parts rfl readable wrote.sized wrote.numHashes isFile short small, rfl, ?_⟩
  refine ⟨storable, ?_, ?_, small, wrote.sparse, wrote.sized, wrote.marked⟩
  · rw [← wrote.bytes, isFile, List.append_assoc, List.append_assoc]
    exact List.prefix_append _ _
  · rw [← wrote.bytes]

/-! ## Exact answers -/

/-- A strictly ascending list, written and opened again, is answered from exactly:
whatever sizes the Bloom filter has, `get` and `range` say what the list says. -/
theorem written_table_is_exact (sizing : Sizing) (expectedCount : Nat) (file : FileName)
    {entries : List Entry} (ascending : Ascending entries)
    (lossless : ∀ entry ∈ entries, Lossless entry.1)
    (small : (write sizing entries expectedCount).length < 2 ^ 31) :
    ∃ table, SSTable.new file (write sizing entries expectedCount) = some table ∧
      (∀ key value, (key, some value) ∈ entries → table.get key = some (.value value)) ∧
      (∀ key, (key, none) ∈ entries → table.get key = some .tombstone) ∧
      (∀ key, (∀ entry ∈ entries, entry.1 ≠ key) → table.get key = some .notFound) ∧
      ∀ fromKey toKey, table.range fromKey toKey =
        some (entries.filter fun entry => InRange fromKey toKey entry.1) := by
  obtain ⟨map, rfl⟩ : ∃ map : SortedMap JavaString (Option Bytes), map.entries = entries :=
    ⟨⟨entries, ascending⟩, rfl⟩
  rcases new_write file lossless small with ⟨table, opened, -, holds⟩
  refine ⟨table, opened, ?_, ?_, ?_, ?_⟩
  · intro key value member
    rw [holds.get, SortedMap.get_of_mem member]
    rfl
  · intro key member
    rw [holds.get, SortedMap.get_of_mem member]
    rfl
  · intro key absent
    rw [holds.get, SortedMap.get_eq_none absent]
    rfl
  · intro fromKey toKey
    exact holds.range fromKey toKey

/-- The table of a value and a tombstone, with the smallest filter. -/
theorem two_entry_table_is_exact :
    ∃ table, SSTable.new [] (write ⟨fun _ => 0, fun _ _ => 0, fun _ _ => by decide⟩
        [(ofAscii ['a'], some [7]), (ofAscii ['b'], none)] 2) = some table ∧
      table.get (ofAscii ['a']) = some (.value [7]) ∧
      table.get (ofAscii ['b']) = some .tombstone ∧
      table.get (ofAscii ['c']) = some .notFound ∧
      table.range (some (ofAscii ['b'])) none = some [(ofAscii ['b'], none)] := by
  have lossless : ∀ entry ∈ [(ofAscii ['a'], some [7]), (ofAscii ['b'], (none : Option Bytes))],
      Lossless entry.1 := by
    intro entry member
    rcases List.mem_cons.mp member with rfl | isSecond
    · decide
    · rw [List.mem_singleton.mp isSecond]
      decide
  have isBelow : ofAscii ['a'] < ofAscii ['b'] := by decide
  have ascending : Ascending [(ofAscii ['a'], some [7]), (ofAscii ['b'], (none : Option Bytes))] := by
    simp [Ascending, isBelow]
  rcases written_table_is_exact ⟨fun _ => 0, fun _ _ => 0, fun _ _ => by decide⟩ 2 []
      ascending lossless (by decide +kernel) with ⟨table, opened, values, tombstones, absent, range⟩
  refine ⟨table, opened, values _ _ ?_, tombstones _ ?_, absent _ ?_, ?_⟩
  · simp
  · simp
  · intro entry member
    rcases List.mem_cons.mp member with rfl | isSecond
    · decide
    · rw [List.mem_singleton.mp isSecond]
      decide
  · rw [range]
    simp [InRange, not_le.mpr isBelow]

end SSTable

end FoundationsLab.Lsm
