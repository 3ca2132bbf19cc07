import FoundationsLab.Lsm.Healthy

/-! # Calls on healthy trees

Flush and compaction write a new table in front of the others and then drop what it
replaces. Each call keeps the tree healthy, and only `put` and `delete` change what
it stands for. -/

namespace FoundationsLab.Lsm

open Foundation
open Foundation.JavaString
open Foundation.Directory
open Foundation.Layers
open WriteAheadLog

/-- No operation moved 2 GiB or more, and no generation reached `10 ^ 8`. -/
structure Fits (disk : Directory FileName) : Prop where
  bytes : ∀ op ∈ disk, op.bytes.length < 2 ^ 31
  generations : ∀ gen bytes, .write (sstFile gen) bytes ∈ disk → gen < 10 ^ 8

theorem Fits.of_prefix {disk disk' : Directory FileName} (fits : Fits disk')
    (grows : disk <+: disk') : Fits disk :=
  ⟨fun op member => fits.bytes op (grows.subset member),
    fun gen bytes member => fits.generations gen bytes (grows.subset member)⟩

theorem Fits.of_short {disk : Directory FileName}
    (short : ∀ op ∈ disk, op.bytes.length < 2 ^ 31 ∧ op.name.length ≤ 19) : Fits disk :=
  ⟨fun op member => (short op member).1,
    fun _ _ member => lt_of_length_sstFile (short _ member).2⟩

section Files

variable {sizing : Sizing} {disk : Directory FileName} {tables : List DiskTable}
  {records : List Entry} {torn : Bytes}

/-! ## Writing and deleting tables -/

theorem Stored.gen_le_newestGen (stored : Stored sizing disk tables records torn) :
    ∀ table ∈ tables, table.gen ≤ newestGen tables := by
  intro table member
  have order := stored.newestFirst
  cases tables with
  | nil => exact absurd member List.not_mem_nil
  | cons newest older =>
      rcases List.mem_cons.mp member with rfl | isOlder
      · exact le_rfl
      · exact ((List.pairwise_cons.mp order).1 table isOlder).le

theorem Stored.write (stored : Stored sizing disk tables records torn) {table : DiskTable}
    (sound : table.Sound sizing) (newer : newestGen tables < table.gen) :
    Stored sizing (disk ++ [.write table.file (table.bytes sizing)]) (table :: tables) records
      torn := by
  have below : ∀ other ∈ tables, other.gen < table.gen := fun other member =>
    (stored.gen_le_newestGen other member).trans_lt newer
  constructor
  · intro other member
    rcases List.mem_cons.mp member with rfl | isOld
    · exact sound
    · exact stored.sound other isOld
  · exact List.pairwise_cons.mpr ⟨below, stored.newestFirst⟩
  · intro other member
    rcases List.mem_cons.mp member with rfl | isOld
    · rw [read_write, if_pos rfl]
    · have different : other.file ≠ table.file :=
        (sstFile_lt (below other isOld) sound.gen).ne
      rw [read_write, if_neg different]
      exact stored.files other isOld
  · intro name isTable exists'
    by_cases same : name = table.file
    · exact ⟨table, List.mem_cons_self, same⟩
    · rw [read_write, if_neg same] at exists'
      obtain ⟨other, member, isFile⟩ := stored.noOthers name isTable exists'
      exact ⟨other, List.mem_cons_of_mem _ member, isFile⟩
  · have different : walFile ≠ table.file := (sstFile_ne_walFile table.gen).symm
    rw [read_write, if_neg different]
    exact stored.log
  · exact stored.recordable
  · exact stored.torn

theorem Stored.delete {newer older : List DiskTable} {table : DiskTable}
    (stored : Stored sizing disk (newer ++ table :: older) records torn) :
    Stored sizing (disk ++ [.delete table.file]) (newer ++ older) records torn := by
  have kept : ∀ other ∈ newer ++ older, other ∈ newer ++ table :: older := by
    intro other member
    rcases List.mem_append.mp member with isNewer | isOlder
    · exact List.mem_append_left _ isNewer
    · exact List.mem_append_right _ (List.mem_cons_of_mem _ isOlder)
  have parts := List.pairwise_append.mp stored.newestFirst
  have later := List.pairwise_cons.mp parts.2.1
  have different : ∀ other ∈ newer ++ older, other.gen ≠ table.gen := by
    intro other member
    rcases List.mem_append.mp member with isNewer | isOlder
    · exact (parts.2.2 other isNewer table List.mem_cons_self).ne'
    · exact (later.1 other isOlder).ne
  constructor
  · exact fun other member => stored.sound other (kept other member)
  · exact List.pairwise_append.mpr ⟨parts.1, later.2, fun other isNewer last isOlder =>
      parts.2.2 other isNewer last (List.mem_cons_of_mem _ isOlder)⟩
  · intro other member
    have notSame : other.file ≠ table.file := fun same => different other member
      (sstFile_injective (stored.sound other (kept other member)).gen
        (stored.sound table (by simp)).gen same)
    rw [read_delete, if_neg notSame]
    exact stored.files other (kept other member)
  · intro name isTable exists'
    rw [read_delete] at exists'
    split at exists'
    · simp at exists'
    · rename_i notSame
      obtain ⟨other, member, rfl⟩ := stored.noOthers name isTable exists'
      rcases List.mem_append.mp member with isNewer | isRest
      · exact ⟨other, List.mem_append_left _ isNewer, rfl⟩
      · rcases List.mem_cons.mp isRest with rfl | isOlder
        · exact absurd rfl notSame
        · exact ⟨other, List.mem_append_right _ isOlder, rfl⟩
  · have notLog : walFile ≠ table.file := (sstFile_ne_walFile table.gen).symm
    rw [read_delete, if_neg notLog]
    exact stored.log
  · exact stored.recordable
  · exact stored.torn

/-- Deleting the tables behind the first one, the newest first. -/
theorem Stored.deletes {newest : DiskTable} : ∀ (replaced : List DiskTable) {older : List DiskTable}
    {disk : Directory FileName}, Stored sizing disk (newest :: (replaced ++ older)) records torn →
    Stored sizing (disk ++ replaced.map fun table => .delete table.file) (newest :: older)
      records torn
  | [], _, _, stored => by simpa using stored
  | table :: replaced, older, disk, stored => by
      have here : Stored sizing disk ([newest] ++ table :: (replaced ++ older)) records torn := stored
      simpa using Stored.deletes replaced here.delete

end Files

namespace LsmTree

section Calls

variable {sizing : Sizing} {tree : LsmTree} {tables : List DiskTable} {records : List Entry}
  {torn : Bytes}

/-! ## Flush -/

/-- The table that `flush` writes. -/
def flushed (tree : LsmTree) : DiskTable where
  gen := tree.maxGen + 1
  map := tree.memtable.map
  expectedCount := tree.memtable.map.size

/-- The directory with the table of `flush`. -/
def flushWritten (sizing : Sizing) (tree : LsmTree) : Directory FileName :=
  tree.disk ++ [.write tree.flushed.file (tree.flushed.bytes sizing)]

theorem flushMemtable_eq (sizing : Sizing) (tree : LsmTree) :
    tree.flushMemtable sizing =
      match openTable (tree.flushWritten sizing) tree.flushed.file with
      | none => ({ tree with maxGen := tree.maxGen + 1, disk := tree.flushWritten sizing }, false)
      | some table =>
          let out := WriteAheadLog.truncate ⟨tree.flushWritten sizing, tree.pending⟩
          ({ tree with
              maxGen := tree.maxGen + 1
              sstables := table :: tree.sstables
              memtable := .empty
              disk := out.disk
              pending := out.pending }, true) := rfl

theorem flushMemtable_grows (sizing : Sizing) (tree : LsmTree) :
    tree.flushWritten sizing <+: (tree.flushMemtable sizing).1.disk := by
  rw [flushMemtable_eq]
  split
  · exact List.prefix_rfl
  · exact (truncate_log ⟨tree.flushWritten sizing, tree.pending⟩).2.2.2

theorem replayed_concat (records : List Entry) (entry : Entry) :
    replayed (records ++ [entry]) = (replayed records).update entry.1 entry.2 := by
  simp [replayed]

theorem replayed_lossless (recordable : ∀ entry ∈ records, Recordable entry) :
    ∀ entry ∈ (replayed records).map.entries, Lossless entry.1 := by
  induction records using List.reverseRecOn with
  | nil => exact fun entry member => absurd member List.not_mem_nil
  | append_singleton records record induction =>
      intro entry member
      rw [replayed_concat] at member
      rcases mem_putEntry member with rfl | isOld
      · exact (recordable record (by simp)).lossless
      · exact induction (fun other isOther => recordable other (by simp [isOther])) entry isOld

theorem flushed_sound (healthy : Healthy sizing tree tables records torn)
    (fits : Fits (tree.flushWritten sizing)) : tree.flushed.Sound sizing := by
  have written : FileOp.write tree.flushed.file (tree.flushed.bytes sizing) ∈
      tree.flushWritten sizing := by simp [flushWritten]
  refine ⟨fits.generations _ _ written, ?_, fits.bytes _ written⟩
  have lossless := replayed_lossless healthy.stored.recordable
  rwa [← healthy.memtable] at lossless

theorem flushWritten_stored (healthy : Healthy sizing tree tables records torn)
    (sound : tree.flushed.Sound sizing) :
    Stored sizing (tree.flushWritten sizing) (tree.flushed :: tables) records torn := by
  refine healthy.stored.write sound ?_
  rw [← healthy.maxGen]
  exact Nat.lt_succ_self _

/-- A flush puts the memtable in front of the tables and empties the log. -/
theorem flushMemtable_healthy (healthy : Healthy sizing tree tables records torn)
    (sound : tree.flushed.Sound sizing) :
    (tree.flushMemtable sizing).2 = true ∧
      (tree.flushMemtable sizing).1.disk =
        tree.flushWritten sizing ++ [.write walFile []] ∧
      (tree.flushMemtable sizing).1.memtable = .empty ∧
      Healthy sizing (tree.flushMemtable sizing).1 (tree.flushed :: tables) [] [] := by
  have stored := flushWritten_stored healthy sound
  obtain ⟨table, opens, isFile, holds⟩ := stored.openTable List.mem_cons_self
  have out : WriteAheadLog.truncate ⟨tree.flushWritten sizing, tree.pending⟩ =
      ⟨tree.flushWritten sizing ++ [.write walFile []], []⟩ := by
    rw [WriteAheadLog.truncate, Output.flush, if_pos healthy.pending]
  rw [flushMemtable_eq, opens]
  dsimp only
  rw [out]
  refine ⟨rfl, rfl, rfl, ?_, .cons ⟨isFile, holds⟩ healthy.opened, rfl, rfl, rfl⟩
  refine stored.relog (fun name different => read_of_ne _ different) ?_
    (fun entry member => absurd member List.not_mem_nil) torn_nil
  rw [read_write, if_pos rfl]
  rfl

/-! ## Compaction -/

/-- The table that `compact` writes. -/
def compacted (tree : LsmTree) (tables : List DiskTable) : DiskTable where
  gen := tree.maxGen + 1
  map := withoutDeletions (mergeRange none none (tables.map (·.map)))
  expectedCount := (mergeRange none none (tables.map (·.map))).size

/-- The directory with the table of `compact`. -/
def compactWritten (sizing : Sizing) (tree : LsmTree) (tables : List DiskTable) :
    Directory FileName :=
  tree.disk ++ [.write (tree.compacted tables).file ((tree.compacted tables).bytes sizing)]

theorem compact_eq (sizing : Sizing) (opened : Opened tree.sstables tables)
    (several : 1 < tree.sstables.length) :
    tree.compact sizing =
      match openTable (tree.compactWritten sizing tables) (tree.compacted tables).file with
      | none =>
          ({ tree with
              maxGen := tree.maxGen + 1
              disk := tree.compactWritten sizing tables
              sstables := [] }, false)
      | some table =>
          ({ tree with
              maxGen := tree.maxGen + 1
              sstables := [table]
              disk := tree.compactWritten sizing tables ++
                tree.sstables.map fun s => .delete s.file }, true) := by
  rw [compact, if_neg (by omega), opened.mergeTables]
  rfl

theorem compact_grows (sizing : Sizing) (tree : LsmTree) :
    tree.disk <+: (tree.compact sizing).1.disk := by
  rw [compact]
  split
  · exact List.prefix_rfl
  · split
    · exact List.prefix_rfl
    · dsimp only [write]
      split
      · exact List.prefix_append _ _
      · exact (List.prefix_append _ _).trans (List.prefix_append _ _)

theorem compactWritten_grows (sizing : Sizing) (opened : Opened tree.sstables tables)
    (several : 1 < tree.sstables.length) :
    tree.compactWritten sizing tables <+: (tree.compact sizing).1.disk := by
  rw [compact_eq sizing opened several]
  split
  · exact List.prefix_rfl
  · exact List.prefix_append _ _

theorem newest_mem {layers : List (Layer JavaString Bytes)} {key : JavaString}
    {version : Option Bytes} (found : newest layers key = some version) :
    ∃ layer ∈ layers, (key, version) ∈ layer.entries := by
  induction layers with
  | nil => simp [newest] at found
  | cons layer older induction =>
      rw [newest] at found
      cases here : layer.get key with
      | some other =>
          rw [here, Option.some_or] at found
          obtain rfl := Option.some.inj found
          exact ⟨layer, List.mem_cons_self, SortedMap.mem_of_get here⟩
      | none =>
          rw [here, Option.none_or] at found
          obtain ⟨other, member, inside⟩ := induction found
          exact ⟨other, List.mem_cons_of_mem _ member, inside⟩

theorem compacted_lossless (stored : Stored sizing tree.disk tables records torn) :
    ∀ entry ∈ (tree.compacted tables).map.entries, Lossless entry.1 := by
  intro entry member
  have inMerged : entry ∈ (mergeRange none none (tables.map (·.map))).entries :=
    List.mem_of_mem_filter member
  have found := SortedMap.get_of_mem inMerged
  rw [get_merged] at found
  obtain ⟨layer, isLayer, inside⟩ := newest_mem found
  obtain ⟨table, isTable, rfl⟩ := List.mem_map.mp isLayer
  exact (stored.sound table isTable).lossless _ inside

theorem compacted_sound (healthy : Healthy sizing tree tables records torn)
    (fits : Fits (tree.compactWritten sizing tables)) :
    (tree.compacted tables).Sound sizing := by
  have written : FileOp.write (tree.compacted tables).file
      ((tree.compacted tables).bytes sizing) ∈ tree.compactWritten sizing tables := by
    simp [compactWritten]
  exact ⟨fits.generations _ _ written, compacted_lossless healthy.stored, fits.bytes _ written⟩

theorem compactWritten_stored (healthy : Healthy sizing tree tables records torn)
    (sound : (tree.compacted tables).Sound sizing) :
    Stored sizing (tree.compactWritten sizing tables) (tree.compacted tables :: tables) records
      torn := by
  refine healthy.stored.write sound ?_
  rw [← healthy.maxGen]
  exact Nat.lt_succ_self _

theorem opened_files {sstables : List SSTable} (opened : Opened sstables tables) :
    sstables.map (·.file) = tables.map (·.file) := by
  induction opened with
  | nil => rfl
  | cons here _ induction => rw [List.map_cons, List.map_cons, here.1, induction]

/-- A compaction leaves one table in the place of all. -/
theorem compact_healthy (healthy : Healthy sizing tree tables records torn)
    (several : 1 < tree.sstables.length) (sound : (tree.compacted tables).Sound sizing) :
    (tree.compact sizing).2 = true ∧
      (tree.compact sizing).1.disk = tree.compactWritten sizing tables ++
        tables.map (fun table => .delete table.file) ∧
      (tree.compact sizing).1.memtable = tree.memtable ∧
      Healthy sizing (tree.compact sizing).1 [tree.compacted tables] records torn := by
  have stored := compactWritten_stored healthy sound
  obtain ⟨table, opens, isFile, holds⟩ := stored.openTable List.mem_cons_self
  have deletes : (tree.sstables.map fun s => (.delete s.file : FileOp FileName)) =
      tables.map fun table => .delete table.file := by
    have files := congrArg (List.map (FileOp.delete : FileName → FileOp FileName))
      (opened_files healthy.opened)
    rwa [List.map_map, List.map_map] at files
  rw [compact_eq sizing healthy.opened several, opens, deletes]
  refine ⟨rfl, rfl, rfl, ?_, .cons ⟨isFile, holds⟩ .nil, healthy.memtable, healthy.pending, rfl⟩
  exact Stored.deletes tables (by simpa using stored)

end Calls

end LsmTree

end FoundationsLab.Lsm
