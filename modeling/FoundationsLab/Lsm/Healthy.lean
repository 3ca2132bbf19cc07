import FoundationsLab.Lsm.FileNames
import FoundationsLab.Lsm.TableWrite

/-! # Healthy trees

What the files of a directory hold, and that an open tree holds the same. Reads of
a healthy tree are reads of its layers: the memtable and the tables, the newest
first. -/

namespace FoundationsLab.Lsm

open Foundation
open Foundation.JavaString
open Foundation.Directory
open Foundation.Layers
open WriteAheadLog

/-- The contents of a table file, and the count its filter was sized for. -/
structure DiskTable where
  gen : Nat
  map : Layer JavaString Bytes
  expectedCount : Nat

namespace DiskTable

def file (table : DiskTable) : FileName := sstFile table.gen

def bytes (sizing : Sizing) (table : DiskTable) : Bytes :=
  SSTable.write sizing table.map.entries table.expectedCount

structure Sound (sizing : Sizing) (table : DiskTable) : Prop where
  gen : table.gen < 10 ^ 8
  lossless : ∀ entry ∈ table.map.entries, Lossless entry.1
  small : (table.bytes sizing).length < 2 ^ 31

end DiskTable

/-- The newer tables come first. -/
def NewestFirst (tables : List DiskTable) : Prop :=
  tables.Pairwise fun newer older => older.gen < newer.gen

/-- The generation of the newest table. -/
def newestGen (tables : List DiskTable) : Nat := (tables.map (·.gen)).headD 0

/-- The files of a directory: the tables, and a log of complete records that may end
with a part of one more. -/
structure Stored (sizing : Sizing) (disk : Directory FileName) (tables : List DiskTable)
    (records : List Entry) (torn : Bytes) : Prop where
  sound : ∀ table ∈ tables, table.Sound sizing
  newestFirst : NewestFirst tables
  files : ∀ table ∈ tables, read disk table.file = some (table.bytes sizing)
  noOthers : ∀ name, isTable name = true → (read disk name).isSome →
    ∃ table ∈ tables, name = table.file
  log : (read disk walFile).getD [] = encodeRecords records ++ torn
  recordable : ∀ entry ∈ records, Recordable entry
  torn : Torn torn

/-- The open tables are the tables of the directory. -/
def Opened (sstables : List SSTable) (tables : List DiskTable) : Prop :=
  List.Forall₂ (fun sstable table => sstable.file = table.file ∧ sstable.Holds table.map)
    sstables tables

def replayed (records : List Entry) : MemTable :=
  records.foldl (fun memtable record => memtable.update record.1 record.2) .empty

/-- The open tree and its directory agree. -/
structure Healthy (sizing : Sizing) (tree : LsmTree) (tables : List DiskTable)
    (records : List Entry) (torn : Bytes) : Prop where
  stored : Stored sizing tree.disk tables records torn
  opened : Opened tree.sstables tables
  memtable : tree.memtable = replayed records
  pending : tree.pending = []
  maxGen : tree.maxGen = newestGen tables

/-- The layers of a tree, the newest first. -/
def layers (memtable : MemTable) (tables : List DiskTable) : List (Layer JavaString Bytes) :=
  memtable.map :: tables.map (·.map)

/-! ## Reads -/

section Reads

variable {sstables : List SSTable} {tables : List DiskTable}

theorem Opened.getTables (opened : Opened sstables tables) (key : JavaString) :
    LsmTree.getTables key sstables = some (visible (tables.map (·.map)) key) := by
  induction opened with
  | nil => rfl
  | @cons sstable table sstables tables here _ induction =>
      rw [LsmTree.getTables, here.2.get, visible, List.map_cons, newest]
      rcases table.map.get key with _ | _ | value
      · exact induction
      · rfl
      · rfl

theorem Opened.mergeTables (opened : Opened sstables tables) (fromKey toKey : Option JavaString) :
    LsmTree.mergeTables sstables fromKey toKey =
      some (mergeRange fromKey toKey (tables.map (·.map))) := by
  induction opened with
  | nil => rfl
  | @cons sstable table sstables tables here _ induction =>
      have unfolded : LsmTree.mergeTables (sstable :: sstables) fromKey toKey =
          (LsmTree.mergeTables sstables fromKey toKey).bind fun merged =>
            (sstable.range fromKey toKey).bind fun entries => some (merged.putAll entries) := rfl
      rw [unfolded, induction, here.2.range]
      rfl

theorem Healthy.get {sizing : Sizing} {tree : LsmTree} {records : List Entry} {torn : Bytes}
    (healthy : Healthy sizing tree tables records torn) (key : JavaString) :
    tree.get key = some (visible (layers tree.memtable tables) key) := by
  rw [LsmTree.get, healthy.opened.getTables, layers, visible, visible, newest]
  cases tree.memtable.map.get key <;> rfl

theorem Healthy.scan {sizing : Sizing} {tree : LsmTree} {records : List Entry} {torn : Bytes}
    (healthy : Healthy sizing tree tables records torn) (fromKey toKey : Option JavaString) :
    tree.scan fromKey toKey =
      some (live (mergeRange fromKey toKey (layers tree.memtable tables)).entries) := by
  have inWindow : (tree.memtable.map.entries.filter fun entry =>
      !fromKey.any (entry.1 < ·) && !toKey.any (· ≤ entry.1)) =
        tree.memtable.map.range fromKey toKey := by
    refine List.filter_congr fun entry _ => ?_
    rw [Bool.eq_iff_iff, decide_eq_true_eq, SSTable.inRange_iff]
    simp
  rw [LsmTree.scan, healthy.opened.mergeTables]
  simp only [Option.bind_eq_bind, Option.bind_some, inWindow]
  rfl

end Reads

/-! ## Opening a directory -/

theorem Stored.openTable {sizing : Sizing} {disk : Directory FileName} {tables : List DiskTable}
    {records : List Entry} {torn : Bytes} (stored : Stored sizing disk tables records torn)
    {table : DiskTable} (member : table ∈ tables) :
    ∃ sstable, LsmTree.openTable disk table.file = some sstable ∧ sstable.file = table.file ∧
      sstable.Holds table.map := by
  have sound := stored.sound table member
  obtain ⟨sstable, opens, isFile, holds⟩ := SSTable.new_write table.file sound.lossless sound.small
  refine ⟨sstable, ?_, isFile, holds⟩
  rw [LsmTree.openTable, stored.files table member, Option.bind_some]
  exact opens

theorem Stored.table_sorted {sizing : Sizing} {disk : Directory FileName}
    {tables : List DiskTable} {records : List Entry} {torn : Bytes}
    (stored : Stored sizing disk tables records torn) :
    (tables.reverse.map (·.file)).Pairwise (· < ·) := by
  rw [List.pairwise_map, List.pairwise_reverse]
  refine stored.newestFirst.imp_of_mem fun newer _ below => ?_
  exact sstFile_lt below (stored.sound _ newer).gen

/-- The directory lists the tables, the oldest first. -/
theorem Stored.table_names {sizing : Sizing} {disk : Directory FileName}
    {tables : List DiskTable} {records : List Entry} {torn : Bytes}
    (stored : Stored sizing disk tables records torn) :
    (disk.names.filter isTable).insertionSort (· ≤ ·) = tables.reverse.map (·.file) := by
  have sorted : (disk.names.filter isTable).Pairwise (· < ·) :=
    (names_sorted disk).sublist List.filter_sublist
  have unchanged := (sorted.imp fun below => le_of_lt below).insertionSort_eq
  rw [unchanged]
  refine sorted.eq_of_mem_iff stored.table_sorted fun name => ?_
  rw [List.mem_filter, mem_names, List.mem_map]
  constructor
  · rintro ⟨exists', isTable⟩
    obtain ⟨table, member, rfl⟩ := stored.noOthers name isTable exists'
    exact ⟨table, List.mem_reverse.mpr member, rfl⟩
  · rintro ⟨table, member, rfl⟩
    rw [stored.files table (List.mem_reverse.mp member)]
    exact ⟨rfl, isTable_sstFile table.gen⟩

/-- The loop that opens the tables, with the tables `done` open already. -/
theorem Stored.openTables {sizing : Sizing} {disk : Directory FileName}
    {tables : List DiskTable} {records : List Entry} {torn : Bytes}
    (stored : Stored sizing disk tables records torn) (rest : List DiskTable) :
    ∀ (done : List DiskTable) (sstables : List SSTable), rest.reverse ++ done = tables →
      Opened sstables done → ∃ opened,
        LsmTree.openTables disk (rest.map (·.file)) sstables (newestGen done) =
          some (opened, newestGen tables) ∧ Opened opened tables := by
  induction rest with
  | nil =>
      rintro done sstables rfl isOpen
      exact ⟨sstables, rfl, isOpen⟩
  | cons table rest induction =>
      intro done sstables split isOpen
      have member : table ∈ tables := by simp [← split]
      obtain ⟨sstable, opens, isFile, holds⟩ := stored.openTable member
      have newest : max (newestGen done) table.gen = newestGen (table :: done) := by
        have order := stored.newestFirst
        rw [← split, List.reverse_cons, List.append_assoc] at order
        have later := (List.pairwise_append.mp order).2.1
        cases done with
        | nil => simp [newestGen]
        | cons older done =>
            have below := (List.pairwise_cons.mp later).1 older List.mem_cons_self
            simp only [newestGen, List.map_cons, List.headD_cons]
            omega
      obtain ⟨opened, opens', isOpen'⟩ := induction (table :: done) (sstable :: sstables)
        (by simpa using split) (.cons ⟨isFile, holds⟩ isOpen)
      refine ⟨opened, ?_, isOpen'⟩
      rw [List.map_cons, LsmTree.openTables, DiskTable.file,
        generation_sstFile (stored.sound table member).gen]
      rw [DiskTable.file] at opens
      simp only [Option.bind_eq_bind, Option.bind_some, opens, Int.toNat_natCast, newest]
      exact opens'

/-- Files other than the log decide about the tables. -/
theorem Stored.relog {sizing : Sizing} {disk disk' : Directory FileName}
    {tables : List DiskTable} {records records' : List Entry} {torn torn' : Bytes}
    (stored : Stored sizing disk tables records torn)
    (others : ∀ name, name ≠ walFile → read disk' name = read disk name)
    (log : (read disk' walFile).getD [] = encodeRecords records' ++ torn')
    (recordable : ∀ entry ∈ records', Recordable entry) (isTorn : Torn torn') :
    Stored sizing disk' tables records' torn' where
  sound := stored.sound
  newestFirst := stored.newestFirst
  files table member := by
    rw [others table.file (sstFile_ne_walFile table.gen)]
    exact stored.files table member
  noOthers name isTable exists' := by
    have different : name ≠ walFile := by
      rintro rfl
      rw [isTable_walFile] at isTable
      exact Bool.noConfusion isTable
    rw [others name different] at exists'
    exact stored.noOthers name isTable exists'
  log := log
  recordable := recordable
  torn := isTorn

/-- Every directory of this shape can be opened, and the tree is healthy. -/
theorem Stored.new {sizing : Sizing} {disk : Directory FileName} {tables : List DiskTable}
    {records : List Entry} {torn : Bytes} (stored : Stored sizing disk tables records torn)
    (memtableLimitBytes compactionThreshold : Int) :
    ∃ tree, LsmTree.new disk memtableLimitBytes compactionThreshold = some tree ∧
      Healthy sizing tree tables records torn ∧
      tree.memtableLimitBytes = memtableLimitBytes ∧
      tree.compactionThreshold = compactionThreshold ∧
      tree.disk = disk ++ [.append walFile []] := by
  obtain ⟨opened, opens, isOpen⟩ := stored.openTables tables.reverse [] [] (by simp) .nil
  have sameLog : (read (disk ++ [.append walFile []]) walFile).getD [] =
      encodeRecords records ++ torn := by
    rw [read_append, if_pos rfl]
    simpa using stored.log
  have again : Stored sizing (disk ++ [.append walFile []]) tables records torn :=
    stored.relog (fun name different => read_of_ne _ different) sameLog stored.recordable
      stored.torn
  have records' := replay_records stored.recordable stored.torn
  have existing : LsmTree.openExistingSSTables disk = some (opened, newestGen tables) := by
    rw [LsmTree.openExistingSSTables, stored.table_names]
    exact opens
  refine ⟨⟨memtableLimitBytes, compactionThreshold, disk ++ [.append walFile []], [],
    replayed records, opened, newestGen tables⟩, ?_, ⟨again, isOpen, rfl, rfl, rfl⟩, rfl, rfl, rfl⟩
  rw [LsmTree.new, existing]
  simp only [Option.bind_eq_bind, Option.bind_some, sameLog, records']
  rfl

end FoundationsLab.Lsm
