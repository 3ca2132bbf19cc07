import FoundationsLab.Lsm.CompactionCrash

/-! # Crashes during a flush

A flush writes the new table under its final name. As long as it is not complete the
directory cannot be opened, unless the bytes that are there pass for a table; the log
still holds everything, but nobody reads it. -/

namespace FoundationsLab.Lsm

open Foundation
open Foundation.JavaString
open Foundation.Directory
open Foundation.Layers
open WriteAheadLog

/-- Where a flush can stop: before it writes, with some bytes of the table written, or
behind the truncation of the log. -/
inductive FlushStop where
  | before
  | writing (count : Nat)
  | truncated

namespace FlushStop

def written (sizing : Sizing) (tree : LsmTree) : FlushStop → Directory FileName
  | before => tree.disk
  | writing count =>
      tree.disk ++ [.write tree.flushed.file ((tree.flushed.bytes sizing).take count)]
  | truncated => tree.flushWritten sizing ++ [.write walFile []]

/-- The directory at the stop. A flush of an empty memtable does nothing. -/
def disk (sizing : Sizing) (tree : LsmTree) (stop : FlushStop) : Directory FileName :=
  if tree.memtable.map.entries = [] then tree.disk else stop.written sizing tree

end FlushStop

/-- The bytes open as a table that changes no answer of the tree. -/
def PassesForTable (tree : LsmTree) (bytes : Bytes) : Prop :=
  ∃ table, SSTable.new tree.flushed.file bytes = some table ∧
    (∀ key, { tree with sstables := table :: tree.sstables }.get key = tree.get key) ∧
    ∀ fromKey toKey, { tree with sstables := table :: tree.sstables }.scan fromKey toKey =
      tree.scan fromKey toKey

/-- The table is not partly written, or what is written passes for a table. -/
def FlushStop.Complete (sizing : Sizing) (tree : LsmTree) : FlushStop → Prop
  | .writing count =>
      tree.memtable.map.entries = [] ∨ (tree.flushed.bytes sizing).length ≤ count ∨
        PassesForTable tree ((tree.flushed.bytes sizing).take count)
  | _ => True

/-! ## Opening a directory with one more file -/

theorem openTables_append (disk : Directory FileName) (files later : List FileName)
    (sstables : List SSTable) (maxGen : Nat) :
    LsmTree.openTables disk (files ++ later) sstables maxGen =
      (LsmTree.openTables disk files sstables maxGen).bind fun opened =>
        LsmTree.openTables disk later opened.1 opened.2 := by
  induction files generalizing sstables maxGen with
  | nil => rfl
  | cons file files induction =>
      simp only [List.cons_append, LsmTree.openTables, Option.bind_eq_bind, induction,
        Option.bind_assoc]

theorem openTables_congr {disk disk' : Directory FileName} (files : List FileName)
    (same : ∀ file ∈ files, read disk file = read disk' file) (sstables : List SSTable)
    (maxGen : Nat) :
    LsmTree.openTables disk files sstables maxGen =
      LsmTree.openTables disk' files sstables maxGen := by
  induction files generalizing sstables maxGen with
  | nil => rfl
  | cons file files induction =>
      have here : LsmTree.openTable disk file = LsmTree.openTable disk' file := by
        rw [LsmTree.openTable, LsmTree.openTable, same file List.mem_cons_self]
      have later := induction fun other member => same other (List.mem_cons_of_mem _ member)
      simp only [LsmTree.openTables, here, later]

/-- Which files there are does not depend on what is written to one of them. -/
theorem names_write (disk : Directory FileName) (name : FileName) (bytes bytes' : Bytes) :
    names (disk ++ [FileOp.write name bytes]) = names (disk ++ [FileOp.write name bytes']) := by
  refine (names_sorted _).eq_of_mem_iff (names_sorted _) fun other => ?_
  rw [mem_names, mem_names, read_write, read_write]
  split <;> simp

section

variable {sizing : Sizing} {tree : LsmTree} {tables : List DiskTable} {records : List Entry}
  {torn : Bytes}

/-- With a file behind all tables, opening depends on whether it opens. -/
theorem openExisting_written (healthy : Healthy sizing tree tables records torn)
    (sound : tree.flushed.Sound sizing) (bytes : Bytes) :
    ∃ opened, Opened opened tables ∧
      LsmTree.openExistingSSTables (tree.disk ++ [.write tree.flushed.file bytes]) =
        (SSTable.new tree.flushed.file bytes).map fun table =>
          (table :: opened, max (newestGen tables) (tree.flushed.gen : Int).toNat) := by
  obtain ⟨opened, opens, isOpen⟩ := healthy.stored.openTables tables.reverse [] [] (by simp) .nil
  have stored := LsmTree.flushWritten_stored healthy sound
  have isNames : ((names (tree.disk ++ [FileOp.write tree.flushed.file bytes])).filter
      isTable).insertionSort (· ≤ ·) = tables.reverse.map (·.file) ++ [tree.flushed.file] := by
    have whole := stored.table_names
    rw [LsmTree.flushWritten, names_write _ _ _ bytes] at whole
    rw [whole]
    simp
  have unwritten : ∀ file ∈ tables.reverse.map (·.file),
      read (tree.disk ++ [.write tree.flushed.file bytes]) file = read tree.disk file := by
    intro file member
    obtain ⟨table, isTable, rfl⟩ := List.mem_map.mp member
    refine read_of_ne _ ?_
    have below : table.gen < tree.flushed.gen := by
      have := healthy.stored.gen_le_newestGen table (List.mem_reverse.mp isTable)
      rw [← healthy.maxGen] at this
      exact Nat.lt_succ_of_le this
    exact (sstFile_lt below sound.gen).ne
  refine ⟨opened, isOpen, ?_⟩
  rw [LsmTree.openExistingSSTables, isNames, openTables_append, openTables_congr _ unwritten]
  have opensOld : LsmTree.openTables tree.disk (tables.reverse.map (·.file)) [] 0 =
      some (opened, newestGen tables) := opens
  have opensNew : LsmTree.openTable (tree.disk ++ [.write tree.flushed.file bytes])
      tree.flushed.file = SSTable.new tree.flushed.file bytes := openTable_written _ _ _
  have isGeneration : generation tree.flushed.file = some (tree.flushed.gen : Int) :=
    generation_sstFile sound.gen
  rw [opensOld, Option.bind_some, LsmTree.openTables, isGeneration, opensNew]
  cases SSTable.new tree.flushed.file bytes <;> rfl

/-- The tree that is opened when the file behind all tables opens: the memtable is that of
the log, and the tables that were there hold what they held. -/
theorem reopen_written (healthy : Healthy sizing tree tables records torn)
    (sound : tree.flushed.Sound sizing) (bytes : Bytes) :
    ∃ opened disk maxGen, Opened opened tables ∧
      tree.reopen (tree.disk ++ [.write tree.flushed.file bytes]) =
        (SSTable.new tree.flushed.file bytes).map fun table =>
          { tree with
            disk := disk
            pending := []
            sstables := table :: opened
            maxGen := maxGen } := by
  obtain ⟨opened, isOpen, opens⟩ := openExisting_written healthy sound bytes
  have sameLog : (read (tree.disk ++ [.write tree.flushed.file bytes] ++ [.append walFile []])
      walFile).getD [] = encodeRecords records ++ torn := by
    have different : walFile ≠ (FileOp.write tree.flushed.file bytes).name :=
      (sstFile_ne_walFile tree.flushed.gen).symm
    rw [read_append, if_pos rfl, read_of_ne _ different, ← healthy.stored.log]
    simp
  refine ⟨opened, tree.disk ++ [.write tree.flushed.file bytes] ++ [.append walFile []],
    max (newestGen tables) (tree.flushed.gen : Int).toNat, isOpen, ?_⟩
  rw [LsmTree.reopen, LsmTree.new, opens]
  cases SSTable.new tree.flushed.file bytes with
  | none => rfl
  | some table =>
      simp only [Option.map_some, Option.bind_eq_bind, Option.bind_some, sameLog,
        replay_records healthy.stored.recordable healthy.stored.torn]
      rw [healthy.memtable, replayed]

theorem getTables_cons_congr {opened opened' : List SSTable} (isOpen : Opened opened tables)
    (isOpen' : Opened opened' tables) (table : SSTable) (key : JavaString) :
    LsmTree.getTables key (table :: opened) = LsmTree.getTables key (table :: opened') := by
  rw [LsmTree.getTables, LsmTree.getTables, isOpen.getTables, isOpen'.getTables]

theorem mergeTables_cons_congr {opened opened' : List SSTable} (isOpen : Opened opened tables)
    (isOpen' : Opened opened' tables) (table : SSTable) (fromKey toKey : Option JavaString) :
    LsmTree.mergeTables (table :: opened) fromKey toKey =
      LsmTree.mergeTables (table :: opened') fromKey toKey := by
  have unfolded (sstables : List SSTable) :
      LsmTree.mergeTables (table :: sstables) fromKey toKey =
        (LsmTree.mergeTables sstables fromKey toKey).bind fun merged =>
          (table.range fromKey toKey).bind fun entries => some (merged.putAll entries) := rfl
  rw [unfolded, unfolded, isOpen.mergeTables, isOpen'.mergeTables]

theorem sameAnswers_written_iff (healthy : Healthy sizing tree tables records torn)
    (sound : tree.flushed.Sound sizing) (bytes : Bytes) :
    SameAnswers tree (tree.disk ++ [.write tree.flushed.file bytes]) ↔
      PassesForTable tree bytes := by
  obtain ⟨opened, disk, maxGen, isOpen, opens⟩ := reopen_written healthy sound bytes
  have sameGet (table : SSTable) (key : JavaString) :
      LsmTree.get { tree with
        disk := disk, pending := [], sstables := table :: opened, maxGen := maxGen } key =
      LsmTree.get { tree with sstables := table :: tree.sstables } key := by
    rw [LsmTree.get, LsmTree.get]
    dsimp only
    rw [getTables_cons_congr isOpen healthy.opened]
  have sameScan (table : SSTable) (fromKey toKey : Option JavaString) :
      LsmTree.scan { tree with
        disk := disk, pending := [], sstables := table :: opened, maxGen := maxGen } fromKey toKey =
      LsmTree.scan { tree with sstables := table :: tree.sstables } fromKey toKey := by
    rw [LsmTree.scan, LsmTree.scan]
    dsimp only
    rw [mergeTables_cons_congr isOpen healthy.opened]
  rw [SameAnswers, PassesForTable, opens]
  constructor
  · rintro ⟨next, isNext, gets, scans⟩
    obtain ⟨table, isTable, rfl⟩ := Option.map_eq_some_iff.mp isNext
    exact ⟨table, isTable, fun key => (sameGet table key).symm.trans (gets key),
      fun fromKey toKey => (sameScan table fromKey toKey).symm.trans (scans fromKey toKey)⟩
  · rintro ⟨table, isTable, gets, scans⟩
    refine ⟨_, by rw [isTable]; rfl, fun key => (sameGet table key).trans (gets key),
      fun fromKey toKey => (sameScan table fromKey toKey).trans (scans fromKey toKey)⟩

/-- A stop with the answers of the tree. -/
theorem sameAnswers_of_stored {disk : Directory FileName} {tables' : List DiskTable}
    {records' : List Entry} {torn' : Bytes}
    (healthy : Healthy sizing tree tables records torn)
    (stored : Stored sizing disk tables' records' torn')
    (same : ∀ key, visible (layers (replayed records') tables') key =
      visible (layers tree.memtable tables) key) : SameAnswers tree disk := by
  have represents := represents_flatten (layers tree.memtable tables)
  obtain ⟨next, opens, serves⟩ :=
    stored.reopens (fun key => (same key).trans (represents key)) tree
  exact sameAnswers_of_serves ⟨tables, records, healthy, represents⟩ opens serves fun _ => rfl

end

/-- A flush that stops is safe exactly when it does not leave a part of the new table that
fails to pass for one. -/
theorem flush_crash_safe_iff (sizing : Sizing) (store : Store) (reached : Reached sizing store)
    (fits : Fits (store.tree.flush sizing).1.disk) (stop : FlushStop) :
    SameAnswers store.tree (stop.disk sizing store.tree) ↔ stop.Complete sizing store.tree := by
  obtain ⟨tables, records, torn, healthy⟩ :=
    reached.healthy (fits.of_prefix (flush_grows sizing store.tree))
  have unchanged : SameAnswers store.tree store.tree.disk :=
    sameAnswers_of_stored healthy healthy.stored fun key => by rw [healthy.memtable]
  by_cases isEmpty : store.tree.memtable.map.entries = []
  · rw [FlushStop.disk, if_pos isEmpty]
    refine iff_of_true unchanged ?_
    cases stop with
    | before => trivial
    | writing count => exact .inl isEmpty
    | truncated => trivial
  · have fitsWritten : Fits (store.tree.flushWritten sizing) := by
      refine fits.of_prefix ?_
      rw [flush_nonempty sizing isEmpty]
      split
      · exact (LsmTree.flushMemtable_grows sizing store.tree).trans (maybeCompact_grows _ _)
      · exact LsmTree.flushMemtable_grows sizing store.tree
    have sound := LsmTree.flushed_sound healthy fitsWritten
    have stored := LsmTree.flushWritten_stored healthy sound
    rw [FlushStop.disk, if_neg isEmpty]
    cases stop with
    | before => exact iff_of_true unchanged trivial
    | writing count =>
        by_cases isWhole : (store.tree.flushed.bytes sizing).length ≤ count
        · refine iff_of_true ?_ (.inr (.inl isWhole))
          rw [FlushStop.written, List.take_of_length_le isWhole]
          refine sameAnswers_of_stored healthy stored fun key => ?_
          rw [← healthy.memtable, layers, layers, List.map_cons, visible_cons, visible_cons,
            visible_cons]
          change (store.tree.memtable.map.get key).getD
            ((store.tree.memtable.map.get key).getD _) = _
          cases store.tree.memtable.map.get key <;> rfl
        · simp only [FlushStop.Complete, isEmpty, isWhole, false_or]
          exact sameAnswers_written_iff healthy sound _
    | truncated =>
        refine iff_of_true ?_ trivial
        obtain ⟨-, isDisk, -, healthy'⟩ := LsmTree.flushMemtable_healthy healthy sound
        have truncated := healthy'.stored
        rw [isDisk] at truncated
        refine sameAnswers_of_stored healthy truncated fun key => ?_
        rw [layers, layers, List.map_cons, visible_cons]
        rfl

/-- One write that is in the log only. -/
def loggedStore : Store :=
  ((Store.create 1000 4).run onePercent [.call (.put (ofAscii ['a']) [1])]).1

theorem loggedStore_reached : Reached onePercent loggedStore where
  run := by
    refine ⟨1000, 4, [.call (.put (ofAscii ['a']) [1])], ?_, ⟨trivial, trivial⟩, rfl⟩
    intro event member entry isEntry
    obtain rfl := List.mem_singleton.mp member
    obtain rfl := Option.some.inj isEntry
    exact ⟨by decide, by decide, by simp⟩
  inOrder := by decide +kernel

theorem flush_crash_safe_iff_created :
    SameAnswers loggedStore.tree ((FlushStop.writing 0).disk onePercent loggedStore.tree) ↔
      (FlushStop.writing 0).Complete onePercent loggedStore.tree :=
  flush_crash_safe_iff onePercent loggedStore loggedStore_reached (.of_short (by decide +kernel))
    (.writing 0)

/-- The file of the new table is there and empty: the store cannot be opened. -/
theorem created_table_locks_store :
    Reached onePercent loggedStore ∧
      loggedStore.tree.reopen ((FlushStop.writing 0).disk onePercent loggedStore.tree) = none ∧
      ¬ SameAnswers loggedStore.tree ((FlushStop.writing 0).disk onePercent loggedStore.tree) := by
  have locked : (loggedStore.tree.reopen
      ((FlushStop.writing 0).disk onePercent loggedStore.tree)).isNone := by decide +kernel
  rw [Option.isNone_iff_eq_none] at locked
  refine ⟨loggedStore_reached, locked, ?_⟩
  rintro ⟨next, opens, -⟩
  rw [locked] at opens
  cases opens

end FoundationsLab.Lsm
