import FoundationsLab.Lsm.Refinement

/-! # Trees over a log that cannot be trusted

An open tree never reads its log. Whatever the log holds, the tree answers as if it
held the records since the last flush, and the next flush writes them to a table. -/

namespace FoundationsLab.Lsm

open Foundation
open Foundation.JavaString
open Foundation.Directory
open Foundation.Layers
open WriteAheadLog

/-- The directories hold the same files, the log apart. -/
def SameTables (disk disk' : Directory FileName) : Prop :=
  ∀ name, name ≠ walFile → read disk name = read disk' name

theorem SameTables.append {disk disk' : Directory FileName} (same : SameTables disk disk')
    (ops : Directory FileName) : SameTables (disk ++ ops) (disk' ++ ops) :=
  fun name different => read_append_congr (same name different) ops

/-- The tree over another directory. -/
def LsmTree.over (tree : LsmTree) (disk : Directory FileName) : LsmTree := { tree with disk := disk }

/-- Over a directory with the right log in it the tree would be healthy. -/
structure Mended (sizing : Sizing) (tree : LsmTree) (map : SortedMap JavaString Bytes) : Prop where
  healthy : ∃ disk tables records, SameTables tree.disk disk ∧
    Healthy sizing (tree.over disk) tables records [] ∧
    Represents (layers tree.memtable tables) map

section

variable {sizing : Sizing} {tree : LsmTree} {map : SortedMap JavaString Bytes}
  {tables : List DiskTable} {records : List Entry} {torn : Bytes} {disk : Directory FileName}

theorem Mended.get (mended : Mended sizing tree map) (key : JavaString) :
    tree.get key = some (map.get key) := by
  obtain ⟨disk, tables, records, -, healthy, represents⟩ := mended.healthy
  have answers : (tree.over disk).get key = _ := healthy.get key
  rw [← represents key]
  exact answers

theorem Serves.mended (serves : Serves sizing tree map torn) : Mended sizing tree map := by
  obtain ⟨tables, records, healthy, represents⟩ := serves.healthy
  refine ⟨tree.disk ++ [.write walFile (encodeRecords records)], tables, records,
    fun name different => (read_of_ne _ different).symm, ?_, represents⟩
  refine ⟨healthy.stored.relog (fun name different => read_of_ne _ different) ?_
    healthy.stored.recordable torn_nil, healthy.opened, healthy.memtable, healthy.pending,
    healthy.maxGen⟩
  rw [LsmTree.over, read_write, if_pos rfl, List.append_nil]
  rfl

/-- A write goes to the log, and is visible. -/
theorem Mended.logged (mended : Mended sizing tree map) {entry : Entry}
    (recordable : Recordable entry) : Mended sizing (logged tree entry) (applyEntry map entry) := by
  obtain ⟨disk, tables, records, same, healthy, represents⟩ := mended.healthy
  have serves : Serves sizing (tree.over disk) map [] := ⟨tables, records, healthy, represents⟩
  obtain ⟨tables', records', healthy', represents'⟩ := (logged_serves serves recordable).healthy
  obtain ⟨-, appends, pending⟩ := append_record ⟨tree.disk, tree.pending⟩ entry.1 entry.2
  obtain ⟨-, appends', -⟩ := append_record ⟨disk, tree.pending⟩ entry.1 entry.2
  refine ⟨(Lsm.logged (tree.over disk) entry).disk, tables', records', fun name different => ?_,
    ?_, represents'⟩
  · exact (appends.others name different).trans
      ((same name different).trans (appends'.others name different).symm)
  · exact ⟨healthy'.stored, healthy'.opened, healthy'.memtable, pending, healthy'.maxGen⟩

theorem openTable_written (disk : Directory FileName) (name : FileName) (bytes : Bytes) :
    LsmTree.openTable (disk ++ [.write name bytes]) name = SSTable.new name bytes := by
  rw [LsmTree.openTable, read_write, if_pos rfl, Option.bind_some]

/-- A flush does not look at the log, and replaces it. -/
theorem Mended.flushMemtable (mended : Mended sizing tree map)
    (fits : Fits (tree.flushWritten sizing)) :
    (tree.flushMemtable sizing).2 = true ∧ Serves sizing (tree.flushMemtable sizing).1 map [] := by
  obtain ⟨disk, tables, records, same, healthy, represents⟩ := mended.healthy
  have written : FileOp.write tree.flushed.file (tree.flushed.bytes sizing) ∈
      tree.flushWritten sizing := by simp [LsmTree.flushWritten]
  have lossless := LsmTree.replayed_lossless healthy.stored.recordable
  rw [← healthy.memtable] at lossless
  have sound : (tree.over disk).flushed.Sound sizing :=
    ⟨fits.generations _ _ written, lossless, fits.bytes _ written⟩
  have stored := LsmTree.flushWritten_stored healthy sound
  obtain ⟨table, opens, isFile, holds⟩ := stored.openTable List.mem_cons_self
  have opensHere : LsmTree.openTable (tree.flushWritten sizing) tree.flushed.file = some table := by
    rw [← opens, LsmTree.flushWritten, LsmTree.flushWritten, openTable_written]
    exact (openTable_written _ _ _).symm
  have out : WriteAheadLog.truncate ⟨tree.flushWritten sizing, tree.pending⟩ =
      ⟨tree.flushWritten sizing ++ [.write walFile []], []⟩ := by
    have empty : tree.pending = [] := healthy.pending
    rw [WriteAheadLog.truncate, Output.flush, if_pos empty]
  rw [LsmTree.flushMemtable_eq, opensHere]
  dsimp only
  rw [out]
  refine ⟨rfl, tree.flushed :: tables, [], ⟨?_, .cons ⟨isFile, holds⟩ healthy.opened, rfl, rfl, rfl⟩,
    fun key => ?_⟩
  · refine stored.relog (fun name different => ?_) ?_
      (fun entry member => absurd member List.not_mem_nil) torn_nil
    · rw [read_of_ne _ different]
      exact same.append _ name different
    · rw [read_write, if_pos rfl]
      rfl
  · rw [← represents key, layers, visible_cons]
    rfl

theorem Mended.flush (mended : Mended sizing tree map)
    (nonempty : tree.memtable.map.entries ≠ []) (fits : Fits (tree.flush sizing).1.disk) :
    (tree.flush sizing).2 = true ∧ Serves sizing (tree.flush sizing).1 map [] := by
  have fitsWritten : Fits (tree.flushWritten sizing) := by
    refine fits.of_prefix ?_
    rw [flush_nonempty sizing nonempty]
    split
    · exact (LsmTree.flushMemtable_grows sizing tree).trans (maybeCompact_grows _ _)
    · exact LsmTree.flushMemtable_grows sizing tree
  obtain ⟨returned, serves⟩ := mended.flushMemtable fitsWritten
  rw [flush_nonempty sizing nonempty, if_pos returned] at fits ⊢
  exact maybeCompact_serves serves fits

/-- A compaction does not look at the log either, and leaves it as it is. -/
theorem Mended.compact (mended : Mended sizing tree map)
    (fits : Fits (tree.compact sizing).1.disk) :
    (tree.compact sizing).2 = true ∧ Mended sizing (tree.compact sizing).1 map ∧
      (tree.compact sizing).1.memtable = tree.memtable := by
  by_cases several : 1 < tree.sstables.length
  · obtain ⟨disk, tables, records, same, healthy, represents⟩ := mended.healthy
    have fitsWritten := fits.of_prefix (LsmTree.compactWritten_grows sizing healthy.opened several)
    have written : FileOp.write (tree.compacted tables).file
        ((tree.compacted tables).bytes sizing) ∈ tree.compactWritten sizing tables := by
      simp [LsmTree.compactWritten]
    have sound : ((tree.over disk).compacted tables).Sound sizing :=
      ⟨fitsWritten.generations _ _ written, LsmTree.compacted_lossless healthy.stored,
        fitsWritten.bytes _ written⟩
    obtain ⟨table, opens, -, -⟩ :=
      (LsmTree.compactWritten_stored healthy sound).openTable List.mem_cons_self
    have opensHere : LsmTree.openTable (tree.compactWritten sizing tables)
        (tree.compacted tables).file = some table := by
      rw [← opens, LsmTree.compactWritten, LsmTree.compactWritten, openTable_written]
      exact (openTable_written _ _ _).symm
    obtain ⟨-, -, -, healthy'⟩ := LsmTree.compact_healthy healthy several sound
    rw [LsmTree.compact_eq sizing healthy.opened several, opens] at healthy'
    have opened : Opened tree.sstables tables := healthy.opened
    rw [LsmTree.compact_eq sizing opened several, opensHere]
    refine ⟨rfl, ⟨_, [tree.compacted tables], records, ?_, healthy', fun key => ?_⟩, rfl⟩
    · exact (same.append _).append _
    · rw [← represents key, layers, layers, visible_cons, visible_cons, List.map_singleton,
        LsmTree.compacted, visible_compacted]
      simp [visible, newest]
  · rw [LsmTree.compact, if_pos (by omega)]
    exact ⟨rfl, mended, rfl⟩

end

end FoundationsLab.Lsm
