import FoundationsLab.Lsm.Refinement

/-! # What a run can pile up

The memtable and the number of tables stay bounded over every run, as the limits of the
tree say. The log does not: writes to one key make it grow without a flush. -/

namespace FoundationsLab.Lsm

open Foundation
open Foundation.JavaString
open Foundation.Directory
open WriteAheadLog

/-! ## The count of bytes -/

namespace MemTable

/-- The bytes that an entry counts for. -/
def weigh (entry : Entry) : Nat :=
  (getBytes entry.1).length + (entry.2.map List.length).getD 0 + 24

theorem entryBytes_eq (key : JavaString) (value : Option Bytes) :
    entryBytes key value = weigh (key, value) := by
  rw [entryBytes, weigh]
  push_cast
  rfl

/-- The counter is the sum over the entries. -/
def Exact (memtable : MemTable) : Prop := memtable.approxBytes = memtable.map.total weigh

theorem exact_empty : Exact empty := rfl

theorem Exact.update {memtable : MemTable} (exact : Exact memtable) (key : JavaString)
    (value : Option Bytes) : Exact (memtable.update key value) := by
  have weight := memtable.map.total_put weigh key value
  rw [Exact] at exact ⊢
  rw [MemTable.update]
  dsimp only
  rw [exact]
  cases found : memtable.map.get key with
  | none =>
      rw [found] at weight
      dsimp only
      rw [entryBytes_eq]
      simp only [Option.map_none, Option.getD_none] at weight
      omega
  | some old =>
      rw [found] at weight
      dsimp only
      rw [entryBytes_eq, entryBytes_eq]
      simp only [Option.map_some, Option.getD_some] at weight
      omega

theorem size_le_total (memtable : MemTable) :
    24 * memtable.map.size ≤ memtable.map.total weigh := by
  rw [SortedMap.size, SortedMap.total]
  induction memtable.map.entries with
  | nil => exact Nat.le_refl 0
  | cons entry entries induction =>
      have one : 24 ≤ weigh entry := Nat.le_add_left 24 _
      rw [List.map_cons, List.sum_cons, List.length_cons]
      omega

end MemTable

/-! ## Steps -/

/-- What holds of a tree with these settings between two calls. -/
structure Bounded (memtableLimitBytes compactionThreshold : Int) (tree : LsmTree) : Prop where
  sameLimit : tree.memtableLimitBytes = memtableLimitBytes
  sameThreshold : tree.compactionThreshold = compactionThreshold
  exact : tree.memtable.Exact
  belowLimit : tree.memtable.map.entries = [] ∨ tree.memtable.approxBytes < memtableLimitBytes
  fewTables : (tree.sstables.length : Int) ≤ max compactionThreshold 1

section Steps

variable {sizing : Sizing} {tree : LsmTree} {map : SortedMap JavaString Bytes} {torn : Bytes}
  {memtableLimitBytes compactionThreshold : Int}

/-- A compaction that returns leaves one table at most, and nothing else changes. -/
theorem compact_few (returned : (tree.compact sizing).2 = true) :
    (tree.compact sizing).1.sstables.length ≤ 1 ∧
      (tree.compact sizing).1.memtable = tree.memtable ∧
      (tree.compact sizing).1.memtableLimitBytes = tree.memtableLimitBytes ∧
      (tree.compact sizing).1.compactionThreshold = tree.compactionThreshold := by
  rw [LsmTree.compact] at returned ⊢
  split
  · rename_i few
    exact ⟨few, rfl, rfl, rfl⟩
  · rename_i several
    rw [if_neg several] at returned
    split at returned
    · cases returned
    · dsimp only at returned ⊢
      split at returned
      · cases returned
      · exact ⟨Nat.le_refl 1, rfl, rfl, rfl⟩

theorem Bounded.compact (bounded : Bounded memtableLimitBytes compactionThreshold tree)
    (returned : (tree.compact sizing).2 = true) :
    Bounded memtableLimitBytes compactionThreshold (tree.compact sizing).1 := by
  obtain ⟨few, sameMemtable, sameLimit, sameThreshold⟩ := compact_few returned
  constructor
  · exact sameLimit.trans bounded.sameLimit
  · exact sameThreshold.trans bounded.sameThreshold
  · rw [sameMemtable]
    exact bounded.exact
  · rw [sameMemtable]
    exact bounded.belowLimit
  · omega

/-- A flush that returns leaves an empty memtable. -/
theorem flushMemtable_empties (returned : (tree.flushMemtable sizing).2 = true) :
    (tree.flushMemtable sizing).1.memtable = .empty ∧
      (tree.flushMemtable sizing).1.memtableLimitBytes = tree.memtableLimitBytes ∧
      (tree.flushMemtable sizing).1.compactionThreshold = tree.compactionThreshold := by
  rw [LsmTree.flushMemtable_eq] at returned ⊢
  split at returned
  · cases returned
  · exact ⟨rfl, rfl, rfl⟩

/-- Whatever the tables were, not too many are left behind an empty memtable. -/
theorem maybeCompact_bounded (isEmpty : tree.memtable = .empty)
    (sameLimit : tree.memtableLimitBytes = memtableLimitBytes)
    (sameThreshold : tree.compactionThreshold = compactionThreshold)
    (returned : (tree.maybeCompact sizing).2 = true) :
    Bounded memtableLimitBytes compactionThreshold (tree.maybeCompact sizing).1 := by
  have exact : tree.memtable.Exact := isEmpty ▸ MemTable.exact_empty
  have nothing : tree.memtable.map.entries = [] := by
    rw [isEmpty]
    rfl
  rw [LsmTree.maybeCompact] at returned ⊢
  split
  · rename_i tooMany
    rw [if_pos tooMany] at returned
    obtain ⟨few, sameMemtable, limit, threshold⟩ := compact_few returned
    refine ⟨limit.trans sameLimit, threshold.trans sameThreshold, ?_, .inl ?_, by omega⟩
    · rw [sameMemtable]
      exact exact
    · rw [sameMemtable]
      exact nothing
  · rename_i notTooMany
    have few := not_lt.mp notTooMany
    rw [sameThreshold] at few
    exact ⟨sameLimit, sameThreshold, exact, .inl nothing, le_max_of_le_left few⟩

theorem flush_bounded (sameLimit : tree.memtableLimitBytes = memtableLimitBytes)
    (sameThreshold : tree.compactionThreshold = compactionThreshold)
    (exact : tree.memtable.Exact)
    (fewTables : (tree.sstables.length : Int) ≤ max compactionThreshold 1)
    (returned : (tree.flush sizing).2 = true) :
    Bounded memtableLimitBytes compactionThreshold (tree.flush sizing).1 := by
  by_cases empty : tree.memtable.map.entries = []
  · rw [LsmTree.flush, if_pos empty]
    exact ⟨sameLimit, sameThreshold, exact, .inl empty, fewTables⟩
  · rw [flush_nonempty sizing empty] at returned ⊢
    split at returned
    · rename_i flushed
      obtain ⟨isEmpty, limit, threshold⟩ := flushMemtable_empties flushed
      rw [if_pos flushed]
      exact maybeCompact_bounded isEmpty (limit.trans sameLimit) (threshold.trans sameThreshold)
        returned
    · cases returned

theorem Bounded.flush (bounded : Bounded memtableLimitBytes compactionThreshold tree)
    (returned : (tree.flush sizing).2 = true) :
    Bounded memtableLimitBytes compactionThreshold (tree.flush sizing).1 :=
  flush_bounded bounded.sameLimit bounded.sameThreshold bounded.exact bounded.fewTables returned

theorem Bounded.update (bounded : Bounded memtableLimitBytes compactionThreshold tree)
    {entry : Entry} (returned : (tree.update sizing entry.1 entry.2 entry.2.isNone).2 = true) :
    Bounded memtableLimitBytes compactionThreshold
      (tree.update sizing entry.1 entry.2 entry.2.isNone).1 := by
  have exact : (logged tree entry).memtable.Exact := bounded.exact.update entry.1 entry.2
  rw [update_eq, LsmTree.maybeFlush] at returned ⊢
  split
  · rename_i full
    rw [if_pos full] at returned
    exact flush_bounded bounded.sameLimit bounded.sameThreshold exact bounded.fewTables returned
  · rename_i notFull
    have room := not_le.mp notFull
    rw [logged, bounded.sameLimit] at room
    exact ⟨bounded.sameLimit, bounded.sameThreshold, exact, .inr room, bounded.fewTables⟩

/-- Opening again finds the same tables, and the memtable that was left. -/
theorem reopen_bounded
    (bounded : Bounded memtableLimitBytes compactionThreshold (tree.flush sizing).1)
    (returned : (tree.flush sizing).2 = true)
    (serves : Serves sizing (tree.flush sizing).1 map torn) :
    Bounded memtableLimitBytes compactionThreshold (tree.step sizing .reopen).1 := by
  obtain ⟨tables, records, healthy, -⟩ := serves.healthy
  obtain ⟨next, opens, opened, sameLimit, sameThreshold, -⟩ := healthy.stored.new
    (tree.flush sizing).1.memtableLimitBytes (tree.flush sizing).1.compactionThreshold
  have isNext : (tree.step sizing .reopen).1 = next := by
    rw [step_reopen, close_of_flush returned healthy.pending, if_pos rfl]
    dsimp only
    rw [LsmTree.reopen, opens]
  have sameMemtable : next.memtable = (tree.flush sizing).1.memtable :=
    opened.memtable.trans healthy.memtable.symm
  have sameCount : next.sstables.length = (tree.flush sizing).1.sstables.length :=
    opened.opened.length_eq.trans healthy.opened.length_eq.symm
  rw [isNext]
  constructor
  · exact sameLimit.trans bounded.sameLimit
  · exact sameThreshold.trans bounded.sameThreshold
  · rw [sameMemtable]
    exact bounded.exact
  · rw [sameMemtable]
    exact bounded.belowLimit
  · rw [sameCount]
    exact bounded.fewTables

theorem Bounded.step (bounded : Bounded memtableLimitBytes compactionThreshold tree)
    (serves : Serves sizing tree map []) {op : Op} (lossless : op.Lossless)
    (fits : Fits (tree.step sizing op).1.disk) :
    Bounded memtableLimitBytes compactionThreshold (tree.step sizing op).1 := by
  have returned := (step_serves serves lossless fits).1
  cases op with
  | put key value =>
      exact @Bounded.update sizing tree _ _ bounded (key, some value) returned
  | delete key => exact @Bounded.update sizing tree _ _ bounded (key, none) returned
  | flush => exact bounded.flush returned
  | compact => exact bounded.compact returned
  | reopen =>
      obtain ⟨flushReturned, torn', serves', -⟩ :=
        flush_serves serves (fits.of_prefix (flush_grows_reopen sizing tree))
      exact reopen_bounded (bounded.flush flushReturned) flushReturned serves'

theorem Serves.tables_on_disk (serves : Serves sizing tree map torn) :
    (tree.disk.names.filter isTable).length = tree.sstables.length := by
  obtain ⟨tables, records, healthy, -⟩ := serves.healthy
  have names := congrArg List.length healthy.stored.table_names
  rw [List.length_insertionSort, List.length_map, List.length_reverse] at names
  exact names.trans healthy.opened.length_eq.symm

end Steps

theorem create_bounded (memtableLimitBytes compactionThreshold : Int) :
    Bounded memtableLimitBytes compactionThreshold
      (LsmTree.create memtableLimitBytes compactionThreshold) where
  sameLimit := rfl
  sameThreshold := rfl
  exact := MemTable.exact_empty
  belowLimit := .inl rfl
  fewTables := le_max_of_le_right (Int.ofNat_le.mpr (Nat.zero_le 1))

/-- After every call of every run the counter of the memtable is the sum over its entries,
and below the limit unless there are none, so that a memtable has less than a twenty-fourth
of the limit in entries. There are no more tables than the threshold says (or one), neither
in the tree nor in the directory. -/
theorem run_bounded (sizing : Sizing) (memtableLimitBytes compactionThreshold : Int)
    (ops : List Op) (lossless : ∀ op ∈ ops, op.Lossless)
    (fits : Fits
      ((LsmTree.create memtableLimitBytes compactionThreshold).run sizing ops).1.disk) :
    ∃ tree, tree = ((LsmTree.create memtableLimitBytes compactionThreshold).run sizing ops).1 ∧
      tree.memtable.approxBytes = tree.memtable.map.total MemTable.weigh ∧
      (tree.memtable.map.entries = [] ∨ tree.memtable.approxBytes < memtableLimitBytes ∧
        24 * (tree.memtable.map.size : Int) < memtableLimitBytes) ∧
      (tree.disk.names.filter isTable).length = tree.sstables.length ∧
      (tree.sstables.length : Int) ≤ max compactionThreshold 1 := by
  have serves := (run_serves sizing memtableLimitBytes compactionThreshold ops lossless fits).2
  have bounded : Bounded memtableLimitBytes compactionThreshold
      ((LsmTree.create memtableLimitBytes compactionThreshold).run sizing ops).1 := by
    clear serves
    induction ops using List.reverseRecOn with
    | nil => exact create_bounded memtableLimitBytes compactionThreshold
    | append_singleton ops op induction =>
        rw [LsmTree.run, List.foldl_append] at fits ⊢
        have front : ∀ other ∈ ops, other.Lossless := by
          intro other member
          exact lossless other (List.mem_append_left _ member)
        have fitsFront := fits.of_prefix (step_grows sizing _ op)
        have serves := (run_serves sizing _ _ ops front fitsFront).2
        exact (induction front fitsFront).step serves
          (lossless op (List.mem_append_right _ (List.mem_singleton_self op))) fits
  refine ⟨_, rfl, bounded.exact, ?_, serves.tables_on_disk, bounded.fewTables⟩
  rcases bounded.belowLimit with empty | below
  · exact .inl empty
  · have isExact := bounded.exact
    rw [MemTable.Exact] at isExact
    have small := MemTable.size_le_total
      ((LsmTree.create memtableLimitBytes compactionThreshold).run sizing ops).1.memtable
    right
    refine ⟨below, ?_⟩
    omega

theorem run_bounded_mixed :
    ∃ tree, tree = ((LsmTree.create 1000 4).run onePercent mixedOps).1 ∧
      (tree.disk.names.filter isTable).length = tree.sstables.length ∧
      (tree.sstables.length : Int) ≤ max 4 1 := by
  obtain ⟨tree, isTree, -, -, files, few⟩ := run_bounded onePercent 1000 4 mixedOps
    mixedOps_lossless (.of_short (by decide +kernel))
  exact ⟨tree, isTree, files, few⟩

/-! ## The log -/

/-- What writes to one key leave behind. -/
structure Overwritten (memtableLimitBytes : Int) (key : JavaString) (values : List Bytes)
    (tree : LsmTree) : Prop where
  sameLimit : tree.memtableLimitBytes = memtableLimitBytes
  noTables : tree.sstables = []
  pending : tree.pending = []
  exact : tree.memtable.Exact
  lastOnly : tree.memtable.map.entries =
    (values.getLast?.map fun value => (key, some value)).toList
  log : (read tree.disk walFile).getD [] =
    encodeRecords (values.map fun value => (key, some value))

theorem Overwritten.put {sizing : Sizing} {memtableLimitBytes : Int} {key : JavaString}
    {values : List Bytes} {tree : LsmTree} (before : Overwritten memtableLimitBytes key values tree)
    {value : Bytes} (small : MemTable.entryBytes key (some value) < memtableLimitBytes) :
    Overwritten memtableLimitBytes key (values ++ [value]) (tree.put sizing key (some value)).1 := by
  obtain ⟨-, appends, pending⟩ := append_record ⟨tree.disk, tree.pending⟩ key (some value)
  have exact : (logged tree (key, some value)).memtable.Exact := before.exact.update key (some value)
  have lastOnly : (logged tree (key, some value)).memtable.map.entries = [(key, some value)] := by
    rw [logged, MemTable.update]
    dsimp only
    rw [SortedMap.put_entries, before.lastOnly]
    cases values.getLast? with
    | none => rfl
    | some last => simp [putEntry]
  have isCount : (logged tree (key, some value)).memtable.approxBytes =
      MemTable.entryBytes key (some value) := by
    rw [MemTable.Exact, SortedMap.total, lastOnly] at exact
    rw [exact, MemTable.entryBytes_eq]
    rfl
  have noFlush : tree.put sizing key (some value) = (logged tree (key, some value), true) := by
    have isUpdate := update_eq sizing tree (key, some value)
    rw [LsmTree.put]
    refine isUpdate.trans ?_
    have isLimit : (logged tree (key, some value)).memtableLimitBytes = memtableLimitBytes :=
      before.sameLimit
    rw [LsmTree.maybeFlush, isLimit, isCount, if_neg (not_le.mpr small)]
  rw [noFlush]
  constructor
  · exact before.sameLimit
  · exact before.noTables
  · exact pending
  · exact exact
  · rw [lastOnly, List.getLast?_concat]
    rfl
  · have log := appends.log
    have nothing : (read tree.disk walFile).getD [] ++ tree.pending =
        (read tree.disk walFile).getD [] := by
      rw [before.pending, List.append_nil]
    have isOne : encodeRecords ([value].map fun value => (key, some value)) =
        encodeRecord (key, some value) := List.append_nil _
    rw [Output.log, Output.log, pending, List.append_nil, nothing, before.log] at log
    rw [List.map_append, encodeRecords_append, isOne]
    exact log

end FoundationsLab.Lsm
