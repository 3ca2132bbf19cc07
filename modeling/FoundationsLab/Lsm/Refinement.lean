import FoundationsLab.Lsm.Calls

/-! # The tree refines a map

Every call keeps the tree healthy and acts on the map it stands for as the
operation acts on a map. -/

namespace FoundationsLab.Lsm

open Foundation
open Foundation.JavaString
open Foundation.Directory
open Foundation.Layers
open WriteAheadLog

/-- The tree is healthy, and reads of it are reads of the map. -/
structure Serves (sizing : Sizing) (tree : LsmTree) (map : SortedMap JavaString Bytes)
    (torn : Bytes) : Prop where
  healthy : ∃ tables records, Healthy sizing tree tables records torn ∧
    Represents (layers tree.memtable tables) map

theorem Serves.get {sizing : Sizing} {tree : LsmTree} {map : SortedMap JavaString Bytes}
    {torn : Bytes} (serves : Serves sizing tree map torn) (key : JavaString) :
    tree.get key = some (map.get key) := by
  obtain ⟨tables, records, healthy, represents⟩ := serves.healthy
  rw [healthy.get, represents]

theorem Serves.scan {sizing : Sizing} {tree : LsmTree} {map : SortedMap JavaString Bytes}
    {torn : Bytes} (serves : Serves sizing tree map torn) (fromKey toKey : Option JavaString) :
    tree.scan fromKey toKey = some (map.range fromKey toKey) := by
  obtain ⟨tables, records, healthy, represents⟩ := serves.healthy
  rw [healthy.scan, represents.range]

/-! ## Operations -/

inductive Op where
  | put (key : JavaString) (value : Bytes)
  | delete (key : JavaString)
  | flush
  | compact
  | reopen

namespace Op

/-- What the operation does to a map. -/
def apply (map : SortedMap JavaString Bytes) : Op → SortedMap JavaString Bytes
  | put key value => map.put key value
  | delete key => map.remove key
  | _ => map

/-- The record of a write. -/
def entry : Op → Option Entry
  | put key value => some (key, some value)
  | delete key => some (key, none)
  | _ => none

/-- Keys that UTF-8 encodes losslessly, in arrays of Java. -/
def Lossless (op : Op) : Prop := ∀ entry, op.entry = some entry → Recordable entry

end Op

namespace LsmTree

/-- `reopen` is `close` and then the constructor on the same directory. -/
def step (sizing : Sizing) (tree : LsmTree) : Op → LsmTree × Bool
  | .put key value => tree.put sizing key (some value)
  | .delete key => tree.delete sizing key
  | .flush => tree.flush sizing
  | .compact => tree.compact sizing
  | .reopen =>
      match tree.close sizing with
      | (tree, true) =>
          match tree.reopen tree.disk with
          | some tree => (tree, true)
          | none => (tree, false)
      | (tree, false) => (tree, false)

/-- The state after a list of operations, and whether all of them returned. -/
def run (sizing : Sizing) (tree : LsmTree) (ops : List Op) : LsmTree × Bool :=
  ops.foldl (fun state op =>
    let next := state.1.step sizing op
    (next.1, state.2 && next.2)) (tree, true)

/-- The tree of an empty directory. -/
def create (memtableLimitBytes compactionThreshold : Int) : LsmTree where
  memtableLimitBytes := memtableLimitBytes
  compactionThreshold := compactionThreshold
  disk := [.append walFile []]
  pending := []
  memtable := .empty
  sstables := []
  maxGen := 0

theorem new_empty (memtableLimitBytes compactionThreshold : Int) :
    LsmTree.new [] memtableLimitBytes compactionThreshold =
      some (create memtableLimitBytes compactionThreshold) := by
  rfl

end LsmTree

theorem create_serves (sizing : Sizing) (memtableLimitBytes compactionThreshold : Int) :
    Serves sizing (LsmTree.create memtableLimitBytes compactionThreshold) .empty [] := by
  have noFile : ∀ name, name ≠ walFile →
      read (LsmTree.create memtableLimitBytes compactionThreshold).disk name = none :=
    fun name different => read_of_ne [] different
  refine ⟨[], [], ⟨⟨by simp, .nil, by simp, fun name isTable exists' => ?_, ?_, by simp, torn_nil⟩,
    .nil, rfl, rfl, rfl⟩, fun key => rfl⟩
  · have different : name ≠ walFile := by
      rintro rfl
      rw [isTable_walFile] at isTable
      exact Bool.noConfusion isTable
    rw [noFile name different] at exists'
    exact absurd exists' (by simp)
  · rfl

section Steps

variable {sizing : Sizing} {tree : LsmTree} {map : SortedMap JavaString Bytes} {torn : Bytes}

theorem compact_serves (serves : Serves sizing tree map torn)
    (fits : Fits (tree.compact sizing).1.disk) :
    (tree.compact sizing).2 = true ∧ Serves sizing (tree.compact sizing).1 map torn := by
  by_cases several : 1 < tree.sstables.length
  · obtain ⟨tables, records, healthy, represents⟩ := serves.healthy
    have sound := LsmTree.compacted_sound healthy
      (fits.of_prefix (LsmTree.compactWritten_grows sizing healthy.opened several))
    obtain ⟨returned, -, memtable, healthy'⟩ := LsmTree.compact_healthy healthy several sound
    refine ⟨returned, [tree.compacted tables], records, healthy', fun key => ?_⟩
    rw [← represents key, memtable, layers, layers, visible_cons, visible_cons, List.map_singleton,
      LsmTree.compacted, visible_compacted]
    simp [visible, newest]
  · rw [LsmTree.compact, if_pos (by omega)]
    exact ⟨rfl, serves⟩

theorem maybeCompact_serves (serves : Serves sizing tree map torn)
    (fits : Fits (tree.maybeCompact sizing).1.disk) :
    (tree.maybeCompact sizing).2 = true ∧ Serves sizing (tree.maybeCompact sizing).1 map torn := by
  rw [LsmTree.maybeCompact] at fits ⊢
  split
  · rename_i tooMany
    rw [if_pos tooMany] at fits
    exact compact_serves serves fits
  · exact ⟨rfl, serves⟩

theorem maybeCompact_grows (sizing : Sizing) (tree : LsmTree) :
    tree.disk <+: (tree.maybeCompact sizing).1.disk := by
  rw [LsmTree.maybeCompact]
  split
  · exact LsmTree.compact_grows sizing tree
  · exact List.prefix_rfl

theorem flushMemtable_serves (serves : Serves sizing tree map torn)
    (fits : Fits (tree.flushWritten sizing)) :
    (tree.flushMemtable sizing).2 = true ∧ Serves sizing (tree.flushMemtable sizing).1 map [] := by
  obtain ⟨tables, records, healthy, represents⟩ := serves.healthy
  have sound := LsmTree.flushed_sound healthy fits
  obtain ⟨returned, -, memtable, healthy'⟩ := LsmTree.flushMemtable_healthy healthy sound
  refine ⟨returned, tree.flushed :: tables, [], healthy', fun key => ?_⟩
  rw [← represents key, memtable, layers, visible_cons]
  rfl

theorem flush_nonempty (sizing : Sizing) (nonempty : tree.memtable.map.entries ≠ []) :
    tree.flush sizing =
      if (tree.flushMemtable sizing).2 then (tree.flushMemtable sizing).1.maybeCompact sizing
      else ((tree.flushMemtable sizing).1, false) := by
  rw [LsmTree.flush, if_neg nonempty]
  obtain ⟨next, returned⟩ := tree.flushMemtable sizing
  cases returned <;> rfl

/-- A flush changes no answer; a torn record goes with the log. -/
theorem flush_serves (serves : Serves sizing tree map torn)
    (fits : Fits (tree.flush sizing).1.disk) :
    (tree.flush sizing).2 = true ∧ ∃ torn', Serves sizing (tree.flush sizing).1 map torn' ∧
      (torn' = [] ∨ torn' = torn) := by
  by_cases empty : tree.memtable.map.entries = []
  · rw [LsmTree.flush, if_pos empty]
    exact ⟨rfl, torn, serves, .inr rfl⟩
  · rw [flush_nonempty sizing empty] at fits ⊢
    have written := LsmTree.flushMemtable_grows sizing tree
    have fitsWritten : Fits (tree.flushWritten sizing) := by
      split at fits
      · exact fits.of_prefix (written.trans (maybeCompact_grows _ _))
      · exact fits.of_prefix written
    obtain ⟨returned, flushed⟩ := flushMemtable_serves serves fitsWritten
    rw [if_pos returned] at fits ⊢
    obtain ⟨returned', compacted⟩ := maybeCompact_serves flushed fits
    exact ⟨returned', [], compacted, .inl rfl⟩

theorem flush_grows (sizing : Sizing) (tree : LsmTree) :
    tree.disk <+: (tree.flush sizing).1.disk := by
  by_cases empty : tree.memtable.map.entries = []
  · rw [LsmTree.flush, if_pos empty]
  · have written : tree.disk <+: tree.flushWritten sizing := List.prefix_append _ _
    have flushed := written.trans (LsmTree.flushMemtable_grows sizing tree)
    rw [flush_nonempty sizing empty]
    split
    · exact flushed.trans (maybeCompact_grows _ _)
    · exact flushed

/-! ## Writes -/

/-- The tree after the record of a write is in the log and in the memtable. -/
def logged (tree : LsmTree) (entry : Entry) : LsmTree :=
  let out := (append ⟨tree.disk, tree.pending⟩ entry.1 entry.2 entry.2.isNone).1
  { tree with
    disk := out.disk
    pending := out.pending
    memtable := tree.memtable.update entry.1 entry.2 }

theorem update_eq (sizing : Sizing) (tree : LsmTree) (entry : Entry) :
    tree.update sizing entry.1 entry.2 entry.2.isNone = (logged tree entry).maybeFlush sizing := by
  have returned := (append_record ⟨tree.disk, tree.pending⟩ entry.1 entry.2).1
  rw [LsmTree.update, logged]
  cases result : append ⟨tree.disk, tree.pending⟩ entry.1 entry.2 entry.2.isNone with
  | mk out flag =>
      rw [result] at returned
      obtain rfl : flag = true := returned
      rfl

/-- What a record does to a map. -/
def applyEntry (map : SortedMap JavaString Bytes) (entry : Entry) : SortedMap JavaString Bytes :=
  match entry.2 with
  | some value => map.put entry.1 value
  | none => map.remove entry.1

theorem get_applyEntry (map : SortedMap JavaString Bytes) (entry : Entry) (key : JavaString) :
    (applyEntry map entry).get key = if key = entry.1 then entry.2 else map.get key := by
  obtain ⟨other, value⟩ := entry
  cases value with
  | none =>
      rw [applyEntry, SortedMap.get_remove]
      split <;> rfl
  | some value =>
      rw [applyEntry, SortedMap.get_put]
      split <;> rfl

theorem layers_update (memtable : MemTable) (tables : List DiskTable) (entry : Entry)
    (key : JavaString) :
    visible (layers (memtable.update entry.1 entry.2) tables) key =
      if key = entry.1 then entry.2 else visible (layers memtable tables) key := by
  rw [layers, layers, visible_cons, visible_cons, MemTable.update, SortedMap.get_put]
  split <;> rfl

/-- A write goes behind a complete log. -/
theorem Healthy.logged {tables : List DiskTable} {records : List Entry}
    (healthy : Healthy sizing tree tables records []) {entry : Entry}
    (recordable : Recordable entry) :
    Healthy sizing (logged tree entry) tables (records ++ [entry]) [] := by
  obtain ⟨-, appends, pending⟩ := append_record ⟨tree.disk, tree.pending⟩ entry.1 entry.2
  have log : (read (Lsm.logged tree entry).disk walFile).getD [] =
      encodeRecords (records ++ [entry]) ++ [] := by
    have before := healthy.stored.log
    have after := appends.log
    rw [Output.log, Output.log, pending, List.append_nil] at after
    simp only [healthy.pending, List.append_nil] at after before
    rw [Lsm.logged]
    simp only [healthy.pending, after, before, encodeRecords_append, List.append_nil]
    simp [encodeRecords]
  have all : ∀ other ∈ records ++ [entry], Recordable other := by
    intro other member
    rcases List.mem_append.mp member with isOld | isNew
    · exact healthy.stored.recordable other isOld
    · exact List.mem_singleton.mp isNew ▸ recordable
  refine ⟨?_, healthy.opened, ?_, pending, healthy.maxGen⟩
  · exact healthy.stored.relog appends.others log all torn_nil
  · rw [LsmTree.replayed_concat, ← healthy.memtable]
    rfl

/-- Behind a complete log a write is logged and visible. -/
theorem logged_serves (serves : Serves sizing tree map []) {entry : Entry}
    (recordable : Recordable entry) : Serves sizing (logged tree entry) (applyEntry map entry) [] := by
  obtain ⟨tables, records, healthy, represents⟩ := serves.healthy
  refine ⟨tables, records ++ [entry], healthy.logged recordable, fun key => ?_⟩
  have updated := layers_update tree.memtable tables entry key
  rw [represents key, ← get_applyEntry] at updated
  exact updated

theorem logged_grows (tree : LsmTree) (entry : Entry) : tree.disk <+: (logged tree entry).disk :=
  (append_record ⟨tree.disk, tree.pending⟩ entry.1 entry.2).2.1.grows

theorem maybeFlush_grows (sizing : Sizing) (tree : LsmTree) :
    tree.disk <+: (tree.maybeFlush sizing).1.disk := by
  rw [LsmTree.maybeFlush]
  split
  · exact flush_grows sizing tree
  · exact List.prefix_rfl

theorem update_serves (serves : Serves sizing tree map []) {entry : Entry}
    (recordable : Recordable entry)
    (fits : Fits (tree.update sizing entry.1 entry.2 entry.2.isNone).1.disk) :
    (tree.update sizing entry.1 entry.2 entry.2.isNone).2 = true ∧
      Serves sizing (tree.update sizing entry.1 entry.2 entry.2.isNone).1 (applyEntry map entry)
        [] := by
  have serves' := logged_serves serves recordable
  rw [update_eq, LsmTree.maybeFlush] at fits ⊢
  split
  · rename_i full
    rw [if_pos full] at fits
    obtain ⟨returned, torn', flushed, rfl | rfl⟩ := flush_serves serves' fits
    · exact ⟨returned, flushed⟩
    · exact ⟨returned, flushed⟩
  · exact ⟨rfl, serves'⟩

/-! ## Opening again -/

theorem Healthy.reopen {tables : List DiskTable} {records : List Entry}
    (healthy : Healthy sizing tree tables records torn) :
    ∃ next, tree.reopen tree.disk = some next ∧ Healthy sizing next tables records torn := by
  obtain ⟨next, opens, healthy', -⟩ :=
    healthy.stored.new tree.memtableLimitBytes tree.compactionThreshold
  exact ⟨next, opens, healthy'⟩

/-- Opening the directory of a healthy tree gives a tree with the same answers. -/
theorem reopen_serves (serves : Serves sizing tree map torn) :
    ∃ next, tree.reopen tree.disk = some next ∧ Serves sizing next map torn := by
  obtain ⟨tables, records, healthy, represents⟩ := serves.healthy
  obtain ⟨next, opens, healthy'⟩ := healthy.reopen
  refine ⟨next, opens, tables, records, healthy', ?_⟩
  rw [healthy'.memtable, ← healthy.memtable]
  exact represents

/-! ## Steps and runs -/

/-- A write to a complete log does to the map what its record does. -/
theorem write_serves (serves : Serves sizing tree map []) {op : Op} {entry : Entry}
    (isWrite : op.entry = some entry) (recordable : Recordable entry)
    (fits : Fits (tree.step sizing op).1.disk) :
    (tree.step sizing op).2 = true ∧ Serves sizing (tree.step sizing op).1 (op.apply map) [] := by
  cases op with
  | put key value =>
      obtain rfl := Option.some.inj isWrite
      exact update_serves serves recordable fits
  | delete key =>
      obtain rfl := Option.some.inj isWrite
      exact update_serves serves recordable fits
  | flush => exact absurd isWrite (by simp [Op.entry])
  | compact => exact absurd isWrite (by simp [Op.entry])
  | reopen => exact absurd isWrite (by simp [Op.entry])

theorem close_grows (sizing : Sizing) (tree : LsmTree) :
    (tree.flush sizing).1.disk <+: (tree.close sizing).1.disk := by
  rw [LsmTree.close]
  cases tree.flush sizing with
  | mk next returned =>
      cases returned with
      | false => exact List.prefix_rfl
      | true => exact (flush_appends ⟨next.disk, next.pending⟩).grows

theorem reopen_grows {next : LsmTree} {disk : Directory FileName}
    (opens : tree.reopen disk = some next) : disk <+: next.disk := by
  rw [LsmTree.reopen, LsmTree.new] at opens
  obtain ⟨opened, -, opens⟩ := Option.bind_eq_some_iff.mp opens
  obtain ⟨records, -, opens⟩ := Option.bind_eq_some_iff.mp opens
  obtain rfl := Option.some.inj opens
  exact List.prefix_append _ _

theorem step_reopen (sizing : Sizing) (tree : LsmTree) :
    tree.step sizing .reopen =
      if (tree.close sizing).2 then
        match (tree.close sizing).1.reopen (tree.close sizing).1.disk with
        | some next => (next, true)
        | none => ((tree.close sizing).1, false)
      else ((tree.close sizing).1, false) := by
  rw [LsmTree.step]
  obtain ⟨next, returned⟩ := tree.close sizing
  cases returned <;> rfl

theorem close_of_flush (returned : (tree.flush sizing).2 = true)
    (pending : (tree.flush sizing).1.pending = []) :
    tree.close sizing = ((tree.flush sizing).1, true) := by
  have unchanged : Output.flush ⟨(tree.flush sizing).1.disk, (tree.flush sizing).1.pending⟩ =
      ⟨(tree.flush sizing).1.disk, (tree.flush sizing).1.pending⟩ := by
    rw [Output.flush, if_pos pending]
  rw [LsmTree.close]
  cases result : tree.flush sizing with
  | mk next flag =>
      rw [result] at returned unchanged
      obtain rfl : flag = true := returned
      dsimp only at unchanged ⊢
      rw [unchanged]

/-- Once its flush has returned, a tree can be closed and opened again. -/
theorem reopen_of_flush (returned : (tree.flush sizing).2 = true)
    (serves : Serves sizing (tree.flush sizing).1 map torn) :
    (tree.step sizing .reopen).2 = true ∧ Serves sizing (tree.step sizing .reopen).1 map torn := by
  obtain ⟨tables, records, healthy, -⟩ := serves.healthy
  obtain ⟨next, opens, opened⟩ := reopen_serves serves
  rw [step_reopen, close_of_flush returned healthy.pending, if_pos rfl]
  dsimp only
  rw [opens]
  exact ⟨rfl, opened⟩

theorem flush_grows_reopen (sizing : Sizing) (tree : LsmTree) :
    (tree.flush sizing).1.disk <+: (tree.step sizing .reopen).1.disk := by
  refine (close_grows sizing tree).trans ?_
  rw [step_reopen]
  split
  · split
    · rename_i opens
      exact reopen_grows opens
    · exact List.prefix_rfl
  · exact List.prefix_rfl

/-- A call that does not write changes no answer. -/
theorem other_serves (serves : Serves sizing tree map torn) {op : Op} (isOther : op.entry = none)
    (fits : Fits (tree.step sizing op).1.disk) :
    (tree.step sizing op).2 = true ∧ ∃ torn', Serves sizing (tree.step sizing op).1 map torn' ∧
      (torn' = [] ∨ torn' = torn) := by
  cases op with
  | put key value => exact absurd isOther (by simp [Op.entry])
  | delete key => exact absurd isOther (by simp [Op.entry])
  | flush => exact flush_serves serves fits
  | compact =>
      obtain ⟨returned, serves'⟩ := compact_serves serves fits
      exact ⟨returned, torn, serves', .inr rfl⟩
  | reopen =>
      obtain ⟨returned, torn', serves', isTorn⟩ :=
        flush_serves serves (fits.of_prefix (flush_grows_reopen sizing tree))
      obtain ⟨returned', opened⟩ := reopen_of_flush returned serves'
      exact ⟨returned', torn', opened, isTorn⟩

theorem step_serves (serves : Serves sizing tree map []) {op : Op} (lossless : op.Lossless)
    (fits : Fits (tree.step sizing op).1.disk) :
    (tree.step sizing op).2 = true ∧ Serves sizing (tree.step sizing op).1 (op.apply map) [] := by
  cases isEntry : op.entry with
  | some entry => exact write_serves serves isEntry (lossless entry isEntry) fits
  | none =>
      obtain ⟨returned, torn', serves', rfl | rfl⟩ := other_serves serves isEntry fits
      all_goals
        refine ⟨returned, ?_⟩
        cases op with
        | put key value => exact absurd isEntry (by simp [Op.entry])
        | delete key => exact absurd isEntry (by simp [Op.entry])
        | flush => exact serves'
        | compact => exact serves'
        | reopen => exact serves'

end Steps

theorem step_grows (sizing : Sizing) (tree : LsmTree) (op : Op) :
    tree.disk <+: (tree.step sizing op).1.disk := by
  have updates (entry : Entry) :
      tree.disk <+: (tree.update sizing entry.1 entry.2 entry.2.isNone).1.disk := by
    rw [update_eq]
    exact (logged_grows tree entry).trans (maybeFlush_grows sizing _)
  cases op with
  | put key value => exact updates (key, some value)
  | delete key => exact updates (key, none)
  | flush => exact flush_grows sizing tree
  | compact => exact LsmTree.compact_grows sizing tree
  | reopen => exact (flush_grows sizing tree).trans (flush_grows_reopen sizing tree)

/-- The map after a list of operations. -/
def reference (ops : List Op) : SortedMap JavaString Bytes := ops.foldl Op.apply .empty

/-- A run from an empty directory serves the reference, and no call throws. -/
theorem run_serves (sizing : Sizing) (memtableLimitBytes compactionThreshold : Int)
    (ops : List Op) (lossless : ∀ op ∈ ops, op.Lossless)
    (fits : Fits
      ((LsmTree.create memtableLimitBytes compactionThreshold).run sizing ops).1.disk) :
    ((LsmTree.create memtableLimitBytes compactionThreshold).run sizing ops).2 = true ∧
      Serves sizing ((LsmTree.create memtableLimitBytes compactionThreshold).run sizing ops).1
        (reference ops) [] := by
  induction ops using List.reverseRecOn with
  | nil => exact ⟨rfl, create_serves sizing memtableLimitBytes compactionThreshold⟩
  | append_singleton ops op induction =>
      rw [LsmTree.run, List.foldl_append] at fits ⊢
      obtain ⟨returned, serves⟩ := induction (fun other member => lossless other (by simp [member]))
        (fits.of_prefix (step_grows sizing _ op))
      obtain ⟨returned', serves'⟩ := step_serves serves (lossless op (by simp)) fits
      refine ⟨?_, ?_⟩
      · exact Bool.and_eq_true_iff.mpr ⟨returned, returned'⟩
      · rw [reference, List.foldl_append]
        exact serves'

/-- The store refines a map: after any calls, `get` and `scan` answer as the map does. -/
theorem lsm_refines_map (sizing : Sizing) (memtableLimitBytes compactionThreshold : Int)
    (ops : List Op) (lossless : ∀ op ∈ ops, op.Lossless)
    (fits : Fits
      ((LsmTree.create memtableLimitBytes compactionThreshold).run sizing ops).1.disk) :
    LsmTree.new [] memtableLimitBytes compactionThreshold =
        some (LsmTree.create memtableLimitBytes compactionThreshold) ∧
      ((LsmTree.create memtableLimitBytes compactionThreshold).run sizing ops).2 = true ∧
      (∀ key, ((LsmTree.create memtableLimitBytes compactionThreshold).run sizing ops).1.get key =
        some ((reference ops).get key)) ∧
      ∀ fromKey toKey,
        ((LsmTree.create memtableLimitBytes compactionThreshold).run sizing ops).1.scan
          fromKey toKey = some ((reference ops).range fromKey toKey) := by
  obtain ⟨returned, serves⟩ :=
    run_serves sizing memtableLimitBytes compactionThreshold ops lossless fits
  exact ⟨LsmTree.new_empty memtableLimitBytes compactionThreshold, returned, serves.get,
    serves.scan⟩

/-- Bloom filters for one false positive in a hundred, in integer arithmetic. -/
def onePercent : Sizing where
  ceilBits n := (9585059 * n + 999999) / 1000000
  roundHashes n m := min (2 ^ 31 - 1) ((m * 693147 + 500000 * n) / (1000000 * n))
  roundHashes_lt _ _ := (min_le_left _ _).trans_lt (by decide)

/-- A deletion of a flushed key survives a compaction and a restart. -/
def mixedOps : List Op :=
  [.put (ofAscii ['a']) [1], .flush, .put (ofAscii ['b']) [2], .delete (ofAscii ['a']), .flush,
    .compact, .reopen]

theorem mixedOps_lossless : ∀ op ∈ mixedOps, op.Lossless := by
  intro op member entry isEntry
  simp only [mixedOps, List.mem_cons, List.not_mem_nil, or_false] at member
  rcases member with rfl | rfl | rfl | rfl | rfl | rfl | rfl
  case inr.inl => exact absurd isEntry (by simp [Op.entry])
  case inr.inr.inr.inr.inl => exact absurd isEntry (by simp [Op.entry])
  case inr.inr.inr.inr.inr.inl => exact absurd isEntry (by simp [Op.entry])
  case inr.inr.inr.inr.inr.inr => exact absurd isEntry (by simp [Op.entry])
  all_goals
    obtain rfl := Option.some.inj isEntry
    exact ⟨by decide, by decide, by simp⟩

theorem lsm_refines_map_mixed :
    LsmTree.new [] 1000 4 = some (LsmTree.create 1000 4) ∧
      ((LsmTree.create 1000 4).run onePercent mixedOps).2 = true ∧
      (∀ key, ((LsmTree.create 1000 4).run onePercent mixedOps).1.get key =
        some ((reference mixedOps).get key)) ∧
      ∀ fromKey toKey, ((LsmTree.create 1000 4).run onePercent mixedOps).1.scan fromKey toKey =
        some ((reference mixedOps).range fromKey toKey) :=
  lsm_refines_map onePercent 1000 4 mixedOps mixedOps_lossless
    (.of_short (by decide +kernel))

end FoundationsLab.Lsm
