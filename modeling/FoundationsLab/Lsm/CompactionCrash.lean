import FoundationsLab.Lsm.Durability

/-! # Crashes during a compaction

A compaction writes the merged table and then deletes the tables it replaces, the
newest first. The merged table does not know the keys that were deleted, so an older
table that is left behind it answers for them. -/

namespace FoundationsLab.Lsm

open Foundation
open Foundation.JavaString
open Foundation.Directory
open Foundation.Layers
open WriteAheadLog

/-- The tree over the directory opened again answers as the tree did. -/
def SameAnswers (tree : LsmTree) (disk : Directory FileName) : Prop :=
  ∃ next, tree.reopen disk = some next ∧ (∀ key, next.get key = tree.get key) ∧
    ∀ fromKey toKey, next.scan fromKey toKey = tree.scan fromKey toKey

/-- The open tables that are still in a directory. -/
def remaining (tree : LsmTree) (disk : Directory FileName) : List SSTable :=
  tree.sstables.filter fun table => (read disk table.file).isSome

/-- Of the keys that no record in the log decides about, the remaining tables know no
value for one that the tree answers `null` for. -/
def NothingResurfaces (tree : LsmTree) (disk : Directory FileName) : Prop :=
  ∀ key, tree.memtable.map.get key = none → tree.get key = some none →
    LsmTree.getTables key (remaining tree disk) = some none

section

variable {sizing : Sizing} {tree : LsmTree} {map : SortedMap JavaString Bytes} {torn : Bytes}
  {tables : List DiskTable} {records : List Entry}

/-- A reopened tree with the answers of the tree before it. -/
theorem sameAnswers_of_serves {disk : Directory FileName} {next : LsmTree} {torn' : Bytes}
    {map' : SortedMap JavaString Bytes} (serves : Serves sizing tree map torn)
    (opens : tree.reopen disk = some next) (serves' : Serves sizing next map' torn')
    (same : ∀ key, map'.get key = map.get key) : SameAnswers tree disk := by
  have again : Serves sizing next map torn' := by
    obtain ⟨tables, records, healthy, represents⟩ := serves'.healthy
    exact ⟨tables, records, healthy, fun key => (represents key).trans (same key)⟩
  refine ⟨next, opens, fun key => ?_, fun fromKey toKey => ?_⟩
  · rw [again.get, serves.get]
  · rw [again.scan, serves.scan]

/-- What a stopped compaction leaves: some of the older tables, and in front of them at
most the merged one. -/
structure Stopped (sizing : Sizing) (tree : LsmTree) (tables : List DiskTable)
    (records : List Entry) (torn : Bytes) (disk : Directory FileName) (older front : List DiskTable) :
    Prop where
  stored : Stored sizing disk (front ++ older) records torn
  opened : Opened (remaining tree disk) older
  visible : ∀ key, visible ((front ++ older).map (·.map)) key =
    (visible (tables.map (·.map)) key).or (visible (older.map (·.map)) key)

theorem Opened.drop {sstables : List SSTable} (opened : Opened sstables tables) (count : Nat) :
    Opened (sstables.drop count) (tables.drop count) :=
  List.forall₂_drop count opened

/-- The tables that remain are those that were not deleted. -/
theorem remaining_eq {disk : Directory FileName} (opened : Opened tree.sstables tables)
    {count : Nat} (deleted : ∀ table ∈ tables.take count, read disk table.file = none)
    (kept : ∀ table ∈ tables.drop count, (read disk table.file).isSome) :
    remaining tree disk = tree.sstables.drop count := by
  have files : ∀ {sstables : List SSTable} {tables : List DiskTable}, Opened sstables tables →
      ∀ sstable ∈ sstables, ∃ table ∈ tables, sstable.file = table.file := by
    intro sstables tables opened
    induction opened with
    | nil => exact fun sstable member => absurd member List.not_mem_nil
    | cons here _ induction =>
        intro sstable member
        rcases List.mem_cons.mp member with rfl | later
        · exact ⟨_, List.mem_cons_self, here.1⟩
        · obtain ⟨table, isTable, same⟩ := induction sstable later
          exact ⟨table, List.mem_cons_of_mem _ isTable, same⟩
  have taken : Opened (tree.sstables.take count) (tables.take count) :=
    List.forall₂_take count opened
  rw [remaining]
  conv_lhs => rw [← List.take_append_drop count tree.sstables]
  rw [List.filter_append]
  have none : (tree.sstables.take count).filter
      (fun table => (read disk table.file).isSome) = [] := by
    refine List.filter_eq_nil_iff.mpr fun sstable member => ?_
    obtain ⟨table, isTable, same⟩ := files taken sstable member
    rw [same, deleted table isTable]
    exact Bool.false_ne_true
  have all : (tree.sstables.drop count).filter
      (fun table => (read disk table.file).isSome) = tree.sstables.drop count := by
    refine List.filter_eq_self.mpr fun sstable member => ?_
    obtain ⟨table, isTable, same⟩ := files (opened.drop count) sstable member
    rw [same]
    exact kept table isTable
  rw [none, all, List.nil_append]

/-- What was deleted is gone: no other table has its name. -/
theorem Stored.read_deleted {disk stop : Directory FileName} {front replaced older : List DiskTable}
    (before : Stored sizing disk (front ++ (replaced ++ older)) records torn)
    (after : Stored sizing stop (front ++ older) records torn) :
    ∀ table ∈ replaced, read stop table.file = none := by
  intro table member
  by_contra isThere
  obtain ⟨other, isOther, sameFile⟩ := after.noOthers table.file (isTable_sstFile table.gen)
    (Option.isSome_iff_ne_none.mpr isThere)
  have parts := List.pairwise_append.mp before.newestFirst
  have inner := List.pairwise_append.mp parts.2.1
  have sameGen : table.gen = other.gen :=
    sstFile_injective (before.sound table (by simp [member])).gen (after.sound other isOther).gen
      sameFile
  rcases List.mem_append.mp isOther with isFront | isOlder
  · have below := parts.2.2 other isFront table (List.mem_append_left _ member)
    omega
  · have below := inner.2.2 table member other isOlder
    omega

/-- Where a compaction can stop: before it writes, or after some of its deletions. -/
theorem compact_stops (healthy : Healthy sizing tree tables records torn)
    (fits : Fits (tree.compact sizing).1.disk) {stop : Directory FileName}
    (stopped : StopsAt tree.disk (tree.compact sizing).1.disk stop) :
    stop = tree.disk ∨ (tree.compacted tables).Sound sizing ∧ ∃ count,
      stop = tree.compactWritten sizing tables ++
        (tables.take count).map fun table => .delete table.file := by
  by_cases several : 1 < tree.sstables.length
  · have sound := LsmTree.compacted_sound healthy
      (fits.of_prefix (LsmTree.compactWritten_grows sizing healthy.opened several))
    obtain ⟨-, isDisk, -⟩ := LsmTree.compact_healthy healthy several sound
    obtain ⟨⟨extra, rfl⟩, isPrefix⟩ := stopped
    rw [isDisk, LsmTree.compactWritten, List.append_assoc, List.prefix_append_right_inj] at isPrefix
    cases extra with
    | nil => exact .inl (List.append_nil _)
    | cons op rest =>
        obtain ⟨rfl, isRest⟩ := List.cons_prefix_cons.mp isPrefix
        have isTake : rest =
            (tables.map fun table => (.delete table.file : FileOp FileName)).take rest.length :=
          List.prefix_iff_eq_take.mp isRest
        refine .inr ⟨sound, rest.length, ?_⟩
        rw [LsmTree.compactWritten, List.append_assoc, List.map_take, ← isTake]
        rfl
  · left
    have same : (tree.compact sizing).1.disk = tree.disk := by
      rw [LsmTree.compact, if_pos (by omega)]
    rw [same] at stopped
    exact (stopped.1.eq_of_length_le stopped.2.length_le).symm

theorem compact_stopped (healthy : Healthy sizing tree tables records torn)
    (fits : Fits (tree.compact sizing).1.disk) {stop : Directory FileName}
    (stopped : StopsAt tree.disk (tree.compact sizing).1.disk stop) :
    ∃ front older, Stopped sizing tree tables records torn stop older front := by
  rcases compact_stops healthy fits stopped with rfl | ⟨sound, count, rfl⟩
  · refine ⟨[], tables, healthy.stored, ?_, fun key => (Option.or_self).symm⟩
    have all : remaining tree tree.disk = tree.sstables.drop 0 :=
      remaining_eq healthy.opened (by simp) fun table member => by
        rw [healthy.stored.files table (List.mem_of_mem_drop member)]
        rfl
    rw [all]
    exact healthy.opened
  · have written : Stored sizing (tree.compactWritten sizing tables)
        ([tree.compacted tables] ++ (tables.take count ++ tables.drop count)) records torn := by
      rw [List.take_append_drop]
      exact LsmTree.compactWritten_stored healthy sound
    have stored := Stored.deletes (tables.take count) written
    refine ⟨[tree.compacted tables], tables.drop count, stored, ?_, fun key => ?_⟩
    · have isRemaining := remaining_eq healthy.opened
        (written.read_deleted stored) fun table member => by
          rw [stored.files table (List.mem_cons_of_mem _ member)]
          rfl
      rw [isRemaining]
      exact healthy.opened.drop count
    · exact visible_compacted _ _ key

/-- What the tree opened after a stop answers for a key that the log does not decide about. -/
theorem Stopped.visible_layers {stop : Directory FileName} {front older : List DiskTable}
    (stopped : Stopped sizing tree tables records torn stop older front) (memtable : MemTable)
    (key : JavaString) :
    Layers.visible (layers memtable (front ++ older)) key =
      (memtable.map.get key).getD ((Layers.visible (tables.map (·.map)) key).or
        (Layers.visible (older.map (·.map)) key)) := by
  rw [layers, visible_cons, stopped.visible]

/-- After a stop the store answers as before exactly when nothing resurfaces. -/
theorem Stopped.sameAnswers_iff {stop : Directory FileName} {front older : List DiskTable}
    (stopped : Stopped sizing tree tables records torn stop older front)
    (healthy : Healthy sizing tree tables records torn) :
    SameAnswers tree stop ↔ NothingResurfaces tree stop := by
  have isRepresented := represents_flatten (layers (replayed records) (front ++ older))
  obtain ⟨next, opens, serves⟩ := stopped.stored.reopens isRepresented tree
  rw [← healthy.memtable] at isRepresented serves
  have answers (key : JavaString) :
      tree.get key = some ((tree.memtable.map.get key).getD
        (Layers.visible (tables.map (·.map)) key)) := by
    rw [healthy.get, layers, visible_cons]
  have answers' (key : JavaString) :
      next.get key = some ((tree.memtable.map.get key).getD
        ((Layers.visible (tables.map (·.map)) key).or (Layers.visible (older.map (·.map)) key))) := by
    rw [serves.get, ← isRepresented key, stopped.visible_layers]
  constructor
  · rintro ⟨other, opensOther, sameGet, -⟩ key notLogged isNull
    cases opens.symm.trans opensOther
    have same := sameGet key
    rw [answers', isNull, notLogged, Option.getD_none] at same
    rw [answers, notLogged, Option.getD_none] at isNull
    rw [Option.some.inj isNull, Option.none_or] at same
    rw [stopped.opened.getTables, Option.some.inj same]
  · intro nothing
    have represents := represents_flatten (layers tree.memtable tables)
    refine sameAnswers_of_serves ⟨tables, records, healthy, represents⟩ opens serves fun key => ?_
    rw [← isRepresented key, ← represents key, stopped.visible_layers, layers, visible_cons]
    cases notLogged : tree.memtable.map.get key with
    | some version => rfl
    | none =>
        rw [Option.getD_none, Option.getD_none]
        cases isNull : Layers.visible (tables.map (·.map)) key with
        | some value => rfl
        | none =>
            have known := nothing key notLogged (by rw [answers, notLogged, Option.getD_none, isNull])
            rw [stopped.opened.getTables] at known
            exact Option.some.inj known

end

/-- A compaction that stops is safe exactly when nothing that was deleted resurfaces. -/
theorem compact_crash_safe_iff (sizing : Sizing) (store : Store) (reached : Reached sizing store)
    (fits : Fits (store.tree.compact sizing).1.disk) (stop : Directory FileName)
    (stopped : StopsAt store.tree.disk (store.tree.compact sizing).1.disk stop) :
    SameAnswers store.tree stop ↔ NothingResurfaces store.tree stop := by
  obtain ⟨tables, records, torn, healthy⟩ :=
    reached.healthy (fits.of_prefix (LsmTree.compact_grows sizing store.tree))
  obtain ⟨front, older, stops⟩ := compact_stopped healthy fits stopped
  exact stops.sameAnswers_iff healthy

/-- A key is flushed to one table and deleted in the next. -/
def deletedEvents : List Event :=
  [.call (.put (ofAscii ['a']) [1]), .call .flush, .call (.delete (ofAscii ['a'])), .call .flush]

def deletedStore : Store := ((Store.create 1000 4).run onePercent deletedEvents).1

/-- What a compaction leaves that stops between its two deletions. -/
def halfCompacted : Directory FileName := (deletedStore.tree.compact onePercent).1.disk.dropLast

theorem deletedStore_reached : Reached onePercent deletedStore where
  run := by
    refine ⟨1000, 4, deletedEvents, ?_, ⟨trivial, trivial, trivial, trivial, trivial⟩, rfl⟩
    intro event member entry isEntry
    simp only [deletedEvents, List.mem_cons, List.not_mem_nil, or_false] at member
    rcases member with rfl | rfl | rfl | rfl
    case inr.inl => exact absurd isEntry (by simp [Event.entry, Op.entry])
    case inr.inr.inr => exact absurd isEntry (by simp [Event.entry, Op.entry])
    all_goals
      obtain rfl := Option.some.inj isEntry
      exact ⟨by decide, by decide, by simp⟩
  inOrder := by decide +kernel

theorem halfCompacted_stopsAt :
    StopsAt deletedStore.tree.disk (deletedStore.tree.compact onePercent).1.disk halfCompacted :=
  ⟨by decide +kernel, List.dropLast_prefix _⟩

theorem compact_crash_safe_iff_halfCompacted :
    SameAnswers deletedStore.tree halfCompacted ↔
      NothingResurfaces deletedStore.tree halfCompacted :=
  compact_crash_safe_iff onePercent deletedStore deletedStore_reached
    (.of_short (by decide +kernel)) halfCompacted halfCompacted_stopsAt

/-- The deleted key is back after the crash. -/
theorem deleted_key_resurfaces :
    Reached onePercent deletedStore ∧
      StopsAt deletedStore.tree.disk (deletedStore.tree.compact onePercent).1.disk halfCompacted ∧
      ¬ SameAnswers deletedStore.tree halfCompacted := by
  refine ⟨deletedStore_reached, halfCompacted_stopsAt, ?_⟩
  rintro ⟨next, opens, sameGet, -⟩
  have before : deletedStore.tree.get (ofAscii ['a']) = some none := by decide +kernel
  have after : (deletedStore.tree.reopen halfCompacted).bind (·.get (ofAscii ['a'])) =
      some (some [1]) := by decide +kernel
  rw [opens, Option.bind_some, sameGet, before] at after
  cases after

end FoundationsLab.Lsm
