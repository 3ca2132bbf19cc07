import FoundationsLab.Lsm.Mended

/-! # Crashes while a record is appended

A crash may leave any part of the record that was being appended. The tree that
opens the directory again appends behind that part. -/

namespace FoundationsLab.Lsm

open Foundation
open Foundation.JavaString
open Foundation.Directory
open Foundation.Layers
open WriteAheadLog

/-! ## Runs with crashes -/

/-- A call that returned, or a crash with `count` bytes of a record in the log, after
which the directory is opened again. -/
inductive Event where
  | call (op : Op)
  | crash (entry : Entry) (count : Nat)

/-- What is behind the complete records of the log since it was emptied: nothing, a
part of a record that a crash left, or such a part with more bytes behind it. -/
inductive Tail where
  | whole
  | torn
  | buried
deriving DecidableEq

/-- The tail once more bytes are appended. -/
def Tail.bury : Tail → Tail
  | whole => whole
  | _ => buried

/-- The tail after a crash with `count` bytes of a record in the log. -/
def Tail.crash (tail : Tail) (entry : Entry) (count : Nat) : Tail :=
  if count = 0 then tail
  else if (encodeRecord entry).length ≤ count then tail.bury
  else
    match tail with
    | whole => torn
    | _ => buried

theorem Tail.crash_of_pos {tail : Tail} (notWhole : tail ≠ .whole) {count : Nat}
    (isSomething : count ≠ 0) (entry : Entry) : tail.crash entry count = buried := by
  cases tail with
  | whole => exact absurd rfl notWhole
  | torn => simp [Tail.crash, Tail.bury, isSomething]
  | buried => simp [Tail.crash, Tail.bury, isSomething]

structure Store where
  tree : LsmTree
  tail : Tail

namespace Store

/-- Whether a call flushes the memtable, and with that empties the log. -/
def empties (tree : LsmTree) : Op → Bool
  | .put key value =>
      tree.memtableLimitBytes ≤ (tree.memtable.update key (some value)).approxBytes
  | .delete key => tree.memtableLimitBytes ≤ (tree.memtable.update key none).approxBytes
  | .flush => !tree.memtable.map.entries.isEmpty
  | .reopen => !tree.memtable.map.entries.isEmpty
  | .compact => false

def tailAfter (store : Store) (op : Op) : Tail :=
  if empties store.tree op then .whole
  else if op.entry.isSome then store.tail.bury
  else store.tail

/-- The directory that a crash leaves. -/
def crashed (tree : LsmTree) (entry : Entry) (count : Nat) : Directory FileName :=
  tree.disk ++ [.append walFile ((encodeRecord entry).take count)]

/-- The new state, and whether the call or the constructor returned. -/
def step (sizing : Sizing) (store : Store) : Event → Store × Bool
  | .call op => (⟨(store.tree.step sizing op).1, store.tailAfter op⟩, (store.tree.step sizing op).2)
  | .crash entry count =>
      match store.tree.reopen (crashed store.tree entry count) with
      | some next => (⟨next, store.tail.crash entry count⟩, true)
      | none => (store, false)

def run (sizing : Sizing) (store : Store) (events : List Event) : Store × Bool :=
  events.foldl (fun state event =>
    let next := state.1.step sizing event
    (next.1, state.2 && next.2)) (store, true)

def create (memtableLimitBytes compactionThreshold : Int) : Store where
  tree := LsmTree.create memtableLimitBytes compactionThreshold
  tail := .whole

end Store

/-! ## What the store should answer -/

/-- The maps that one event may leave: a call that returned has happened, the write that
a crash interrupted may have. -/
def outcomes (maps : List (SortedMap JavaString Bytes)) :
    Event → List (SortedMap JavaString Bytes)
  | .call op => maps.map op.apply
  | .crash entry _ => maps ++ maps.map (applyEntry · entry)

/-- The run succeeds, and its last tree answers as all the writes that returned say. -/
def Durable (sizing : Sizing) (store : Store) (events : List Event) : Prop :=
  (store.run sizing events).2 = true ∧
    ∃ map ∈ events.foldl outcomes [.empty],
      ∀ key, (store.run sizing events).1.tree.get key = some (map.get key)

/-- The record that an event writes, whole or in part. -/
def Event.entry : Event → Option Entry
  | .call op => op.entry
  | .crash entry _ => some entry

/-- No crash leaves a log in which bytes follow a part of a record. -/
def Orderly (store : Store) : Event → Prop
  | .call _ => True
  | .crash entry count => store.tail.crash entry count ≠ .buried

/-! ## What a step keeps -/

/-- What a store keeps for the map it should answer as. Behind a buried tail only the
open tree does. -/
inductive Kept (sizing : Sizing) : Store → SortedMap JavaString Bytes → Prop where
  | whole {tree : LsmTree} {map : SortedMap JavaString Bytes} :
      Serves sizing tree map [] → Kept sizing ⟨tree, .whole⟩ map
  | torn {tree : LsmTree} {map : SortedMap JavaString Bytes} {bytes : Bytes} :
      Serves sizing tree map bytes → Kept sizing ⟨tree, .torn⟩ map
  | buried {tree : LsmTree} {map : SortedMap JavaString Bytes} :
      Mended sizing tree map → tree.memtable.map.entries ≠ [] → Kept sizing ⟨tree, .buried⟩ map

section

variable {sizing : Sizing} {tree : LsmTree} {map : SortedMap JavaString Bytes}
  {store : Store}

theorem Kept.mended (kept : Kept sizing store map) : Mended sizing store.tree map := by
  cases kept with
  | whole serves => exact serves.mended
  | torn serves => exact serves.mended
  | buried mended => exact mended

theorem update_nonempty (memtable : MemTable) (entry : Entry) :
    (memtable.update entry.1 entry.2).map.entries ≠ [] := by
  have found : (memtable.map.put entry.1 entry.2).get entry.1 = some entry.2 := by
    rw [SortedMap.get_put, if_pos rfl]
  exact List.ne_nil_of_mem (SortedMap.mem_of_get found)

/-- A write over any log: either the memtable is flushed, or it holds the write. -/
theorem Mended.update (mended : Mended sizing tree map) {entry : Entry}
    (recordable : Recordable entry)
    (fits : Fits (tree.update sizing entry.1 entry.2 entry.2.isNone).1.disk) :
    (tree.update sizing entry.1 entry.2 entry.2.isNone).2 = true ∧
      if tree.memtableLimitBytes ≤ (tree.memtable.update entry.1 entry.2).approxBytes then
        Serves sizing (tree.update sizing entry.1 entry.2 entry.2.isNone).1 (applyEntry map entry) []
      else
        Mended sizing (tree.update sizing entry.1 entry.2 entry.2.isNone).1 (applyEntry map entry) ∧
          (tree.update sizing entry.1 entry.2 entry.2.isNone).1.memtable.map.entries ≠ [] := by
  have logs := mended.logged recordable
  have nonempty := update_nonempty tree.memtable entry
  rw [update_eq, LsmTree.maybeFlush] at fits ⊢
  change _ ∧ if (Lsm.logged tree entry).memtableLimitBytes ≤
    (Lsm.logged tree entry).memtable.approxBytes
    then _ else _
  split
  · rename_i full
    rw [if_pos full] at fits
    exact logs.flush nonempty fits
  · exact ⟨rfl, logs, nonempty⟩

/-- A write behind a part of a record buries it, unless the memtable is flushed. -/
theorem write_kept (mended : Mended sizing tree map) {op : Op} {entry : Entry}
    (isWrite : op.entry = some entry) (recordable : Recordable entry) {tail : Tail}
    (notWhole : tail.bury = .buried) (fits : Fits (tree.step sizing op).1.disk) :
    (tree.step sizing op).2 = true ∧
      Kept sizing ⟨(tree.step sizing op).1, Store.tailAfter ⟨tree, tail⟩ op⟩ (op.apply map) := by
  have kept (full : Prop) [Decidable full] {next : LsmTree} {map' : SortedMap JavaString Bytes}
      (outcome : if full then Serves sizing next map' []
        else Mended sizing next map' ∧ next.memtable.map.entries ≠ []) :
      Kept sizing ⟨next, if full then .whole else tail.bury⟩ map' := by
    split at outcome
    · rename_i isFull
      rw [if_pos isFull]
      exact .whole outcome
    · rename_i notFull
      rw [if_neg notFull, notWhole]
      exact .buried outcome.1 outcome.2
  cases op with
  | put key value =>
      obtain rfl := Option.some.inj isWrite
      obtain ⟨returned, outcome⟩ := mended.update recordable fits
      have isTail : Store.tailAfter ⟨tree, tail⟩ (.put key value) =
          if tree.memtableLimitBytes ≤ (tree.memtable.update key (some value)).approxBytes then
            .whole
          else tail.bury := by simp [Store.tailAfter, Store.empties, Op.entry]
      rw [isTail]
      exact ⟨returned, kept _ outcome⟩
  | delete key =>
      obtain rfl := Option.some.inj isWrite
      obtain ⟨returned, outcome⟩ := mended.update recordable fits
      have isTail : Store.tailAfter ⟨tree, tail⟩ (.delete key) =
          if tree.memtableLimitBytes ≤ (tree.memtable.update key none).approxBytes then .whole
          else tail.bury := by simp [Store.tailAfter, Store.empties, Op.entry]
      rw [isTail]
      exact ⟨returned, kept _ outcome⟩
  | flush => exact absurd isWrite (by simp [Op.entry])
  | compact => exact absurd isWrite (by simp [Op.entry])
  | reopen => exact absurd isWrite (by simp [Op.entry])

/-- A call that flushes the memtable empties the log, whatever is in it. -/
theorem emptied_serves (mended : Mended sizing tree map) {op : Op} (isOther : op.entry = none)
    (isEmptied : Store.empties tree op = true) (fits : Fits (tree.step sizing op).1.disk) :
    (tree.step sizing op).2 = true ∧ Serves sizing (tree.step sizing op).1 map [] := by
  cases op with
  | put key value => exact absurd isOther (by simp [Op.entry])
  | delete key => exact absurd isOther (by simp [Op.entry])
  | compact => exact absurd isEmptied (by simp [Store.empties])
  | flush => exact mended.flush (by simpa [Store.empties] using isEmptied) fits
  | reopen =>
      obtain ⟨returned, serves⟩ := mended.flush (by simpa [Store.empties] using isEmptied)
        (fits.of_prefix (flush_grows_reopen sizing tree))
      exact reopen_of_flush returned serves

theorem call_kept (kept : Kept sizing store map) (op : Op) (lossless : op.Lossless)
    (fits : Fits (store.tree.step sizing op).1.disk) :
    (store.tree.step sizing op).2 = true ∧
      Kept sizing ⟨(store.tree.step sizing op).1, store.tailAfter op⟩ (op.apply map) := by
  have same (isOther : op.entry = none) : op.apply map = map := by
    cases op <;> first | rfl | exact absurd isOther (by simp [Op.entry])
  cases kept with
  | @whole tree map serves =>
      obtain ⟨returned, serves'⟩ := step_serves serves lossless fits
      have isTail : Store.tailAfter ⟨tree, .whole⟩ op = .whole := by
        simp [Store.tailAfter, Tail.bury]
      rw [isTail]
      exact ⟨returned, .whole serves'⟩
  | @torn tree map bytes serves =>
      cases isEntry : op.entry with
      | some entry => exact write_kept serves.mended isEntry (lossless entry isEntry) rfl fits
      | none =>
          rw [same isEntry]
          cases isEmptied : Store.empties tree op with
          | true =>
              obtain ⟨returned, serves'⟩ := emptied_serves serves.mended isEntry isEmptied fits
              refine ⟨returned, ?_⟩
              simpa [Store.tailAfter, isEmptied] using Kept.whole serves'
          | false =>
              obtain ⟨returned, torn', serves', -⟩ := other_serves serves isEntry fits
              refine ⟨returned, ?_⟩
              simpa [Store.tailAfter, isEmptied, isEntry] using Kept.torn serves'
  | @buried tree map mended nonempty =>
      cases isEntry : op.entry with
      | some entry => exact write_kept mended isEntry (lossless entry isEntry) rfl fits
      | none =>
          rw [same isEntry]
          cases isEmptied : Store.empties tree op with
          | true =>
              obtain ⟨returned, serves'⟩ := emptied_serves mended isEntry isEmptied fits
              refine ⟨returned, ?_⟩
              simpa [Store.tailAfter, isEmptied] using Kept.whole serves'
          | false =>
              -- Only a compaction leaves a memtable that is not empty where it is.
              cases op with
              | put key value => exact absurd isEntry (by simp [Op.entry])
              | delete key => exact absurd isEntry (by simp [Op.entry])
              | flush => exact absurd isEmptied (by simp [Store.empties, nonempty])
              | reopen => exact absurd isEmptied (by simp [Store.empties, nonempty])
              | compact =>
                  obtain ⟨returned, mended', memtable⟩ := mended.compact fits
                  refine ⟨returned, .buried mended' ?_⟩
                  change (tree.compact sizing).1.memtable.map.entries ≠ []
                  rw [memtable]
                  exact nonempty

/-- The directory that a crash leaves, with what is in its log. -/
theorem crashed_stored {tables : List DiskTable} {records records' : List Entry}
    {torn torn' : Bytes} (stored : Stored sizing tree.disk tables records torn)
    (entry : Entry) (count : Nat)
    (log : encodeRecords records ++ torn ++ (encodeRecord entry).take count =
      encodeRecords records' ++ torn')
    (recordable : ∀ record ∈ records', Recordable record) (isTorn : Torn torn') :
    Stored sizing (Store.crashed tree entry count) tables records' torn' := by
  refine stored.relog (fun name different => read_of_ne _ different) ?_ recordable isTorn
  rw [Store.crashed, read_append, if_pos rfl, ← log]
  exact congrArg (· ++ (encodeRecord entry).take count) stored.log

/-- What the map becomes when the tree is opened after a crash. -/
def recovered (map : SortedMap JavaString Bytes) (entry : Entry) (count : Nat) :
    SortedMap JavaString Bytes :=
  if (encodeRecord entry).length ≤ count then applyEntry map entry else map

theorem Stored.reopens {disk : Directory FileName} {tables : List DiskTable}
    {records : List Entry} {torn : Bytes} (stored : Stored sizing disk tables records torn)
    (represents : Represents (layers (replayed records) tables) map) (tree : LsmTree) :
    ∃ next, tree.reopen disk = some next ∧ Serves sizing next map torn := by
  obtain ⟨next, opens, healthy, -⟩ := stored.new tree.memtableLimitBytes tree.compactionThreshold
  refine ⟨next, opens, tables, records, healthy, ?_⟩
  rw [healthy.memtable]
  exact represents

/-- After an orderly crash the log is complete records and at most one part of a record. -/
theorem crash_kept (kept : Kept sizing store map) {entry : Entry} (recordable : Recordable entry)
    {count : Nat} (orderly : Orderly store (.crash entry count)) :
    ∃ next, store.tree.reopen (Store.crashed store.tree entry count) = some next ∧
      Kept sizing ⟨next, store.tail.crash entry count⟩ (recovered map entry count) := by
  have positive := length_encodeRecord_pos entry
  cases kept with
  | @whole tree map serves =>
      obtain ⟨tables, records, healthy, represents⟩ := serves.healthy
      rw [healthy.memtable] at represents
      by_cases isWhole : (encodeRecord entry).length ≤ count
      · have all : ∀ record ∈ records ++ [entry], Recordable record := by
          intro record member
          rcases List.mem_append.mp member with isOld | isNew
          · exact healthy.stored.recordable record isOld
          · exact List.mem_singleton.mp isNew ▸ recordable
        have stored := crashed_stored healthy.stored entry count
          (by simp [encodeRecords, List.take_of_length_le isWhole]) all torn_nil
        have represents' : Represents (layers (replayed (records ++ [entry])) tables)
            (applyEntry map entry) := by
          intro key
          have updated := layers_update (replayed records) tables entry key
          rw [represents key, ← get_applyEntry] at updated
          rw [LsmTree.replayed_concat]
          exact updated
        obtain ⟨next, opens, serves'⟩ := stored.reopens represents' tree
        have isTail : Tail.whole.crash entry count = .whole := by
          rw [Tail.crash, if_neg (by omega), if_pos isWhole]
          rfl
        refine ⟨next, opens, ?_⟩
        rw [isTail, recovered, if_pos isWhole]
        exact .whole serves'
      · rw [recovered, if_neg isWhole]
        by_cases isNothing : count = 0
        · subst isNothing
          have stored := crashed_stored healthy.stored entry 0 (by simp) healthy.stored.recordable
            torn_nil
          obtain ⟨next, opens, serves'⟩ := stored.reopens represents tree
          exact ⟨next, opens, .whole serves'⟩
        · have isTorn : Torn ((encodeRecord entry).take count) :=
            ⟨entry, count, recordable, by omega, rfl⟩
          have stored := crashed_stored healthy.stored entry count (by simp)
            healthy.stored.recordable isTorn
          obtain ⟨next, opens, serves'⟩ := stored.reopens represents tree
          have isTail : Tail.whole.crash entry count = .torn := by
            rw [Tail.crash, if_neg isNothing, if_neg isWhole]
          refine ⟨next, opens, ?_⟩
          rw [isTail]
          exact .torn serves'
  | @torn tree map bytes serves =>
      obtain ⟨tables, records, healthy, represents⟩ := serves.healthy
      rw [healthy.memtable] at represents
      have isNothing : count = 0 := by
        by_contra isSomething
        refine orderly ?_
        exact @Tail.crash_of_pos .torn (by decide) _ isSomething entry
      subst isNothing
      have stored := crashed_stored healthy.stored entry 0 (by simp) healthy.stored.recordable
        healthy.stored.torn
      obtain ⟨next, opens, serves'⟩ := stored.reopens represents tree
      refine ⟨next, opens, ?_⟩
      rw [recovered, if_neg (by omega)]
      exact .torn serves'
  | buried mended nonempty =>
      refine absurd ?_ orderly
      by_cases isNothing : count = 0
      · exact if_pos isNothing
      · exact @Tail.crash_of_pos .buried (by decide) _ isNothing entry

end

/-! ## Runs -/

theorem Store.step_grows (sizing : Sizing) (store : Store) (event : Event) :
    store.tree.disk <+: (store.step sizing event).1.tree.disk := by
  cases event with
  | call op => exact Lsm.step_grows sizing store.tree op
  | crash entry count =>
      rw [Store.step]
      split
      · rename_i next opens
        exact (List.prefix_append _ _).trans (reopen_grows opens)
      · exact List.prefix_rfl

def Event.apply (map : SortedMap JavaString Bytes) : Event → SortedMap JavaString Bytes
  | .call op => op.apply map
  | .crash entry count => recovered map entry count

/-- The map that the writes that returned make, with the records that a crash left whole. -/
def acknowledged (events : List Event) : SortedMap JavaString Bytes :=
  events.foldl Event.apply .empty

theorem acknowledged_mem_outcomes (events : List Event) :
    acknowledged events ∈ events.foldl outcomes [.empty] := by
  induction events using List.reverseRecOn with
  | nil => exact List.mem_singleton.mpr rfl
  | append_singleton events event induction =>
      rw [acknowledged, List.foldl_append, List.foldl_append]
      cases event with
      | call op => exact List.mem_map_of_mem induction
      | crash entry count =>
          change recovered (acknowledged events) entry count ∈ _ ++ _
          rw [recovered]
          split
          · exact List.mem_append_right _ (List.mem_map_of_mem induction)
          · exact List.mem_append_left _ induction

/-- A run in which no crash buries a part of a record. -/
def OrderlyRun (sizing : Sizing) : Store → List Event → Prop
  | _, [] => True
  | store, event :: rest => Orderly store event ∧ OrderlyRun sizing (store.step sizing event).1 rest

theorem Store.foldl_returned (sizing : Sizing) (store : Store) (events : List Event)
    (returned : Bool) :
    events.foldl (fun state event =>
      let next := state.1.step sizing event
      (next.1, state.2 && next.2)) (store, returned) =
      ((store.run sizing events).1, returned && (store.run sizing events).2) := by
  induction events generalizing store returned with
  | nil => simp [Store.run]
  | cons event rest induction =>
      rw [Store.run, List.foldl_cons, List.foldl_cons, induction, induction, Bool.and_assoc]
      rfl

theorem Store.run_cons (sizing : Sizing) (store : Store) (event : Event) (rest : List Event) :
    store.run sizing (event :: rest) =
      (((store.step sizing event).1.run sizing rest).1,
        (store.step sizing event).2 && ((store.step sizing event).1.run sizing rest).2) := by
  rw [Store.run, List.foldl_cons, Store.foldl_returned]
  rfl

theorem Store.run_grows (sizing : Sizing) (store : Store) (events : List Event) :
    store.tree.disk <+: (store.run sizing events).1.tree.disk := by
  induction events generalizing store with
  | nil => exact List.prefix_rfl
  | cons event rest induction =>
      rw [Store.run_cons]
      exact (store.step_grows sizing event).trans (induction _)

theorem run_kept {sizing : Sizing} {store : Store} {map : SortedMap JavaString Bytes}
    (kept : Kept sizing store map) (events : List Event)
    (recordable : ∀ event ∈ events, ∀ entry, event.entry = some entry → Recordable entry)
    (fits : Fits (store.run sizing events).1.tree.disk)
    (orderly : OrderlyRun sizing store events) :
    (store.run sizing events).2 = true ∧
      Kept sizing (store.run sizing events).1 (events.foldl Event.apply map) := by
  induction events generalizing store map with
  | nil => exact ⟨rfl, kept⟩
  | cons event rest induction =>
      rw [Store.run_cons] at fits ⊢
      have isRecordable := recordable event List.mem_cons_self
      have stepped : (store.step sizing event).2 = true ∧
          Kept sizing (store.step sizing event).1 (event.apply map) := by
        cases event with
        | call op =>
            have grows := Store.run_grows sizing (store.step sizing (.call op)).1 rest
            exact call_kept kept op isRecordable (fits.of_prefix grows)
        | crash entry count =>
            obtain ⟨next, opens, kept'⟩ := crash_kept kept (isRecordable entry rfl) orderly.1
            rw [Store.step, opens]
            exact ⟨rfl, kept'⟩
      obtain ⟨returned, kept'⟩ := induction stepped.2
        (fun other member => recordable other (List.mem_cons_of_mem _ member)) fits orderly.2
      exact ⟨by rw [stepped.1, returned]; rfl, kept'⟩

/-- As long as no crash buries a part of a record, the store opened after the last crash
answers as the writes that returned say. -/
theorem orderly_run_durable (sizing : Sizing) (memtableLimitBytes compactionThreshold : Int)
    (events : List Event)
    (recordable : ∀ event ∈ events, ∀ entry, event.entry = some entry → Recordable entry)
    (fits : Fits
      ((Store.create memtableLimitBytes compactionThreshold).run sizing events).1.tree.disk)
    (orderly : OrderlyRun sizing (Store.create memtableLimitBytes compactionThreshold) events) :
    Durable sizing (Store.create memtableLimitBytes compactionThreshold) events := by
  obtain ⟨returned, kept⟩ :=
    run_kept (.whole (create_serves sizing memtableLimitBytes compactionThreshold)) events
      recordable fits orderly
  exact ⟨returned, acknowledged events, acknowledged_mem_outcomes events, kept.mended.get⟩

/-- A store that calls and orderly crashes can reach, and whose log is in order. -/
structure Reached (sizing : Sizing) (store : Store) : Prop where
  run : ∃ memtableLimitBytes compactionThreshold events,
    (∀ event ∈ events, ∀ entry, event.entry = some entry → Recordable entry) ∧
      OrderlyRun sizing (Store.create memtableLimitBytes compactionThreshold) events ∧
      store = ((Store.create memtableLimitBytes compactionThreshold).run sizing events).1
  inOrder : store.tail ≠ .buried

theorem Reached.healthy {sizing : Sizing} {store : Store} (reached : Reached sizing store)
    (fits : Fits store.tree.disk) :
    ∃ tables records torn, Healthy sizing store.tree tables records torn := by
  obtain ⟨limit, threshold, events, recordable, orderly, rfl⟩ := reached.run
  have started : Kept sizing (Store.create limit threshold) .empty :=
    .whole (create_serves sizing limit threshold)
  obtain ⟨-, kept⟩ := run_kept started events recordable fits orderly
  have inOrder := reached.inOrder
  generalize (Store.run sizing (Store.create limit threshold) events).1 = store at kept inOrder ⊢
  cases kept with
  | whole serves =>
      obtain ⟨tables, records, healthy, -⟩ := serves.healthy
      exact ⟨tables, records, [], healthy⟩
  | torn serves =>
      obtain ⟨tables, records, healthy, -⟩ := serves.healthy
      exact ⟨tables, records, _, healthy⟩
  | buried => exact absurd rfl inOrder

/-- A crash in the middle of a record, a flush that empties the log, and another crash. -/
def orderlyEvents : List Event :=
  [.call (.put (ofAscii ['a']) [1]), .crash (ofAscii ['b'], some [2]) 3,
    .call .flush, .call (.delete (ofAscii ['a'])), .crash (ofAscii ['c'], none) 6]

theorem orderlyEvents_recordable :
    ∀ event ∈ orderlyEvents, ∀ entry, event.entry = some entry → Recordable entry := by
  intro event member entry isEntry
  simp only [orderlyEvents, List.mem_cons, List.not_mem_nil, or_false] at member
  rcases member with rfl | rfl | rfl | rfl | rfl
  case inr.inr.inl => exact absurd isEntry (by simp [Event.entry, Op.entry])
  all_goals
    obtain rfl := Option.some.inj isEntry
    exact ⟨by decide, by decide, by simp⟩

theorem orderly_run_durable_mixed : Durable onePercent (Store.create 1000 4) orderlyEvents :=
  orderly_run_durable onePercent 1000 4 orderlyEvents orderlyEvents_recordable
    (.of_short (by decide +kernel))
    ⟨trivial, show _ ≠ _ by decide +kernel, trivial, trivial, show _ ≠ _ by decide +kernel, trivial⟩

/-- A crash leaves one byte of a record, and a write that returns follows it: the next
tree takes the two for one record, and does not know the key that was written. -/
def buriedEvents : List Event :=
  [.crash (ofAscii ['a'], some [1]) 1, .call (.put (ofAscii ['b']) [2]),
    .crash (ofAscii ['c'], none) 0]

theorem buried_write_is_lost : ¬ Durable onePercent (Store.create 1000 4) buriedEvents := by
  rintro ⟨-, map, member, answers⟩
  have lost : ∀ map ∈ buriedEvents.foldl outcomes [.empty],
      ((Store.create 1000 4).run onePercent buriedEvents).1.tree.get (ofAscii ['b']) ≠
        some (map.get (ofAscii ['b'])) := by decide +kernel
  exact lost map member (answers (ofAscii ['b']))

end FoundationsLab.Lsm
