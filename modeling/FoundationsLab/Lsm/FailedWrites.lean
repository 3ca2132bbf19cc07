import FoundationsLab.Lsm.Durability

/-! # Calls that throw

A call that throws before it wrote to the log leaves no trace. A put of `null` throws
in the middle of its record, and the bytes in the buffer of the stream go to the log
with the next record. -/

namespace FoundationsLab.Lsm

open Foundation
open Foundation.JavaString
open Foundation.Directory
open WriteAheadLog

/-- The public calls, with the references they are given: `none` is `null`. -/
inductive Call where
  | put (key : Option JavaString) (value : Option Bytes)
  | putString (key value : Option JavaString)
  | delete (key : Option JavaString)
  | flush
  | compact
  | reopen

/-- What the call does when no reference that it uses is `null`. -/
def Call.op : Call → Option Op
  | put (some key) (some value) => some (.put key value)
  | putString (some key) (some value) => some (.put key (getBytes value))
  | delete (some key) => some (.delete key)
  | flush => some .flush
  | compact => some .compact
  | reopen => some .reopen
  | _ => none

namespace LsmTree

/-- `key.getBytes` is the first thing that `append` does, and `value.getBytes` the first
thing that `put` of a string does. -/
def call (sizing : Sizing) (tree : LsmTree) : Call → LsmTree × Bool
  | .put none _ => (tree, false)
  | .put (some key) value => tree.put sizing key value
  | .putString _ none => (tree, false)
  | .putString none (some _) => (tree, false)
  | .putString (some key) (some value) => tree.put sizing key (some (getBytes value))
  | .delete none => (tree, false)
  | .delete (some key) => tree.delete sizing key
  | .flush => tree.step sizing .flush
  | .compact => tree.step sizing .compact
  | .reopen => tree.step sizing .reopen

end LsmTree

/-- The tree, and the writes it acknowledged since the log was emptied. -/
structure Journal where
  tree : LsmTree
  acknowledged : List Entry

namespace Journal

/-- The acknowledged writes once the call returned. -/
def acknowledge (journal : Journal) (call : Call) : List Entry :=
  match call.op with
  | none => journal.acknowledged
  | some op =>
      if Store.empties journal.tree op then [] else journal.acknowledged ++ op.entry.toList

def step (sizing : Sizing) (journal : Journal) (call : Call) : Journal :=
  match journal.tree.call sizing call with
  | (tree, true) => ⟨tree, journal.acknowledge call⟩
  | (tree, false) => ⟨tree, journal.acknowledged⟩

def run (sizing : Sizing) (journal : Journal) (calls : List Call) : Journal :=
  calls.foldl (step sizing) journal

def create (memtableLimitBytes compactionThreshold : Int) : Journal where
  tree := LsmTree.create memtableLimitBytes compactionThreshold
  acknowledged := []

/-- The bytes of the log file. -/
def log (journal : Journal) : Bytes := (read journal.tree.disk walFile).getD []

/-- The log is the records of the acknowledged writes, and is replayed as them. -/
structure Intact (journal : Journal) : Prop where
  bytes : journal.log = encodeRecords journal.acknowledged
  replays : replay journal.log = some journal.acknowledged

end Journal

/-- The call does not throw in the middle of a record, and what it writes comes back from
its bytes. -/
structure Call.Whole (call : Call) : Prop where
  hasValue : ∀ key, call ≠ .put (some key) none
  lossless : ∀ op, call.op = some op → op.Lossless

/-! ## Healthy trees, with their records -/

section

variable {sizing : Sizing} {tree : LsmTree} {tables : List DiskTable} {records : List Entry}
  {torn : Bytes}

theorem Healthy.compact (healthy : Healthy sizing tree tables records torn)
    (fits : Fits (tree.compact sizing).1.disk) :
    (tree.compact sizing).2 = true ∧
      ∃ tables', Healthy sizing (tree.compact sizing).1 tables' records torn := by
  by_cases several : 1 < tree.sstables.length
  · have sound := LsmTree.compacted_sound healthy
      (fits.of_prefix (LsmTree.compactWritten_grows sizing healthy.opened several))
    obtain ⟨returned, -, -, healthy'⟩ := LsmTree.compact_healthy healthy several sound
    exact ⟨returned, _, healthy'⟩
  · rw [LsmTree.compact, if_pos (by omega)]
    exact ⟨rfl, tables, healthy⟩

/-- A memtable with entries is flushed, and the log is empty. -/
theorem Healthy.flush (healthy : Healthy sizing tree tables records torn)
    (nonempty : tree.memtable.map.entries ≠ []) (fits : Fits (tree.flush sizing).1.disk) :
    (tree.flush sizing).2 = true ∧
      ∃ tables', Healthy sizing (tree.flush sizing).1 tables' [] [] := by
  rw [flush_nonempty sizing nonempty] at fits ⊢
  have fitsWritten : Fits (tree.flushWritten sizing) := by
    have written := LsmTree.flushMemtable_grows sizing tree
    split at fits
    · exact fits.of_prefix (written.trans (maybeCompact_grows _ _))
    · exact fits.of_prefix written
  obtain ⟨returned, -, -, healthy'⟩ :=
    LsmTree.flushMemtable_healthy healthy (LsmTree.flushed_sound healthy fitsWritten)
  rw [if_pos returned, LsmTree.maybeCompact] at fits ⊢
  split
  · rename_i tooMany
    rw [if_pos tooMany] at fits
    exact healthy'.compact fits
  · exact ⟨rfl, _, healthy'⟩

/-- A memtable without entries is the replay of an empty log. -/
theorem Healthy.no_records (healthy : Healthy sizing tree tables records torn)
    (empty : tree.memtable.map.entries = []) : records = [] := by
  rw [healthy.memtable] at empty
  induction records using List.reverseRecOn with
  | nil => rfl
  | append_singleton records record _ =>
      rw [LsmTree.replayed_concat] at empty
      exact absurd empty (update_nonempty _ record)

/-- What the records of the log become when a call returns. -/
def recordsAfter (tree : LsmTree) (records : List Entry) (op : Op) : List Entry :=
  if Store.empties tree op then [] else records ++ op.entry.toList

theorem Healthy.update (healthy : Healthy sizing tree tables records []) {entry : Entry}
    (recordable : Recordable entry)
    (fits : Fits (tree.update sizing entry.1 entry.2 entry.2.isNone).1.disk) :
    (tree.update sizing entry.1 entry.2 entry.2.isNone).2 = true ∧
      ∃ tables', Healthy sizing (tree.update sizing entry.1 entry.2 entry.2.isNone).1 tables'
        (if tree.memtableLimitBytes ≤ (tree.memtable.update entry.1 entry.2).approxBytes then []
          else records ++ [entry]) [] := by
  have logs := healthy.logged recordable
  rw [update_eq, LsmTree.maybeFlush] at fits ⊢
  change _ ∧ ∃ tables', Healthy _ _ _ (if (Lsm.logged tree entry).memtableLimitBytes ≤
    (Lsm.logged tree entry).memtable.approxBytes then _ else _) _
  split
  · rename_i full
    rw [if_pos full] at fits
    exact logs.flush (update_nonempty tree.memtable entry) fits
  · exact ⟨rfl, tables, logs⟩

/-- A flush empties the log, unless it is empty already. -/
theorem Healthy.flush_or_empty (healthy : Healthy sizing tree tables records [])
    (fits : Fits (tree.flush sizing).1.disk) :
    (tree.flush sizing).2 = true ∧ ∃ tables', Healthy sizing (tree.flush sizing).1 tables'
      (recordsAfter tree records .flush) [] := by
  by_cases empty : tree.memtable.map.entries = []
  · have none := healthy.no_records empty
    subst none
    rw [LsmTree.flush, if_pos empty]
    refine ⟨rfl, tables, ?_⟩
    simpa [recordsAfter, Op.entry] using healthy
  · have emptied : recordsAfter tree records .flush = [] := by
      simp [recordsAfter, Store.empties, empty]
    rw [emptied]
    exact healthy.flush empty fits

theorem Healthy.step (healthy : Healthy sizing tree tables records []) {op : Op}
    (lossless : op.Lossless) (fits : Fits (tree.step sizing op).1.disk) :
    (tree.step sizing op).2 = true ∧ ∃ tables', Healthy sizing (tree.step sizing op).1 tables'
      (recordsAfter tree records op) [] := by
  cases op with
  | put key value =>
      have records' : recordsAfter tree records (.put key value) =
          if tree.memtableLimitBytes ≤ (tree.memtable.update key (some value)).approxBytes then []
          else records ++ [(key, some value)] := by
        simp [recordsAfter, Store.empties, Op.entry]
      rw [records']
      exact healthy.update (lossless (key, some value) rfl) fits
  | delete key =>
      have records' : recordsAfter tree records (.delete key) =
          if tree.memtableLimitBytes ≤ (tree.memtable.update key none).approxBytes then []
          else records ++ [(key, none)] := by
        simp [recordsAfter, Store.empties, Op.entry]
      rw [records']
      exact healthy.update (lossless (key, none) rfl) fits
  | flush => exact healthy.flush_or_empty fits
  | compact =>
      obtain ⟨returned, tables', healthy'⟩ := healthy.compact fits
      have records' : recordsAfter tree records .compact = records := by
        simp [recordsAfter, Store.empties, Op.entry]
      rw [records']
      exact ⟨returned, tables', healthy'⟩
  | reopen =>
      obtain ⟨returned, tables', flushed⟩ :=
        healthy.flush_or_empty (fits.of_prefix (flush_grows_reopen sizing tree))
      obtain ⟨next, opens, healthy'⟩ := flushed.reopen
      rw [step_reopen, close_of_flush returned flushed.pending, if_pos rfl]
      dsimp only
      rw [opens]
      exact ⟨rfl, tables', healthy'⟩

end

/-! ## Runs -/

section

variable {sizing : Sizing} {journal : Journal}

theorem call_of_op (sizing : Sizing) (tree : LsmTree) {call : Call} {op : Op}
    (isOp : call.op = some op) : tree.call sizing call = tree.step sizing op := by
  unfold Call.op at isOp
  split at isOp
  case h_7 => exact absurd isOp (by simp)
  all_goals
    obtain rfl := Option.some.inj isOp
    rfl

/-- The other calls throw before they do anything. -/
theorem call_without_op (sizing : Sizing) (tree : LsmTree) {call : Call} (isNone : call.op = none)
    (hasValue : ∀ key, call ≠ .put (some key) none) : tree.call sizing call = (tree, false) := by
  unfold LsmTree.call
  split
  case h_2 key value =>
    cases value with
    | none => exact absurd rfl (hasValue key)
    | some value => exact absurd isNone (by simp [Call.op])
  case h_1 | h_3 | h_4 | h_6 => rfl
  all_goals exact absurd isNone (by simp [Call.op])

/-- The records of the log are the acknowledged writes. -/
def Journal.Faithful (sizing : Sizing) (journal : Journal) : Prop :=
  ∃ tables, Healthy sizing journal.tree tables journal.acknowledged []

theorem Journal.Faithful.intact (faithful : journal.Faithful sizing) : journal.Intact := by
  obtain ⟨tables, healthy⟩ := faithful
  have bytes : journal.log = encodeRecords journal.acknowledged ++ [] := healthy.stored.log
  constructor
  · rw [bytes, List.append_nil]
  · rw [bytes]
    exact replay_records healthy.stored.recordable healthy.stored.torn

theorem Journal.Faithful.step (faithful : journal.Faithful sizing) {call : Call} (whole : call.Whole)
    (fits : Fits (journal.step sizing call).tree.disk) :
    (journal.step sizing call).Faithful sizing := by
  obtain ⟨tables, healthy⟩ := faithful
  cases isOp : call.op with
  | none =>
      rw [Journal.step, call_without_op sizing _ isOp whole.hasValue]
      exact ⟨tables, healthy⟩
  | some op =>
      have stepped : journal.step sizing call =
          match journal.tree.step sizing op with
          | (tree, true) => ⟨tree, recordsAfter journal.tree journal.acknowledged op⟩
          | (tree, false) => ⟨tree, journal.acknowledged⟩ := by
        rw [Journal.step, call_of_op sizing _ isOp, Journal.acknowledge, isOp]
        rfl
      have fitsStep : Fits (journal.tree.step sizing op).1.disk := by
        rw [stepped] at fits
        cases result : journal.tree.step sizing op with
        | mk next returned =>
            rw [result] at fits
            cases returned <;> exact fits
      obtain ⟨returned, tables', healthy'⟩ := healthy.step (whole.lossless op isOp) fitsStep
      rw [stepped]
      cases result : journal.tree.step sizing op with
      | mk next flag =>
          rw [result] at returned healthy'
          obtain rfl : flag = true := returned
          exact ⟨tables', healthy'⟩

theorem Journal.step_grows (sizing : Sizing) (journal : Journal) {call : Call}
    (whole : call.Whole) : journal.tree.disk <+: (journal.step sizing call).tree.disk := by
  have tree : (journal.step sizing call).tree = (journal.tree.call sizing call).1 := by
    rw [Journal.step]
    cases journal.tree.call sizing call with
    | mk next returned => cases returned <;> rfl
  rw [tree]
  cases isOp : call.op with
  | none =>
      rw [call_without_op sizing _ isOp whole.hasValue]
  | some op =>
      rw [call_of_op sizing _ isOp]
      exact Lsm.step_grows sizing journal.tree op

end

/-- In a run without a put of `null` under a key, the log is the records of the writes
that returned since it was last emptied. -/
theorem log_of_acknowledged (sizing : Sizing) (memtableLimitBytes compactionThreshold : Int)
    (calls : List Call) (whole : ∀ call ∈ calls, call.Whole)
    (fits : Fits
      ((Journal.create memtableLimitBytes compactionThreshold).run sizing calls).tree.disk) :
    ((Journal.create memtableLimitBytes compactionThreshold).run sizing calls).Intact := by
  suffices faithful :
      ((Journal.create memtableLimitBytes compactionThreshold).run sizing calls).Faithful sizing from
    faithful.intact
  induction calls using List.reverseRecOn with
  | nil =>
      obtain ⟨tables, records, healthy, -⟩ :=
        (create_serves sizing memtableLimitBytes compactionThreshold).healthy
      obtain rfl := healthy.no_records rfl
      exact ⟨tables, healthy⟩
  | append_singleton calls call induction =>
      rw [Journal.run, List.foldl_append] at fits ⊢
      have isWhole := whole call (by simp)
      have faithful := induction (fun other member => whole other (by simp [member]))
        (fits.of_prefix (Journal.step_grows sizing _ isWhole))
      exact faithful.step isWhole fits

/-- A put without a key throws, a flush empties the log, and a write follows. -/
def mixedCalls : List Call :=
  [.put (some (ofAscii ['a'])) (some [1]), .put none (some [2]), .putString (some (ofAscii ['b'])) none,
    .flush, .delete (some (ofAscii ['a'])), .delete none]

theorem log_of_acknowledged_mixed :
    ((Journal.create 1000 4).run onePercent mixedCalls).Intact := by
  refine log_of_acknowledged onePercent 1000 4 mixedCalls ?_ (.of_short (by decide +kernel))
  intro call member
  simp only [mixedCalls, List.mem_cons, List.not_mem_nil, or_false] at member
  refine ⟨fun key same => ?_, fun op isOp entry isEntry => ?_⟩
  · rcases member with rfl | rfl | rfl | rfl | rfl | rfl <;> simp at same
  · rcases member with rfl | rfl | rfl | rfl | rfl | rfl
    all_goals
      simp [Call.op] at isOp
    all_goals
      subst isOp
      simp [Op.entry] at isEntry
    all_goals
      subst isEntry
      exact ⟨by decide, by decide, by simp⟩

/-- A put of `null`, and a put that returns. -/
def buryingCalls : List Call :=
  [.put (some (ofAscii ['a'])) none, .put (some (ofAscii ['b'])) (some [1])]

/-- The bytes of the put that threw are in the log, and the replay takes the bytes behind
them for an empty value. -/
theorem failed_write_reaches_log :
    ¬((Journal.create 1000 4).run onePercent buryingCalls).Intact := by
  intro intact
  have acknowledged : ((Journal.create 1000 4).run onePercent buryingCalls).acknowledged =
      [(ofAscii ['b'], some [1])] := by decide +kernel
  have replayed : replay ((Journal.create 1000 4).run onePercent buryingCalls).log =
      some [(ofAscii ['a'], some [])] := by decide +kernel
  have same := intact.replays
  rw [acknowledged, replayed] at same
  exact absurd same (by decide)

end FoundationsLab.Lsm
