import FoundationsLab.Lsm.WriteAheadLog

/-! # Prefixes of the log

A crash leaves a prefix of the log. Wherever the cut falls, `replay` ends and hands
over the operations whose records lie inside the prefix. -/

namespace FoundationsLab.Lsm

open Foundation
open Foundation.JavaString
open Foundation.Directory

namespace WriteAheadLog

/-- The calls of `append` for a list of operations, in order. -/
def appendAll (out : Output) (operations : List Entry) : Output :=
  operations.foldl (fun out operation =>
    (append out operation.1 operation.2 operation.2.isNone).1) out

/-- The log grows by one record an operation, and nothing stays in the buffer. -/
theorem appendAll_log (operations : List Entry) (out : Output) (flushed : out.pending = []) :
    (appendAll out operations).log = out.log ++ encodeRecords operations ∧
      (appendAll out operations).pending = [] := by
  induction operations generalizing out with
  | nil => exact ⟨(List.append_nil _).symm, flushed⟩
  | cons operation rest induction =>
      have written := append_record out operation.1 operation.2
      have later := induction _ written.2.2
      have unfolded : appendAll out (operation :: rest) =
          appendAll (append out operation.1 operation.2 operation.2.isNone).1 rest := rfl
      have records : encodeRecords (operation :: rest) =
          encodeRecord operation ++ encodeRecords rest := rfl
      rw [unfolded, records]
      constructor
      · rw [later.1, written.2.1.log, List.append_assoc]
      · exact later.2

/-! ## Where a prefix ends -/

/-- The offset at which the record of an operation ends. -/
def recordEnd (operations : List Entry) (index : Nat) : Nat :=
  (encodeRecords (operations.take (index + 1))).length

theorem recordEnd_zero (operation : Entry) (rest : List Entry) :
    recordEnd (operation :: rest) 0 = (encodeRecord operation).length := by
  simp [recordEnd, encodeRecords]

theorem recordEnd_succ (operation : Entry) (rest : List Entry) (index : Nat) :
    recordEnd (operation :: rest) (index + 1) =
      (encodeRecord operation).length + recordEnd rest index := by
  simp [recordEnd, encodeRecords]

/-- A prefix holds some complete records and what is left of one more. -/
theorem take_encodeRecords {operations : List Entry} (cut : Nat)
    (recordable : ∀ operation ∈ operations, Recordable operation) :
    ∃ count torn, count ≤ operations.length ∧ Torn torn ∧
      (encodeRecords operations).take cut = encodeRecords (operations.take count) ++ torn ∧
      ∀ index < operations.length, index < count ↔ recordEnd operations index ≤ cut := by
  induction operations generalizing cut with
  | nil =>
      refine ⟨0, [], Nat.le_refl 0, torn_nil, ?_, ?_⟩
      · simp [encodeRecords]
      · intro index inside
        simp at inside
  | cons operation rest induction =>
      have records : encodeRecords (operation :: rest) =
          encodeRecord operation ++ encodeRecords rest := rfl
      have own := recordable operation List.mem_cons_self
      by_cases complete : (encodeRecord operation).length ≤ cut
      · rcases induction (cut - (encodeRecord operation).length)
          (fun other member => recordable other (List.mem_cons_of_mem _ member))
          with ⟨count, torn, bound, isTorn, split, inside⟩
        refine ⟨count + 1, torn, Nat.succ_le_succ bound, isTorn, ?_, ?_⟩
        · rw [records, List.take_append, List.take_of_length_le complete, split,
            ← List.append_assoc]
          rfl
        · intro index small
          cases index with
          | zero =>
              rw [recordEnd_zero]
              omega
          | succ index =>
              have later := inside index (by simpa using small)
              rw [recordEnd_succ]
              omega
      · -- The cut falls into this record, and the later ones start behind it.
        refine ⟨0, (encodeRecord operation).take cut, Nat.zero_le _,
          ⟨operation, cut, own, by omega, rfl⟩, ?_, ?_⟩
        · rw [records, List.take_append_of_le_length (by omega)]
          rfl
        · intro index small
          cases index with
          | zero =>
              rw [recordEnd_zero]
              omega
          | succ index =>
              rw [recordEnd_succ]
              omega

/-! ## The loop of `replay` ends -/

/-- The rounds of the loop from some bytes on end with the `break`, after handing
over the entries. -/
inductive Replays : Bytes → List Entry → Prop where
  | stop {bytes : Bytes} (stops : replayStep bytes = .stop) : Replays bytes []
  | record {bytes rest : Bytes} {entry : Entry} {entries : List Entry}
      (step : replayStep bytes = .record entry rest) (later : Replays rest entries) :
      Replays bytes (entry :: entries)

theorem replays_records {records : List Entry}
    (recordable : ∀ entry ∈ records, Recordable entry) {torn : Bytes} (isTorn : Torn torn) :
    Replays (encodeRecords records ++ torn) records := by
  induction records with
  | nil => exact .stop (replayStep_torn isTorn)
  | cons entry records induction =>
      have later := induction fun other member => recordable other (List.mem_cons_of_mem _ member)
      have split : encodeRecords (entry :: records) ++ torn =
          encodeRecord entry ++ (encodeRecords records ++ torn) := by
        simp [encodeRecords]
      rw [split]
      exact .record (replayStep_record (recordable entry List.mem_cons_self) _) later

/-- From a log that was empty, every prefix of the log replays to the operations
whose records end inside it. The loop ends by itself, before the fuel does. -/
theorem replay_delivers_complete_records {disk : Directory FileName}
    (fresh : (read disk walFile).getD [] = []) {operations : List Entry}
    (recordable : ∀ operation ∈ operations, Recordable operation) {cut : Bytes}
    (isPrefix : cut <+: (read (appendAll ⟨disk, []⟩ operations).disk walFile).getD []) :
    ∃ count ≤ operations.length,
      replay cut = some (operations.take count) ∧ Replays cut (operations.take count) ∧
      ∀ index < operations.length,
        index < count ↔ recordEnd operations index ≤ cut.length := by
  have logged := appendAll_log operations ⟨disk, []⟩ rfl
  have log : (read (appendAll ⟨disk, []⟩ operations).disk walFile).getD [] =
      encodeRecords operations := by
    have whole := logged.1
    rw [Output.log, logged.2, List.append_nil] at whole
    rw [whole, Output.log, fresh]
    rfl
  rw [log] at isPrefix
  rcases take_encodeRecords cut.length recordable with
    ⟨count, torn, bound, isTorn, split, inside⟩
  rw [← List.prefix_iff_eq_take.mp isPrefix] at split
  have complete : ∀ entry ∈ operations.take count, Recordable entry :=
    fun entry member => recordable entry (List.mem_of_mem_take member)
  refine ⟨count, bound, ?_, ?_, inside⟩
  · rw [split]
    exact replay_records complete isTorn
  · rw [split]
    exact replays_records complete isTorn

/-- Two operations and a cut inside the second record. -/
theorem replay_delivers_first_record :
    ∃ count ≤ 2, replay [0, 0, 0, 0, 0, 0, 0, 0, 1, 7, 1, 0] =
        some ([([], some [7]), (ofAscii ['a'], none)].take count) ∧
      Replays [0, 0, 0, 0, 0, 0, 0, 0, 1, 7, 1, 0]
        ([([], some [7]), (ofAscii ['a'], none)].take count) ∧
      ∀ index < 2, index < count ↔
        recordEnd [([], some [7]), (ofAscii ['a'], none)] index ≤ 12 := by
  have recordable : ∀ operation ∈ [([], some [7]), (ofAscii ['a'], (none : Option Bytes))],
      Recordable operation := by
    intro operation member
    rcases List.mem_cons.mp member with rfl | isSecond
    · exact ⟨by decide, by decide, fun value isValue => by cases isValue; decide⟩
    · rw [List.mem_singleton.mp isSecond]
      exact ⟨by decide, by decide, fun value isValue => by cases isValue⟩
  exact replay_delivers_complete_records rfl recordable
    (by decide +kernel : [0, 0, 0, 0, 0, 0, 0, 0, 1, 7, 1, 0] <+:
      (read (appendAll ⟨[], []⟩ [([], some [7]), (ofAscii ['a'], none)]).disk walFile).getD [])

end WriteAheadLog

end FoundationsLab.Lsm
