import FoundationsLab.Foundation.Directory
import FoundationsLab.Lsm.SSTable

/-! # The write-ahead log

A record is the operation, the key and, for a put, the value. `append` writes
through a buffered stream and flushes it. `replay` stops at the first record that
breaks off. -/

namespace FoundationsLab.Lsm

open Foundation
open Foundation.JavaString
open Foundation.Directory

def walFile : FileName := ofAscii ['w', 'a', 'l', '.', 'l', 'o', 'g']

namespace WriteAheadLog

/-- The directory, and the bytes in the buffer of the stream to the log. -/
structure Output where
  disk : Directory FileName
  pending : Bytes

def BUFFER : Nat := 8192

/-- `BufferedOutputStream.flush`. -/
def Output.flush (out : Output) : Output :=
  if out.pending = [] then out else ⟨out.disk ++ [.append walFile out.pending], []⟩

/-- `BufferedOutputStream.write`. -/
def Output.write (out : Output) (bytes : Bytes) : Output :=
  if BUFFER ≤ bytes.length then
    let out := out.flush
    ⟨out.disk ++ [.append walFile bytes], []⟩
  else if BUFFER - out.pending.length < bytes.length then
    let out := out.flush
    ⟨out.disk, bytes⟩
  else ⟨out.disk, out.pending ++ bytes⟩

/-- The new output, and whether the call returned: it throws for a put of `null`. -/
def append (out : Output) (key : JavaString) (value : Option Bytes) (tombstone : Bool) :
    Output × Bool :=
  let k := getBytes key
  let out := out.write [if tombstone then 1 else 0]
  let out := out.write (writeInt k.length)
  let out := out.write k
  if tombstone then (out.flush, true)
  else
    match value with
    | none => (out, false)
    | some value =>
        let out := out.write (writeInt value.length)
        let out := out.write value
        (out.flush, true)

/-- `close` flushes the stream; opening it again without appending empties the file. -/
def truncate (out : Output) : Output := ⟨out.flush.disk ++ [.write walFile []], []⟩

/-! ## Replaying -/

inductive ReplayStep where
  | stop
  | throws
  | record (entry : Entry) (rest : Bytes)

/-- One round of the loop of `replay`. -/
def replayStep : Bytes → ReplayStep
  | [] => .stop
  | op :: bytes =>
      match readInt bytes with
      | none => .stop
      | some (klen, bytes) =>
          if klen < 0 then .throws
          else
            match takeBytes klen.toNat bytes with
            | none => .stop
            | some (k, bytes) =>
                if op = 1 then .record (newString k, none) bytes
                else
                  match readInt bytes with
                  | none => .stop
                  | some (vlen, bytes) =>
                      if vlen < 0 then .throws
                      else
                        match takeBytes vlen.toNat bytes with
                        | none => .stop
                        | some (v, bytes) => .record (newString k, some v) bytes

/-- Every record takes bytes, so the length of the log is enough fuel. -/
def replayLoop : (fuel : Nat) → Bytes → Option (List Entry)
  | 0, _ => some []
  | fuel + 1, bytes =>
      match replayStep bytes with
      | .stop => some []
      | .throws => none
      | .record entry rest => (replayLoop fuel rest).map (entry :: ·)

/-- The records handed to the handler. -/
def replay (log : Bytes) : Option (List Entry) := replayLoop log.length log

/-! ## Appending -/

def encodeRecord : Entry → Bytes
  | (key, none) => 1 :: (writeInt (getBytes key).length ++ getBytes key)
  | (key, some value) =>
      0 :: (writeInt (getBytes key).length ++ getBytes key ++ (writeInt value.length ++ value))

def encodeRecords (records : List Entry) : Bytes := records.flatMap encodeRecord

@[simp] theorem encodeRecords_append (front back : List Entry) :
    encodeRecords (front ++ back) = encodeRecords front ++ encodeRecords back :=
  List.flatMap_append

/-- What the log file holds, or will hold after a flush. -/
def Output.log (out : Output) : Bytes := (read out.disk walFile).getD [] ++ out.pending

/-- Only the log file was written to, and it grew by the bytes. -/
structure Appends (out out' : Output) (bytes : Bytes) : Prop where
  log : out'.log = out.log ++ bytes
  others : ∀ name, name ≠ walFile → read out'.disk name = read out.disk name
  grows : out.disk <+: out'.disk

theorem Appends.refl (out : Output) : Appends out out [] :=
  ⟨(List.append_nil _).symm, fun _ _ => rfl, List.prefix_rfl⟩

theorem Appends.trans {out out' out'' : Output} {bytes bytes' : Bytes}
    (first : Appends out out' bytes) (second : Appends out' out'' bytes') :
    Appends out out'' (bytes ++ bytes') where
  log := by rw [second.log, first.log, List.append_assoc]
  others name different := (second.others name different).trans (first.others name different)
  grows := first.grows.trans second.grows

theorem flush_appends (out : Output) : Appends out out.flush [] := by
  rw [Output.flush]
  split
  · exact .refl out
  · refine ⟨?_, fun name different => read_of_ne _ different, List.prefix_append _ _⟩
    simp [Output.log, read_append]

theorem flush_pending (out : Output) : out.flush.pending = [] := by
  rw [Output.flush]
  split
  · assumption
  · rfl

theorem write_appends (out : Output) (bytes : Bytes) : Appends out (out.write bytes) bytes := by
  have flushed := flush_appends out
  have empty := flush_pending out
  rw [Output.write]
  split
  · refine (flushed.trans (?_ : Appends out.flush _ bytes) : Appends out _ ([] ++ bytes))
    refine ⟨?_, fun name different => read_of_ne _ different, List.prefix_append _ _⟩
    simp [Output.log, read_append, empty]
  · split
    · refine (flushed.trans (?_ : Appends out.flush _ bytes) : Appends out _ ([] ++ bytes))
      exact ⟨by simp [Output.log, empty], fun _ _ => rfl, List.prefix_rfl⟩
    · exact ⟨by simp [Output.log], fun _ _ => rfl, List.prefix_rfl⟩

/-- A call that returns appends one record and leaves nothing in the buffer. -/
theorem append_record (out : Output) (key : JavaString) (value : Option Bytes) :
    (append out key value value.isNone).2 = true ∧
      Appends out (append out key value value.isNone).1 (encodeRecord (key, value)) ∧
      (append out key value value.isNone).1.pending = [] := by
  cases value with
  | none =>
      have written := ((write_appends out [1]).trans (write_appends _ (writeInt (getBytes key).length))).trans
        (write_appends _ (getBytes key))
      refine ⟨rfl, ?_, flush_pending _⟩
      have all := written.trans (flush_appends _)
      simpa [append, encodeRecord] using all
  | some value =>
      have written := ((write_appends out [0]).trans (write_appends _ (writeInt (getBytes key).length))).trans
        (write_appends _ (getBytes key))
      have all := ((written.trans (write_appends _ (writeInt value.length))).trans
        (write_appends _ value)).trans (flush_appends _)
      refine ⟨rfl, ?_, flush_pending _⟩
      simpa [append, encodeRecord] using all

theorem truncate_log (out : Output) : (truncate out).log = [] ∧ (truncate out).pending = [] ∧
    (∀ name, name ≠ walFile → read (truncate out).disk name = read out.disk name) ∧
      out.disk <+: (truncate out).disk := by
  have flushed := flush_appends out
  refine ⟨by simp [truncate, Output.log, read_write], rfl, fun name different => ?_,
    flushed.grows.trans (List.prefix_append _ _)⟩
  exact (read_of_ne _ different).trans (flushed.others name different)

/-! ## Replaying what was appended -/

/-- A record that comes back from its bytes. The lengths are those of Java arrays. -/
structure Recordable (entry : Entry) : Prop where
  lossless : Lossless entry.1
  key : (getBytes entry.1).length < 2 ^ 31
  value : ∀ value, entry.2 = some value → value.length < 2 ^ 31

/-- What a crash leaves of one record. -/
def Torn (bytes : Bytes) : Prop :=
  ∃ entry count, Recordable entry ∧ count < (encodeRecord entry).length ∧
    bytes = (encodeRecord entry).take count

theorem torn_nil : Torn [] :=
  ⟨([], none), 0, ⟨by decide, by decide, by simp⟩, by decide, rfl⟩

theorem replayStep_record {entry : Entry} (recordable : Recordable entry) (rest : Bytes) :
    replayStep (encodeRecord entry ++ rest) = .record entry rest := by
  obtain ⟨key, value⟩ := entry
  have back : newString (getBytes key) = key := recordable.lossless
  have keyBound := recordable.key
  have notNegative : ∀ n : Nat, ¬((n : Int) < 0) := fun n => by omega
  dsimp only at keyBound
  cases value with
  | none =>
      rw [encodeRecord, List.cons_append, List.append_assoc, replayStep]
      simp [readInt_append keyBound, takeBytes_append, back, notNegative]
  | some value =>
      have valueBound := recordable.value value rfl
      rw [encodeRecord, List.cons_append, List.append_assoc, List.append_assoc, List.append_assoc,
        replayStep]
      simp [readInt_append keyBound, readInt_append valueBound, takeBytes_append, back, notNegative]

/-- A length that breaks off cannot be read. -/
theorem readInt_take {n count : Nat} (bound : n < 2 ^ 31) (rest : Bytes) :
    readInt ((writeInt n ++ rest).take count) =
      if count < 4 then none else some ((n : Int), rest.take (count - 4)) := by
  split
  · rename_i short
    refine readInt_of_lt ?_
    rw [List.length_take]
    omega
  · rename_i long
    rw [List.take_append, length_writeInt, List.take_of_length_le (by simp; omega)]
    exact readInt_append bound _

theorem takeBytes_take (bytes : Bytes) (count : Nat) (rest : Bytes) :
    takeBytes bytes.length ((bytes ++ rest).take count) =
      if count < bytes.length then none else some (bytes, rest.take (count - bytes.length)) := by
  split
  · rename_i short
    refine takeBytes_of_lt ?_
    rw [List.length_take]
    omega
  · rename_i long
    rw [List.take_append, List.take_of_length_le (by omega)]
    exact takeBytes_append bytes _

theorem replayStep_torn {bytes : Bytes} (torn : Torn bytes) : replayStep bytes = .stop := by
  obtain ⟨⟨key, value⟩, count, recordable, short, rfl⟩ := torn
  have keyBound := recordable.key
  have notNegative : ∀ n : Nat, ¬((n : Int) < 0) := fun n => by omega
  dsimp only at keyBound
  cases count with
  | zero => rfl
  | succ count =>
      cases value with
      | none =>
          rw [encodeRecord, List.length_cons, List.length_append, length_writeInt] at short
          rw [encodeRecord, List.take_succ_cons, replayStep, readInt_take keyBound]
          by_cases noLength : count < 4
          · rw [if_pos noLength]
          · have taken := takeBytes_take (getBytes key) (count - 4) []
            rw [if_pos (by omega), List.append_nil] at taken
            simp only [if_neg noLength, if_neg (notNegative _), Int.toNat_natCast, taken]
      | some value =>
          have valueBound := recordable.value value rfl
          simp only [encodeRecord, List.length_cons, List.length_append, length_writeInt] at short
          rw [encodeRecord, List.take_succ_cons, List.append_assoc, replayStep,
            readInt_take keyBound]
          by_cases noLength : count < 4
          · rw [if_pos noLength]
          · have taken := takeBytes_take (getBytes key) (count - 4) (writeInt value.length ++ value)
            simp only [if_neg noLength, if_neg (notNegative _), Int.toNat_natCast, taken]
            by_cases noKey : count - 4 < (getBytes key).length
            · rw [if_pos noKey]
            · simp only [if_neg noKey, readInt_take valueBound]
              by_cases noValueLength : count - 4 - (getBytes key).length < 4
              · simp [noValueLength]
              · have takenValue := takeBytes_take value
                  (count - 4 - (getBytes key).length - 4) []
                rw [if_pos (by omega), List.append_nil] at takenValue
                simp only [if_neg noValueLength, if_neg (notNegative _), Int.toNat_natCast,
                  takenValue]
                rfl

theorem length_encodeRecord_pos (entry : Entry) : 0 < (encodeRecord entry).length := by
  obtain ⟨key, value⟩ := entry
  cases value <;> simp [encodeRecord]

theorem replayLoop_records {torn : Bytes} (isTorn : Torn torn) (records : List Entry) :
    (∀ entry ∈ records, Recordable entry) → ∀ fuel, records.length ≤ fuel →
      replayLoop fuel (encodeRecords records ++ torn) = some records := by
  induction records with
  | nil =>
      intro _ fuel _
      cases fuel with
      | zero => rfl
      | succ fuel =>
          have empty : encodeRecords [] ++ torn = torn := rfl
          rw [empty, replayLoop, replayStep_torn isTorn]
  | cons entry records induction =>
      intro recordable fuel enough
      obtain ⟨fuel, rfl⟩ : ∃ less, fuel = less + 1 := ⟨fuel - 1, by simp at enough; omega⟩
      have later := induction (fun other member => recordable other (List.mem_cons_of_mem _ member))
        fuel (by simpa using enough)
      have split : encodeRecords (entry :: records) ++ torn =
          encodeRecord entry ++ (encodeRecords records ++ torn) := by
        simp [encodeRecords]
      rw [split, replayLoop, replayStep_record (recordable entry List.mem_cons_self)]
      simp [later]

theorem length_le_encodeRecords (records : List Entry) :
    records.length ≤ (encodeRecords records).length := by
  induction records with
  | nil => simp
  | cons entry rest induction =>
      have positive := length_encodeRecord_pos entry
      simp only [encodeRecords, List.flatMap_cons, List.length_append, List.length_cons] at *
      omega

/-- Complete records are replayed, and what a crash left of one more is not. -/
theorem replay_records {records : List Entry} (recordable : ∀ entry ∈ records, Recordable entry)
    {torn : Bytes} (isTorn : Torn torn) :
    replay (encodeRecords records ++ torn) = some records := by
  refine replayLoop_records isTorn records recordable _ ?_
  have enough := length_le_encodeRecords records
  rw [List.length_append]
  omega

end WriteAheadLog

end FoundationsLab.Lsm
