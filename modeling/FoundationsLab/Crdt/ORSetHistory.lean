import FoundationsLab.Crdt.ORSet
import Mathlib.Data.Finset.Insert
import Mathlib.Data.Set.Insert

/-! # Causal histories of observed-remove sets

Replicas update their sets and merge states of each other, old ones too. The log
numbers the updates; a history is the set of updates that a state depends on. An
element is in the set when an addition of it was seen by no removal of it. -/

namespace FoundationsLab.Crdt

open Foundation
open Foundation.JavaString (ofAscii)

inductive Update (α : Type) where
  | add (element : α)
  | remove (element : α)

/-- An update, what its replica had seen before, and its clock afterwards. -/
structure Event (α : Type) where
  replica : JsString
  update : Update α
  seen : Finset Nat
  clock : Nat

/-- A state of a replica, and the updates that led to it. -/
structure Replica (α : Type) [LinearOrder α] where
  set : ORSet α
  history : Finset Nat

/-- All updates in order, the replicas by their ids, and every state that some
replica is in or was in. -/
structure World (α : Type) [LinearOrder α] where
  log : List (Event α)
  replicas : JsString → Replica α
  states : Set (Replica α)

variable {α : Type} [LinearOrder α]

namespace World

def initial : World α where
  log := []
  replicas id := ⟨.new id, ∅⟩
  states := { replica | ∃ id, replica = ⟨.new id, ∅⟩ }

/-- A replica goes to a new state. -/
def move (world : World α) (id : JsString) (next : Replica α) : World α :=
  { world with
    replicas := Function.update world.replicas id next
    states := insert next world.states }

def record (world : World α) (event : Event α) : World α :=
  { world with log := world.log ++ [event] }

/-- A replica updates its set, and the log has one more entry. -/
def update (world : World α) (id : JsString) (update : Update α) (set : ORSet α) : World α :=
  let old := world.replicas id
  (world.record ⟨id, update, old.history, set.clock⟩).move id
    ⟨set, insert world.log.length old.history⟩

def add (world : World α) (id : JsString) (element : α) : World α :=
  world.update id (.add element) ((world.replicas id).set.add element)

def remove (world : World α) (id : JsString) (element : α) : World α :=
  world.update id (.remove element) ((world.replicas id).set.remove element)

def merge (world : World α) (id : JsString) (other : Replica α) : World α :=
  let old := world.replicas id
  world.move id ⟨old.set.merge other.set, old.history ∪ other.history⟩

/-- What replicas can do. A merge takes any state that some replica ever had. -/
inductive Reachable : World α → Prop
  | initial : Reachable initial
  | add {world : World α} (reachable : Reachable world) (id : JsString) (element : α) :
      Reachable (world.add id element)
  | remove {world : World α} (reachable : Reachable world) (id : JsString) (element : α) :
      Reachable (world.remove id element)
  | merge {world : World α} (reachable : Reachable world) (id : JsString) (other : Replica α)
      (known : other ∈ world.states) : Reachable (world.merge id other)

end World

/-! ## What a history says -/

def AddedAt (log : List (Event α)) (i : Nat) (element : α) : Prop :=
  ∃ event, log[i]? = some event ∧ event.update = .add element

/-- The update `j` is a removal of the element that had seen `seen`. -/
def RemovedAt (log : List (Event α)) (j : Nat) (element : α) (seen : Finset Nat) : Prop :=
  ∃ event, log[j]? = some event ∧ event.update = .remove element ∧ event.seen = seen

/-- Add wins: some addition of the element was observed by no removal of it. -/
def Present (log : List (Event α)) (history : Finset Nat) (element : α) : Prop :=
  ∃ i ∈ history, AddedAt log i element ∧
    ∀ j ∈ history, ∀ seen, RemovedAt log j element seen → i ∉ seen

/-! ## The tags of a history -/

/-- The update `i` adds the element with this tag. -/
def TaggedAt (log : List (Event α)) (i : Nat) (element : α) (t : JsString) : Prop :=
  ∃ event, log[i]? = some event ∧ event.update = .add element ∧
    ORSet.tag event.replica event.clock = t

/-- The state of a replica says what its history says, in terms of tags. -/
structure Sound (log : List (Event α)) (replica : Replica α) : Prop where
  bounded : ∀ i ∈ replica.history, i < log.length
  tags : ∀ element t, t ∈ replica.set.tags element ↔
    ∃ i ∈ replica.history, TaggedAt log i element t
  removed : ∀ t, t ∈ replica.set.removed ↔ ∃ j ∈ replica.history, ∃ element seen,
    RemovedAt log j element seen ∧ ∃ i ∈ seen, TaggedAt log i element t

structure Consistent (world : World α) : Prop where
  current : ∀ id, world.replicas id ∈ world.states
  ids : ∀ id, (world.replicas id).set.replicaId = id
  sound : ∀ replica ∈ world.states, Sound world.log replica
  clocks : ∀ event ∈ world.log, event.clock ≤ (world.replicas event.replica).set.clock
  seen : ∀ event ∈ world.log, ∀ i ∈ event.seen, i < world.log.length
  /-- A tag is given once. -/
  unique : ∀ i j element element' t, TaggedAt world.log i element t →
    TaggedAt world.log j element' t → i = j

section Log

variable {α : Type} {log : List (Event α)} {event : Event α}

theorem getElem?_record {i : Nat} {found : Event α} :
    (log ++ [event])[i]? = some found ↔
      log[i]? = some found ∨ i = log.length ∧ event = found := by
  rcases Nat.lt_trichotomy i log.length with below | here | above
  · rw [List.getElem?_append_left below]
    exact ⟨.inl, fun either => either.resolve_right fun isNew => by omega⟩
  · rw [here, List.getElem?_concat_length, List.getElem?_eq_none le_rfl]
    simp
  · rw [List.getElem?_eq_none (by simp; omega), List.getElem?_eq_none (by omega)]
    simp
    omega

theorem taggedAt_record {i : Nat} {element : α} {t : JsString} :
    TaggedAt (log ++ [event]) i element t ↔ TaggedAt log i element t ∨
      i = log.length ∧ event.update = .add element ∧
        ORSet.tag event.replica event.clock = t := by
  constructor
  · rintro ⟨found, atIndex, isAdd, isTag⟩
    rcases getElem?_record.mp atIndex with isOld | ⟨isNew, rfl⟩
    · exact .inl ⟨found, isOld, isAdd, isTag⟩
    · exact .inr ⟨isNew, isAdd, isTag⟩
  · rintro (⟨found, atIndex, isAdd, isTag⟩ | ⟨isNew, isAdd, isTag⟩)
    · exact ⟨found, getElem?_record.mpr (.inl atIndex), isAdd, isTag⟩
    · exact ⟨event, getElem?_record.mpr (.inr ⟨isNew, rfl⟩), isAdd, isTag⟩

theorem removedAt_record {j : Nat} {element : α} {seen : Finset Nat} :
    RemovedAt (log ++ [event]) j element seen ↔ RemovedAt log j element seen ∨
      j = log.length ∧ event.update = .remove element ∧ event.seen = seen := by
  constructor
  · rintro ⟨found, atIndex, isRemove, isSeen⟩
    rcases getElem?_record.mp atIndex with isOld | ⟨isNew, rfl⟩
    · exact .inl ⟨found, isOld, isRemove, isSeen⟩
    · exact .inr ⟨isNew, isRemove, isSeen⟩
  · rintro (⟨found, atIndex, isRemove, isSeen⟩ | ⟨isNew, isRemove, isSeen⟩)
    · exact ⟨found, getElem?_record.mpr (.inl atIndex), isRemove, isSeen⟩
    · exact ⟨event, getElem?_record.mpr (.inr ⟨isNew, rfl⟩), isRemove, isSeen⟩

theorem TaggedAt.lt {i : Nat} {element : α} {t : JsString} (tagged : TaggedAt log i element t) :
    i < log.length := by
  obtain ⟨found, atIndex, -⟩ := tagged
  exact (List.getElem?_eq_some_iff.mp atIndex).1

theorem RemovedAt.mem {j : Nat} {element : α} {seen : Finset Nat}
    (removed : RemovedAt log j element seen) : ∃ event ∈ log, event.seen = seen := by
  obtain ⟨found, atIndex, -, isSeen⟩ := removed
  exact ⟨found, List.mem_of_getElem? atIndex, isSeen⟩

/-- Below the end of the log a new update does not change what is tagged. -/
theorem taggedAt_of_lt {i : Nat} {element : α} {t : JsString} (below : i < log.length) :
    TaggedAt (log ++ [event]) i element t ↔ TaggedAt log i element t := by
  rw [taggedAt_record]
  exact or_iff_left fun isNew => by omega

theorem removedAt_of_lt {j : Nat} {element : α} {seen : Finset Nat} (below : j < log.length) :
    RemovedAt (log ++ [event]) j element seen ↔ RemovedAt log j element seen := by
  rw [removedAt_record]
  exact or_iff_left fun isNew => by omega

/-- What a state says does not change when the log grows. -/
theorem Sound.record [LinearOrder α] {replica : Replica α} (sound : Sound log replica)
    (seen : ∀ event ∈ log, ∀ i ∈ event.seen, i < log.length) :
    Sound (log ++ [event]) replica := by
  constructor
  · intro i member
    have below := sound.bounded i member
    rw [List.length_append]
    omega
  · intro element t
    rw [sound.tags]
    refine exists_congr fun i => and_congr_right fun member => ?_
    exact (taggedAt_of_lt (sound.bounded i member)).symm
  · intro t
    rw [sound.removed]
    refine exists_congr fun j => and_congr_right fun member => exists_congr fun element =>
      exists_congr fun observed => ?_
    rw [removedAt_of_lt (sound.bounded j member)]
    refine and_congr_right fun isRemoved => exists_congr fun i => and_congr_right fun isSeen => ?_
    obtain ⟨old, isOld, rfl⟩ := isRemoved.mem
    exact (taggedAt_of_lt (seen old isOld i isSeen)).symm

end Log

/-! ## Steps -/

section Steps

variable {world : World α}

theorem Consistent.initial : Consistent (World.initial : World α) := by
  constructor
  · exact fun id => ⟨id, rfl⟩
  · exact fun _ => rfl
  · rintro replica ⟨id, rfl⟩
    refine ⟨by simp, fun element t => ?_, fun t => ?_⟩
    · simp [ORSet.tags, ORSet.new]
    · simp [ORSet.new]
  · exact fun event member => absurd member List.not_mem_nil
  · exact fun event member => absurd member List.not_mem_nil
  · rintro i j element element' t ⟨event, atIndex, -⟩
    simp [World.initial] at atIndex

theorem move_replicas (id : JsString) (next : Replica α) (other : JsString) :
    (world.move id next).replicas other = if other = id then next else world.replicas other := by
  by_cases same : other = id
  · rw [if_pos same, same]
    exact Function.update_self ..
  · rw [if_neg same]
    exact Function.update_of_ne same ..

/-- A replica may go to a sound state when its clock does not go back and the log
stays in order. -/
theorem Consistent.move (consistent : Consistent world) {id : JsString} {next : Replica α}
    {log : List (Event α)} (grown : ∀ replica ∈ world.states, Sound log replica)
    (sound : Sound log next) (isId : next.set.replicaId = id)
    (clock : (world.replicas id).set.clock ≤ next.set.clock)
    (clocks : ∀ event ∈ log, event ∈ world.log ∨
      event.replica = id ∧ event.clock ≤ next.set.clock)
    (seen : ∀ event ∈ log, ∀ i ∈ event.seen, i < log.length)
    (unique : ∀ i j element element' t, TaggedAt log i element t →
      TaggedAt log j element' t → i = j) :
    Consistent ({ world with log := log }.move id next) := by
  refine ⟨fun other => ?_, fun other => ?_, ?_, fun event member => ?_, seen, unique⟩
  · rw [move_replicas]
    split
    · exact Set.mem_insert _ _
    · exact Set.mem_insert_of_mem _ (consistent.current other)
  · rw [move_replicas]
    split
    · rename_i same
      rw [same, isId]
    · exact consistent.ids other
  · rintro replica (rfl | isOld)
    · exact sound
    · exact grown replica isOld
  · rw [move_replicas]
    rcases clocks event member with isOld | ⟨same, bound⟩
    · have old := consistent.clocks event isOld
      split
      · rename_i same
        rw [same] at old
        exact old.trans clock
      · exact old
    · rw [if_pos same]
      exact bound

/-- A replica may update its set when the tag, if it adds, is new. -/
theorem Consistent.update (consistent : Consistent world) {id : JsString} {update : Update α}
    {set : ORSet α} {event : Event α}
    (isEvent : event = ⟨id, update, (world.replicas id).history, set.clock⟩)
    (sound : Sound (world.log ++ [event])
      ⟨set, insert world.log.length (world.replicas id).history⟩)
    (isId : set.replicaId = id) (clock : (world.replicas id).set.clock ≤ set.clock)
    (fresh : ∀ element i other, update = .add element →
      ¬ TaggedAt world.log i other (ORSet.tag id set.clock)) :
    Consistent (world.update id update set) := by
  subst isEvent
  have length : ∀ event, (world.log ++ [event]).length = world.log.length + 1 :=
    fun _ => List.length_append
  refine consistent.move
    (fun replica isState => (consistent.sound replica isState).record consistent.seen) sound isId
    clock (fun other member => ?_) (fun other member i isSeen => ?_) ?_
  · rcases List.mem_append.mp member with isOld | isNew
    · exact .inl isOld
    · obtain rfl := List.mem_singleton.mp isNew
      exact .inr ⟨rfl, le_rfl⟩
  · rw [length]
    rcases List.mem_append.mp member with isOld | isNew
    · exact (consistent.seen other isOld i isSeen).trans (Nat.lt_succ_self _)
    · rw [List.mem_singleton.mp isNew] at isSeen
      exact ((consistent.sound _ (consistent.current _)).bounded i isSeen).trans (Nat.lt_succ_self _)
  · intro i j element element' t first second
    rcases taggedAt_record.mp first with isOld | ⟨isNew, isAdd, isTag⟩
    · rcases taggedAt_record.mp second with isOld' | ⟨isNew', isAdd', isTag'⟩
      · exact consistent.unique i j element element' t isOld isOld'
      · exact absurd (isTag' ▸ isOld) (fresh element' i element isAdd')
    · rcases taggedAt_record.mp second with isOld' | ⟨isNew', isAdd', isTag'⟩
      · exact absurd (isTag ▸ isOld') (fresh element j element' isAdd)
      · exact isNew.trans isNew'.symm

/-- The clock has passed all the tags of the replica. -/
theorem Consistent.fresh (consistent : Consistent world) (id : JsString) {clock i : Nat} {other : α}
    (later : (world.replicas id).set.clock < clock) :
    ¬ TaggedAt world.log i other (ORSet.tag id clock) := by
  rintro ⟨event, atIndex, -, isTag⟩
  obtain ⟨isReplica, isClock⟩ := ORSet.tag_injective isTag
  have bound := consistent.clocks event (List.mem_of_getElem? atIndex)
  rw [isReplica, isClock] at bound
  omega

end Steps

end FoundationsLab.Crdt
