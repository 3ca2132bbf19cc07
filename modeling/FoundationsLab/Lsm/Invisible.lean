import FoundationsLab.Lsm.FailedWrites

/-! # What readers do not see

`flush`, `compact` and a crash between two calls move entries from one place to
another. The answers of `get` stay as they are, as long as every key that was written
comes back from its bytes and the log is whole. -/

namespace FoundationsLab.Lsm

open Foundation
open Foundation.JavaString
open Foundation.Directory
open WriteAheadLog

/-- `get` returns, and what it returned before. -/
def GetsAgree (before after : LsmTree) : Prop :=
  ∀ key, (before.get key).isSome ∧ after.get key = before.get key

/-! ## Runs of calls and crashes -/

/-- A call, which may throw, or a crash with `count` bytes of a record in the log. -/
inductive Move where
  | call (call : Call)
  | crash (entry : Entry) (count : Nat)

namespace Move

/-- The event that a move is, unless it is a call that throws. -/
def event : Move → Option Event
  | .call given => given.op.map .call
  | .crash entry count => some (.crash entry count)

/-- The keys come back from their bytes, and no call throws in the middle of a record. -/
def Sound : Move → Prop
  | .call given => given.Whole
  | .crash entry _ => Recordable entry

end Move

namespace Store

def move (sizing : Sizing) (store : Store) : Move → Store
  | .call call =>
      { tree := (store.tree.call sizing call).1
        tail := (call.op.map store.tailAfter).getD store.tail }
  | .crash entry count => (store.step sizing (.crash entry count)).1

def moves (sizing : Sizing) (store : Store) (list : List Move) : Store :=
  list.foldl (move sizing) store

/-- No crash of the run buries a part of a record. -/
def OrderlyMoves (sizing : Sizing) : Store → List Move → Prop
  | _, [] => True
  | store, move :: rest =>
      move.event.elim True (Orderly store) ∧ OrderlyMoves sizing (store.move sizing move) rest

end Store

section

variable {sizing : Sizing} {store : Store} {map : SortedMap JavaString Bytes}

theorem move_without_event (sizing : Sizing) (store : Store) {move : Move} (sound : move.Sound)
    (isNone : move.event = none) : store.move sizing move = store := by
  cases move with
  | crash entry count => exact absurd isNone (by simp [Move.event])
  | call call =>
      have noOp : call.op = none := by simpa [Move.event] using isNone
      rw [Store.move, call_without_op sizing _ noOp sound.hasValue, noOp]
      rfl

theorem move_of_event (sizing : Sizing) (store : Store) {move : Move} {event : Event}
    (isEvent : move.event = some event) :
    store.move sizing move = (store.step sizing event).1 := by
  cases move with
  | crash entry count =>
      obtain rfl := Option.some.inj isEvent
      rfl
  | call call =>
      obtain ⟨op, isOp, rfl⟩ := Option.map_eq_some_iff.mp isEvent
      rw [Store.move, call_of_op sizing _ isOp, isOp]
      rfl

/-- The moves of a run do what its events do. -/
theorem moves_eq (sizing : Sizing) (list : List Move) (sound : ∀ move ∈ list, move.Sound)
    (store : Store) (orderly : Store.OrderlyMoves sizing store list) :
    store.moves sizing list = (store.run sizing (list.filterMap Move.event)).1 ∧
      OrderlyRun sizing store (list.filterMap Move.event) := by
  induction list generalizing store with
  | nil => exact ⟨rfl, trivial⟩
  | cons move rest induction =>
      have later := induction (fun other member => sound other (List.mem_cons_of_mem _ member))
        (store.move sizing move) orderly.2
      rw [Store.moves, List.foldl_cons]
      have here := orderly.1
      cases isEvent : move.event with
      | none =>
          rw [List.filterMap_cons_none isEvent]
          rw [move_without_event sizing store (sound move List.mem_cons_self) isEvent] at later ⊢
          exact later
      | some event =>
          rw [List.filterMap_cons_some isEvent, Store.run_cons]
          rw [move_of_event sizing store isEvent] at later ⊢
          rw [isEvent] at here
          exact ⟨later.1, here, later.2⟩

theorem event_recordable {list : List Move} (sound : ∀ move ∈ list, move.Sound) :
    ∀ event ∈ list.filterMap Move.event, ∀ entry, event.entry = some entry → Recordable entry := by
  intro event member entry isEntry
  obtain ⟨move, isMove, isEvent⟩ := List.mem_filterMap.mp member
  have isSound := sound move isMove
  cases move with
  | crash entry' count =>
      obtain rfl := Option.some.inj isEvent
      obtain rfl := Option.some.inj isEntry
      exact isSound
  | call call =>
      obtain ⟨op, isOp, rfl⟩ := Option.map_eq_some_iff.mp isEvent
      exact isSound.lossless op isOp entry isEntry

theorem moves_kept {list : List Move} (sound : ∀ move ∈ list, move.Sound)
    (kept : Kept sizing store map) (orderly : Store.OrderlyMoves sizing store list)
    (fits : Fits (store.moves sizing list).tree.disk) :
    ∃ map', Kept sizing (store.moves sizing list) map' := by
  obtain ⟨same, isOrderly⟩ := moves_eq sizing list sound store orderly
  rw [same] at fits ⊢
  obtain ⟨-, kept'⟩ := run_kept kept _ (event_recordable sound) fits isOrderly
  exact ⟨_, kept'⟩

/-! ## The three moves of entries -/

theorem Kept.getsAgree {after : LsmTree} (kept : Kept sizing store map)
    (answers : ∀ key, after.get key = some (map.get key)) : GetsAgree store.tree after := by
  intro key
  rw [answers key, kept.mended.get key]
  exact ⟨rfl, rfl⟩

theorem Kept.call_invisible (kept : Kept sizing store map) {op : Op} (isOther : op.entry = none)
    (fits : Fits (store.tree.step sizing op).1.disk) :
    GetsAgree store.tree (store.tree.step sizing op).1 := by
  have noEntry : op.Lossless := fun entry isEntry => by
    rw [isOther] at isEntry
    exact absurd isEntry (by simp)
  have same : op.apply map = map := by
    cases op <;> first | rfl | exact absurd isOther (by simp [Op.entry])
  obtain ⟨-, kept'⟩ := call_kept kept op noEntry fits
  rw [same] at kept'
  exact kept.getsAgree kept'.mended.get

theorem Kept.crash_invisible (kept : Kept sizing store map) (inOrder : store.tail ≠ .buried) :
    ∃ next, store.tree.reopen store.tree.disk = some next ∧ GetsAgree store.tree next := by
  have opens {torn : Bytes} (serves : Serves sizing store.tree map torn) :
      ∃ next, store.tree.reopen store.tree.disk = some next ∧ GetsAgree store.tree next := by
    obtain ⟨next, isNext, serves'⟩ := reopen_serves serves
    exact ⟨next, isNext, kept.getsAgree serves'.get⟩
  cases kept with
  | whole serves => exact opens serves
  | torn serves => exact opens serves
  | buried => exact absurd rfl inOrder

end

/-- In a run that writes only keys that come back from their bytes, that has no put of
`null` under a key and that buries no part of a record, a flush, a compaction and a crash
change no answer. -/
theorem moves_invisible (sizing : Sizing) (memtableLimitBytes compactionThreshold : Int)
    (list : List Move) (sound : ∀ move ∈ list, move.Sound)
    (orderly : Store.OrderlyMoves sizing
      (Store.create memtableLimitBytes compactionThreshold) list)
    (store : Store)
    (reached : store = (Store.create memtableLimitBytes compactionThreshold).moves sizing list)
    (fitsFlush : Fits (store.tree.flush sizing).1.disk)
    (fitsCompact : Fits (store.tree.compact sizing).1.disk) :
    GetsAgree store.tree (store.tree.flush sizing).1 ∧
      GetsAgree store.tree (store.tree.compact sizing).1 ∧
      (store.tail ≠ .buried → ∃ next, store.tree.reopen store.tree.disk = some next ∧
        GetsAgree store.tree next) := by
  have fits : Fits store.tree.disk := fitsFlush.of_prefix (flush_grows sizing store.tree)
  rw [reached] at fits
  obtain ⟨map, kept⟩ := moves_kept sound
    (.whole (create_serves sizing memtableLimitBytes compactionThreshold)) orderly fits
  change Kept sizing ((Store.create memtableLimitBytes compactionThreshold).moves sizing list)
    map at kept
  rw [← reached] at kept
  refine ⟨?_, ?_, kept.crash_invisible⟩
  · exact @Kept.call_invisible _ _ _ kept .flush rfl fitsFlush
  · exact @Kept.call_invisible _ _ _ kept .compact rfl fitsCompact

/-- Two tables, a memtable, a call that throws and a part of a record. -/
def visibleMoves : List Move :=
  [.call (.put (some (ofAscii ['a'])) (some [1])), .call .flush,
    .call (.putString (some [0xD83D, 0xDE00]) (some (ofAscii ['v']))), .call (.put none none),
    .call .flush, .call (.delete (some (ofAscii ['a']))), .crash (ofAscii ['b'], some [2]) 3]

theorem visibleMoves_sound : ∀ move ∈ visibleMoves, move.Sound := by
  intro move member
  simp only [visibleMoves, List.mem_cons, List.not_mem_nil, or_false] at member
  rcases member with rfl | rfl | rfl | rfl | rfl | rfl | rfl
  case inr.inr.inr.inr.inr.inr => exact ⟨by decide, by decide, by simp⟩
  all_goals
    refine ⟨fun key same => by simp at same, fun op isOp entry isEntry => ?_⟩
    simp [Call.op] at isOp
  all_goals
    subst isOp
    simp [Op.entry] at isEntry
  all_goals
    subst isEntry
    exact ⟨by decide, by decide, by simp; try decide⟩

theorem moves_invisible_mixed :
    let tree := ((Store.create 1000 4).moves onePercent visibleMoves).tree
    GetsAgree tree (tree.flush onePercent).1 ∧ GetsAgree tree (tree.compact onePercent).1 ∧
      (((Store.create 1000 4).moves onePercent visibleMoves).tail ≠ .buried →
        ∃ next, tree.reopen tree.disk = some next ∧ GetsAgree tree next) :=
  moves_invisible onePercent 1000 4 visibleMoves visibleMoves_sound
    ⟨trivial, trivial, trivial, trivial, trivial, trivial, show _ ≠ _ by decide +kernel, trivial⟩
    _ rfl (.of_short (by decide +kernel)) (.of_short (by decide +kernel))

/-- The store after a put under a key that is one half of a surrogate pair. -/
def halfPair : LsmTree := ((LsmTree.create 1000 4).put onePercent [0xD800] (some [1])).1

/-- The key is found in the memtable, and is not found once it was written as bytes. -/
theorem unpaired_key_is_lost :
    ¬ GetsAgree halfPair (halfPair.flush onePercent).1 ∧
      ¬ ∃ next, halfPair.reopen halfPair.disk = some next ∧ GetsAgree halfPair next := by
  have before : halfPair.get [0xD800] = some (some [1]) := by decide +kernel
  constructor
  · intro same
    have after : (halfPair.flush onePercent).1.get [0xD800] = some none := by decide +kernel
    have answers := (same [0xD800]).2
    rw [before, after] at answers
    exact absurd answers (by decide)
  · rintro ⟨next, opens, same⟩
    have after : (halfPair.reopen halfPair.disk).bind (·.get [0xD800]) = some none := by
      decide +kernel
    have answers := (same [0xD800]).2
    rw [opens, Option.bind_some] at after
    rw [before, after] at answers
    exact absurd answers (by decide)

end FoundationsLab.Lsm
