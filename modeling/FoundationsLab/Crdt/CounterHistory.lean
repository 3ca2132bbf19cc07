import FoundationsLab.Crdt.Counters
import Mathlib.Algebra.BigOperators.Group.Finset.Piecewise
import Mathlib.Algebra.Order.BigOperators.Group.Finset
import Mathlib.Data.Set.Insert

/-! # Causal histories of counters

Replicas with different ids count up and down and merge states of each other, old ones
too. The log numbers the updates; a history is the set of updates that a state depends
on. Of the updates of one replica a history holds the first ones. -/

namespace FoundationsLab.Crdt.Counting

inductive Kind where
  | increment
  | decrement
  deriving DecidableEq

structure Event where
  replica : JsString
  kind : Kind
  amount : Nat

/-- A state of a replica, and the updates that led to it. -/
structure Replica where
  counter : PNCounter
  history : Finset Nat

structure World where
  log : List Event
  replicas : JsString → Replica
  states : Set Replica

/-- The method of the counter that makes an update. -/
def apply (counter : PNCounter) : Kind → JsNumber → Except String PNCounter
  | .increment => counter.increment
  | .decrement => counter.decrement

namespace World

def initial : World where
  log := []
  replicas id := ⟨.new id, ∅⟩
  states := { replica | ∃ id, replica = ⟨.new id, ∅⟩ }

def move (world : World) (id : JsString) (next : Replica) : World :=
  { world with
    replicas := Function.update world.replicas id next
    states := insert next world.states }

def update (world : World) (event : Event) (counter : PNCounter) : World :=
  { world with log := world.log ++ [event] }.move event.replica
    ⟨counter, insert world.log.length (world.replicas event.replica).history⟩

def merge (world : World) (id : JsString) (other : Replica) : World :=
  let old := world.replicas id
  world.move id ⟨old.counter.merge other.counter, old.history ∪ other.history⟩

/-- What replicas can do. An amount is any natural number that is a JavaScript number; a
merge takes any state that some replica ever had. -/
inductive Reachable : World → Prop
  | initial : Reachable initial
  | update {world : World} (reachable : Reachable world) (event : Event) (counter : PNCounter)
      (isNumber : JsNumber.ofInt event.amount = .integer event.amount)
      (applied : apply (world.replicas event.replica).counter event.kind (.ofInt event.amount) =
        .ok counter) :
      Reachable (world.update event counter)
  | merge {world : World} (reachable : Reachable world) (id : JsString) (other : Replica)
      (known : other ∈ world.states) : Reachable (world.merge id other)

end World

/-! ## What a history says -/

/-- What an update adds to the counts of a kind. -/
def share (log : List Event) (kind : Kind) (i : Nat) : Nat :=
  match log[i]? with
  | some event => if event.kind = kind then event.amount else 0
  | none => 0

/-- The sum of all increments, or decrements, of a history. -/
def amount (log : List Event) (kind : Kind) (history : Finset Nat) : Nat :=
  ∑ i ∈ history, share log kind i

/-- The sum over the whole log. -/
def total (log : List Event) (kind : Kind) : Nat := amount log kind (Finset.range log.length)

def origin (log : List Event) (i : Nat) : Option JsString := (log[i]?).map Event.replica

/-- The part of a history's sum that one replica made. -/
def tally (log : List Event) (kind : Kind) (history : Finset Nat) (id : JsString) : Nat :=
  ∑ i ∈ history, if origin log i = some id then share log kind i else 0

/-- A history holds the first updates of each replica. -/
structure Causal (log : List Event) (history : Finset Nat) : Prop where
  bounded : ∀ i ∈ history, i < log.length
  earlier : ∀ i ∈ history, ∀ j < i, origin log j = origin log i → j ∈ history

/-- A counter says what its history says, replica by replica. -/
structure Sound (log : List Event) (kind : Kind) (history : Finset Nat) (counter : GCounter) :
    Prop where
  counts : ∀ id, GCounter.countIn counter.counts id = .integer (tally log kind history id)
  keys : ∀ i ∈ history, share log kind i ≠ 0 →
    ∃ id ∈ counter.counts.keys, origin log i = some id

variable {log : List Event} {kind : Kind} {history other : Finset Nat} {id : JsString}

theorem tally_mono (inside : ∀ i ∈ history, origin log i = some id → i ∈ other) :
    tally log kind history id ≤ tally log kind other id := by
  rw [tally, tally, ← Finset.sum_filter, ← Finset.sum_filter]
  apply Finset.sum_le_sum_of_subset
  intro i member
  obtain ⟨isMember, isOrigin⟩ := Finset.mem_filter.mp member
  exact Finset.mem_filter.mpr ⟨inside i isMember isOrigin, isOrigin⟩

theorem tally_le_amount (log : List Event) (kind : Kind) (history : Finset Nat) (id : JsString) :
    tally log kind history id ≤ amount log kind history := by
  apply Finset.sum_le_sum
  intro i _
  split
  · exact Nat.le_refl _
  · exact Nat.zero_le _

theorem amount_le_total (causal : Causal log history) : amount log kind history ≤ total log kind := by
  rw [total, amount, amount]
  apply Finset.sum_le_sum_of_subset
  intro i member
  exact Finset.mem_range.mpr (causal.bounded i member)

/-- Of two histories one has seen all that the other has seen of a replica. -/
theorem Causal.comparable (causal : Causal log history) (causal' : Causal log other)
    (id : JsString) :
    (∀ i ∈ history, origin log i = some id → i ∈ other) ∨
      ∀ i ∈ other, origin log i = some id → i ∈ history := by
  by_contra neither
  push Not at neither
  obtain ⟨⟨i, isLeft, isOrigin, notRight⟩, j, isRight, isOrigin', notLeft⟩ := neither
  have same : origin log i = origin log j := isOrigin.trans isOrigin'.symm
  rcases Nat.lt_trichotomy i j with less | rfl | less
  · exact notRight (causal'.earlier j isRight i less same)
  · exact notRight isRight
  · exact notLeft (causal.earlier i isLeft j less same.symm)

theorem Causal.union (causal : Causal log history) (causal' : Causal log other) :
    Causal log (history ∪ other) where
  bounded i member := by
    rcases Finset.mem_union.mp member with left | right
    · exact causal.bounded i left
    · exact causal'.bounded i right
  earlier i member j less same := by
    rcases Finset.mem_union.mp member with left | right
    · exact Finset.mem_union_left _ (causal.earlier i left j less same)
    · exact Finset.mem_union_right _ (causal'.earlier i right j less same)

/-- What two states know of a replica together, the one that knows more knows alone. -/
theorem tally_union (causal : Causal log history) (causal' : Causal log other) (id : JsString) :
    tally log kind (history ∪ other) id =
      max (tally log kind history id) (tally log kind other id) := by
  have whole : ∀ {left right : Finset Nat},
      (∀ i ∈ left, origin log i = some id → i ∈ right) →
        tally log kind (left ∪ right) id = tally log kind right id := by
    intro left right inside
    apply Nat.le_antisymm
    · apply tally_mono
      intro i member isOrigin
      rcases Finset.mem_union.mp member with isLeft | isRight
      · exact inside i isLeft isOrigin
      · exact isRight
    · exact tally_mono fun i member _ => Finset.mem_union_right _ member
  rcases causal.comparable causal' id with inside | inside
  · rw [whole inside, max_eq_right (tally_mono inside)]
  · rw [Finset.union_comm, whole inside, max_eq_left (tally_mono inside)]

/-! ## The value of a counter -/

theorem Sound.merge {counter counter' : GCounter} (sound : Sound log kind history counter)
    (sound' : Sound log kind other counter') (causal : Causal log history)
    (causal' : Causal log other) :
    Sound log kind (history ∪ other) (counter.merge counter') where
  counts id := by
    have isOther := sound'.counts id
    rw [GCounter.countIn_merge, tally_union causal causal', sound.counts id]
    rw [GCounter.countIn] at isOther
    cases found : counter'.counts.get id with
    | none =>
        rw [found, Option.getD_none, JsNumber.integer.injEq] at isOther
        have isZero : tally log kind other id = 0 := by omega
        rw [isZero, Nat.max_zero]
    | some count =>
        rw [found, Option.getD_some] at isOther
        dsimp only
        rw [isOther, JsNumber.max_integer, Nat.cast_max]
  keys i member notZero := by
    have keys : ∀ id, id ∈ (counter.merge counter').counts.keys ↔
        id ∈ counter.counts.keys ∨ id ∈ counter'.counts.keys :=
      fun id => GCounter.keys_mergeCounts _ _ id
    rcases Finset.mem_union.mp member with left | right
    · obtain ⟨id, isKey, isOrigin⟩ := sound.keys i left notZero
      exact ⟨id, (keys id).mpr (Or.inl isKey), isOrigin⟩
    · obtain ⟨id, isKey, isOrigin⟩ := sound'.keys i right notZero
      exact ⟨id, (keys id).mpr (Or.inr isKey), isOrigin⟩

/-- The tallies of all replicas add up to the sum of the history. -/
theorem sum_tally (keys : List JsString)
    (covered : ∀ i ∈ history, share log kind i ≠ 0 → ∃ id ∈ keys, origin log i = some id) :
    ∑ id ∈ keys.toFinset, tally log kind history id = amount log kind history := by
  simp only [tally]
  rw [Finset.sum_comm]
  apply Finset.sum_congr rfl
  intro i member
  by_cases isZero : share log kind i = 0
  · simp [isZero]
  · obtain ⟨id, isKey, isOrigin⟩ := covered i member isZero
    rw [isOrigin]
    simp [isKey]

theorem Sound.value {counter : GCounter} (sound : Sound log kind history counter)
    (small : amount log kind history ≤ 2 ^ 53) :
    counter.value = .integer (amount log kind history) := by
  have counted : ∀ id count, counter.counts.get id = some count →
      count = .integer (tally log kind history id) := by
    intro id count found
    have isCount := sound.counts id
    rwa [GCounter.countIn, found, Option.getD_some] at isCount
  have isSum : (counter.counts.values.map GCounter.natural).sum = amount log kind history := by
    rw [← sum_tally counter.counts.keys sound.keys]
    apply InsertionMap.sum_values
    intro id count found
    rw [counted id count found]
    rfl
  have naturals : ∀ count ∈ counter.counts.values, count = .integer (GCounter.natural count) := by
    intro count member
    obtain ⟨entry, isEntry, rfl⟩ := List.mem_map.mp member
    rw [counted entry.1 entry.2 (counter.counts.get_of_mem isEntry)]
    rfl
  have exact := GCounter.foldl_add counter.counts.values 0 naturals (by omega)
  rwa [Nat.zero_add, isSum] at exact

/-! ## One more update -/

variable {event : Event}

theorem share_append (isOld : ∀ i ∈ history, i < log.length) {i : Nat} (member : i ∈ history) :
    share (log ++ [event]) kind i = share log kind i ∧
      origin (log ++ [event]) i = origin log i := by
  rw [share, share, origin, origin, List.getElem?_append_left (isOld i member)]
  exact ⟨rfl, rfl⟩

theorem share_last : share (log ++ [event]) kind log.length =
    if event.kind = kind then event.amount else 0 := by
  simp [share]

theorem origin_last : origin (log ++ [event]) log.length = some event.replica := by
  simp [origin]

theorem tally_append (isOld : ∀ i ∈ history, i < log.length) (id : JsString) :
    tally (log ++ [event]) kind history id = tally log kind history id := by
  apply Finset.sum_congr rfl
  intro i member
  obtain ⟨sameShare, sameOrigin⟩ := share_append isOld member
  rw [sameShare, sameOrigin]

theorem amount_append (isOld : ∀ i ∈ history, i < log.length) :
    amount (log ++ [event]) kind history = amount log kind history :=
  Finset.sum_congr rfl fun _ member => (share_append isOld member).1

theorem total_append : total (log ++ [event]) kind =
    total log kind + if event.kind = kind then event.amount else 0 := by
  rw [total, List.length_append, List.length_singleton, amount, Finset.sum_range_succ, share_last]
  rw [← amount, amount_append fun i member => Finset.mem_range.mp member]
  rfl

theorem Causal.append (causal : Causal log history) : Causal (log ++ [event]) history where
  bounded i member := by
    have isOld := causal.bounded i member
    rw [List.length_append]
    omega
  earlier i member j less same := by
    have isOld := causal.bounded i member
    refine causal.earlier i member j less ?_
    rwa [origin, origin, List.getElem?_append_left isOld,
      List.getElem?_append_left (less.trans isOld)] at same

theorem Sound.append {counter : GCounter} (sound : Sound log kind history counter)
    (causal : Causal log history) : Sound (log ++ [event]) kind history counter where
  counts id := by rw [tally_append causal.bounded, sound.counts]
  keys i member notZero := by
    obtain ⟨sameShare, sameOrigin⟩ : share (log ++ [event]) kind i = share log kind i ∧ _ :=
      share_append causal.bounded member
    rw [sameOrigin]
    exact sound.keys i member (sameShare ▸ notZero)

/-- The history of a replica that has seen all its own updates takes one more of them. -/
theorem Causal.insert (causal : Causal log history)
    (own : ∀ i, origin log i = some event.replica → i ∈ history) :
    Causal (log ++ [event]) (insert log.length history) where
  bounded i member := by
    rw [List.length_append, List.length_singleton]
    rcases Finset.mem_insert.mp member with rfl | isOld
    · omega
    · have := causal.bounded i isOld
      omega
  earlier i member j less same := by
    apply Finset.mem_insert_of_mem
    rcases Finset.mem_insert.mp member with rfl | isOld
    · rw [origin_last, origin, List.getElem?_append_left less] at same
      exact own j same
    · have appended : Causal (log ++ [event]) history := causal.append
      exact appended.earlier i isOld j less same

theorem tally_insert (causal : Causal log history) (id : JsString) :
    tally (log ++ [event]) kind (insert log.length history) id =
      (if event.replica = id ∧ event.kind = kind then event.amount else 0) +
        tally log kind history id := by
  have notMember : log.length ∉ history := fun member => Nat.lt_irrefl _ (causal.bounded _ member)
  have isLast : (if origin (log ++ [event]) log.length = some id then
      share (log ++ [event]) kind log.length else 0) =
        if event.replica = id ∧ event.kind = kind then event.amount else 0 := by
    simp only [origin_last, share_last, Option.some.injEq]
    by_cases same : event.replica = id
    · simp [same]
    · simp [same]
  rw [tally, Finset.sum_insert notMember, isLast, ← tally, tally_append causal.bounded]

/-- An update of the other kind changes neither the counter nor its tallies. -/
theorem Sound.otherKind {counter : GCounter} (sound : Sound log kind history counter)
    (causal : Causal log history) (different : event.kind ≠ kind) :
    Sound (log ++ [event]) kind (insert log.length history) counter where
  counts id := by
    have notLast : ¬ (event.replica = id ∧ event.kind = kind) := fun same => different same.2
    rw [sound.counts, tally_insert causal, if_neg notLast, Nat.zero_add]
  keys i member notZero := by
    rcases Finset.mem_insert.mp member with rfl | isOld
    · rw [share_last, if_neg different] at notZero
      exact absurd rfl notZero
    · exact (sound.append causal).keys i isOld notZero

/-- Up to `2 ^ 53` an increment adds its amount to the count of its replica. -/
theorem Sound.increment {counter counter' : GCounter} (sound : Sound log kind history counter)
    (causal : Causal log history) (isKind : event.kind = kind)
    (owner : counter.replicaId = event.replica)
    (small : total (log ++ [event]) kind ≤ 2 ^ 53)
    (incremented : counter.increment (.ofInt event.amount) = .ok counter') :
    Sound (log ++ [event]) kind (insert log.length history) counter' := by
  rw [total_append, if_pos isKind] at small
  have below : tally log kind history event.replica ≤ total log kind :=
    (tally_le_amount log kind history event.replica).trans (amount_le_total causal)
  have isAmount : JsNumber.ofInt event.amount = .integer event.amount :=
    JsNumber.ofInt_of_small (by omega)
  have isSum : (GCounter.countIn counter.counts event.replica).add (.ofInt event.amount) =
      .integer (tally log kind history event.replica + event.amount : Nat) := by
    rw [sound.counts, isAmount, JsNumber.add_of_small (by omega), Nat.cast_add]
  let counts := counter.counts.set event.replica
    (.integer (tally log kind history event.replica + event.amount : Nat))
  have isCounter : counter' = { counter with counts := counts } := by
    rw [GCounter.increment] at incremented
    split at incremented
    · cases incremented
    · rw [owner, isSum] at incremented
      rw [← Except.ok.inj incremented, owner]
  subst isCounter
  refine ⟨fun id => ?_, fun i member notZero => ?_⟩
  · change GCounter.countIn counts id = _
    rw [GCounter.countIn_set, tally_insert causal]
    by_cases same : id = event.replica
    · rw [if_pos same, if_pos ⟨same.symm, isKind⟩, same, Nat.add_comm]
    · have notLast : ¬ (event.replica = id ∧ event.kind = kind) := fun equal => same equal.1.symm
      rw [if_neg same, if_neg notLast, Nat.zero_add, sound.counts]
  · have keys := counter.counts.keys_set event.replica
      (.integer (tally log kind history event.replica + event.amount : Nat))
    rcases Finset.mem_insert.mp member with rfl | isOld
    · exact ⟨event.replica, (keys _).mpr (Or.inr rfl), origin_last⟩
    · obtain ⟨id, isKey, isOrigin⟩ := (sound.append causal).keys i isOld notZero
      exact ⟨id, (keys id).mpr (Or.inl isKey), isOrigin⟩

/-! ## Every state of every run -/

/-- Both counters of a state say what its history says. -/
structure Exact (log : List Event) (replica : Replica) : Prop where
  causal : Causal log replica.history
  p : Sound log .increment replica.history replica.counter.p
  n : Sound log .decrement replica.history replica.counter.n

structure Consistent (world : World) : Prop where
  current : ∀ id, world.replicas id ∈ world.states
  ids : ∀ id, (world.replicas id).counter.p.replicaId = id ∧
    (world.replicas id).counter.n.replicaId = id
  exact : ∀ replica ∈ world.states, Exact world.log replica
  own : ∀ id i, origin world.log i = some id → i ∈ (world.replicas id).history

theorem Exact.append {replica : Replica} (exact : Exact log replica) :
    Exact (log ++ [event]) replica :=
  ⟨exact.causal.append, exact.p.append exact.causal, exact.n.append exact.causal⟩

theorem initial_consistent : Consistent World.initial where
  current id := ⟨id, rfl⟩
  ids _ := ⟨rfl, rfl⟩
  exact := by
    rintro replica ⟨id, rfl⟩
    have causal : Causal [] ∅ :=
      ⟨fun i member => absurd member (Finset.notMem_empty i),
        fun i member => absurd member (Finset.notMem_empty i)⟩
    have sound : ∀ kind, Sound [] kind ∅ (.new id) := fun kind =>
      ⟨fun _ => rfl, fun i member => absurd member (Finset.notMem_empty i)⟩
    exact ⟨causal, sound .increment, sound .decrement⟩
  own id i isOrigin := by cases isOrigin

theorem World.replicas_move (world : World) (id : JsString) (next : Replica) (other : JsString) :
    (world.move id next).replicas other = if other = id then next else world.replicas other :=
  Function.update_apply world.replicas id next other

/-- A state that a replica moves to keeps the rest as it was. -/
theorem Consistent.move {world : World} (consistent : Consistent world) (id : JsString)
    {next : Replica} (exact : Exact world.log next)
    (ids : next.counter.p.replicaId = id ∧ next.counter.n.replicaId = id)
    (own : ∀ i, origin world.log i = some id → i ∈ next.history) :
    Consistent (world.move id next) where
  current other := by
    rw [World.replicas_move]
    split
    · exact Set.mem_insert _ _
    · exact Set.mem_insert_of_mem _ (consistent.current other)
  ids other := by
    rw [World.replicas_move]
    split
    next same => exact same ▸ ids
    next => exact consistent.ids other
  exact replica member := by
    rcases Set.mem_insert_iff.mp member with rfl | isOld
    · exact exact
    · exact consistent.exact replica isOld
  own other i isOrigin := by
    rw [World.replicas_move]
    split
    next same => exact own i (same ▸ isOrigin)
    next => exact consistent.own other i isOrigin

/-- The methods leave the ids of the counters alone. -/
theorem ids_increment {counter counter' : GCounter} {n : JsNumber}
    (incremented : counter.increment n = .ok counter') :
    counter'.replicaId = counter.replicaId := by
  rw [GCounter.increment] at incremented
  split at incremented
  · cases incremented
  · cases incremented
    rfl

/-- One update: the counter of its kind takes the amount, the other one stays. -/
theorem Exact.update {replica : Replica} (exact : Exact log replica)
    (ids : replica.counter.p.replicaId = event.replica ∧
      replica.counter.n.replicaId = event.replica)
    (own : ∀ i, origin log i = some event.replica → i ∈ replica.history)
    (small : ∀ kind, total (log ++ [event]) kind ≤ 2 ^ 53) {counter : PNCounter}
    (applied : apply replica.counter event.kind (.ofInt event.amount) = .ok counter) :
    Exact (log ++ [event]) ⟨counter, insert log.length replica.history⟩ ∧
      counter.p.replicaId = event.replica ∧ counter.n.replicaId = event.replica := by
  have causal := exact.causal.insert own
  cases isKind : event.kind with
  | increment =>
      have different : event.kind ≠ .decrement := by
        rw [isKind]
        decide
      rw [isKind, apply, PNCounter.increment] at applied
      cases incremented : replica.counter.p.increment (.ofInt event.amount) with
      | error message =>
          rw [incremented] at applied
          cases applied
      | ok p =>
          rw [incremented] at applied
          cases applied
          exact ⟨⟨causal, exact.p.increment exact.causal isKind ids.1 (small _) incremented,
            exact.n.otherKind exact.causal different⟩,
            (ids_increment incremented).trans ids.1, ids.2⟩
  | decrement =>
      have different : event.kind ≠ .increment := by
        rw [isKind]
        decide
      rw [isKind, apply, PNCounter.decrement] at applied
      cases incremented : replica.counter.n.increment (.ofInt event.amount) with
      | error message =>
          rw [incremented] at applied
          cases applied
      | ok n =>
          rw [incremented] at applied
          cases applied
          exact ⟨⟨causal, exact.p.otherKind exact.causal different,
            exact.n.increment exact.causal isKind ids.2 (small _) incremented⟩,
            ids.1, (ids_increment incremented).trans ids.2⟩

theorem Consistent.update {world : World} (consistent : Consistent world) {counter : PNCounter}
    (small : ∀ kind, total (world.log ++ [event]) kind ≤ 2 ^ 53)
    (applied : apply (world.replicas event.replica).counter event.kind (.ofInt event.amount) =
      .ok counter) : Consistent (world.update event counter) := by
  obtain ⟨exact, ids⟩ := (consistent.exact _ (consistent.current event.replica)).update
    (consistent.ids event.replica) (consistent.own event.replica) small applied
  refine ⟨fun id => ?_, fun id => ?_, fun replica member => ?_, fun id i isOrigin => ?_⟩
  · rw [World.update, World.replicas_move]
    split
    · exact Set.mem_insert _ _
    · exact Set.mem_insert_of_mem _ (consistent.current id)
  · rw [World.update, World.replicas_move]
    split
    next same => exact same ▸ ids
    next => exact consistent.ids id
  · rcases Set.mem_insert_iff.mp member with rfl | isOld
    · exact exact
    · exact (consistent.exact replica isOld).append
  · change origin (world.log ++ [event]) i = some id at isOrigin
    have isOld : i ≠ world.log.length → origin world.log i = some id := by
      intro notLast
      rw [origin] at isOrigin ⊢
      rw [← isOrigin]
      by_cases less : i < world.log.length
      · rw [List.getElem?_append_left less]
      · have beyond : (world.log ++ [event]).length ≤ i := by
          rw [List.length_append, List.length_singleton]
          omega
        rw [List.getElem?_eq_none beyond, List.getElem?_eq_none (by omega)]
    rw [World.update, World.replicas_move]
    split
    next same =>
      by_cases isLast : i = world.log.length
      · exact isLast ▸ Finset.mem_insert_self _ _
      · exact Finset.mem_insert_of_mem (consistent.own event.replica i (same ▸ isOld isLast))
    next different =>
      refine consistent.own id i (isOld fun isLast => different ?_)
      rw [isLast, origin_last] at isOrigin
      exact (Option.some.inj isOrigin).symm

theorem Consistent.merge {world : World} (consistent : Consistent world) (id : JsString)
    {other : Replica} (known : other ∈ world.states) : Consistent (world.merge id other) := by
  obtain ⟨causal, p, n⟩ := consistent.exact _ (consistent.current id)
  obtain ⟨causal', p', n'⟩ := consistent.exact other known
  apply consistent.move
  · exact ⟨causal.union causal', p.merge p' causal causal', n.merge n' causal causal'⟩
  · exact consistent.ids id
  · intro i isOrigin
    exact Finset.mem_union_left _ (consistent.own id i isOrigin)

/-- As long as the sums stay exact, by induction on the run. -/
theorem consistent {world : World} (reachable : world.Reachable)
    (small : ∀ kind, total world.log kind ≤ 2 ^ 53) : Consistent world := by
  induction reachable with
  | initial => exact initial_consistent
  | update reachable event counter isNumber applied induction =>
      refine (induction fun kind => ?_).update small applied
      have bound := small kind
      change total (_ ++ [event]) kind ≤ 2 ^ 53 at bound
      rw [total_append] at bound
      omega
  | merge reachable id other known induction => exact (induction small).merge id known

/-- As long as all increments add up to at most `2 ^ 53`, and all decrements too, every state
of every replica has the value of its history: each update counts once. So states with the
same history agree. -/
theorem value_of_history {world : World} (reachable : world.Reachable)
    (small : ∀ kind, total world.log kind ≤ 2 ^ 53) {replica : Replica}
    (member : replica ∈ world.states) :
    replica.counter.value = .integer (amount world.log .increment replica.history -
      amount world.log .decrement replica.history) ∧
    ∀ other ∈ world.states, other.history = replica.history →
      other.counter.value = replica.counter.value := by
  have isConsistent := consistent reachable small
  have exact : ∀ replica ∈ world.states, replica.counter.value =
      .integer (amount world.log .increment replica.history -
        amount world.log .decrement replica.history) := by
    intro replica member
    obtain ⟨causal, p, n⟩ := isConsistent.exact replica member
    have increments : amount world.log .increment replica.history ≤ _ :=
      (amount_le_total causal).trans (small _)
    have decrements : amount world.log .decrement replica.history ≤ _ :=
      (amount_le_total causal).trans (small _)
    rw [PNCounter.value, p.value increments, n.value decrements, JsNumber.sub_of_small (by omega)]
  refine ⟨exact replica member, fun other isOther same => ?_⟩
  rw [exact replica member, exact other isOther, same]

def alice : JsString := Foundation.JavaString.ofAscii ['A']

/-- Ten up and three down at one replica. -/
theorem value_of_history_alice :
    ∃ world : World, world.Reachable ∧
      (world.replicas alice).counter.value = .integer (10 - 3) := by
  have up := World.Reachable.initial.update ⟨alice, .increment, 10⟩ _ (by decide) rfl
  have down := up.update ⟨alice, .decrement, 3⟩ _ (by decide) rfl
  refine ⟨_, down, ?_⟩
  refine (value_of_history down ?_ ?_).1.trans ?_
  · intro kind
    cases kind <;> decide
  · exact Set.mem_insert _ _
  · decide

/-- One more than `2 ^ 53` is lost: no number lies between this and the next even one. -/
theorem increment_lost :
    ∃ world : World, world.Reachable ∧ ∃ replica ∈ world.states,
      replica.counter.value ≠ .integer (amount world.log .increment replica.history -
        amount world.log .decrement replica.history) := by
  have first := World.Reachable.initial.update ⟨alice, .increment, 2 ^ 53⟩ _ (by decide) rfl
  have second := first.update ⟨alice, .increment, 1⟩ _ (by decide) rfl
  refine ⟨_, second, _, Set.mem_insert _ _, ?_⟩
  decide +kernel

end FoundationsLab.Crdt.Counting
