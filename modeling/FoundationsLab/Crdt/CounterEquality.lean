import FoundationsLab.Crdt.CounterHistory

/-! # Equal counters

`equals` looks for as many ids with the same counts. In these terms a merge is a join, and
of replicas that gossip those are equal that have counted the same. -/

namespace FoundationsLab.Crdt

namespace GCounter

open InsertionMap

def equals (counter other : GCounter) : Bool :=
  counter.counts.entries.length = other.counts.entries.length &&
    counter.counts.entries.all fun entry =>
      match other.counts.get entry.1 with
      | none => false
      | some count => count.same entry.2

/-- No count is NaN. -/
def Numeric (counter : GCounter) : Prop := ∀ id, counter.counts.get id ≠ some .nan

theorem equals_iff (counter other : GCounter) : counter.equals other = true ↔
    (∀ id, counter.counts.get id = other.counts.get id) ∧ counter.Numeric := by
  rw [equals, Bool.and_eq_true, decide_eq_true_eq, List.all_eq_true]
  constructor
  · intro equal
    obtain ⟨sameSize, inside⟩ := equal
    have found : ∀ entry ∈ counter.counts.entries,
        other.counts.get entry.1 = some entry.2 ∧ entry.2 ≠ .nan := by
      intro entry member
      have isSame := inside entry member
      cases found : other.counts.get entry.1 with
      | none =>
          rw [found] at isSame
          cases isSame
      | some count =>
          rw [found] at isSame
          obtain ⟨rfl, notNan⟩ := (JsNumber.same_iff _ _).mp isSame
          exact ⟨rfl, notNan⟩
    constructor
    · exact get_eq_of_inside sameSize fun entry member => (found entry member).1
    · intro id isNan
      exact (found _ (mem_of_get _ isNan)).2 rfl
  · intro same
    obtain ⟨same, numeric⟩ := same
    constructor
    · exact length_eq_of_get same
    · intro entry member
      have isCount := get_of_mem counter.counts member
      rw [← same, isCount]
      apply (JsNumber.same_iff _ _).mpr
      constructor
      · rfl
      · intro isNan
        exact numeric entry.1 (isCount.trans (congrArg some isNan))

theorem numeric_of_equals {counter : GCounter} (equal : counter.equals counter = true) :
    counter.Numeric := ((equals_iff _ _).mp equal).2

/-! ## What a merge makes of two counts -/

def joinCounts : Option JsNumber → Option JsNumber → Option JsNumber
  | left, none => left
  | left, some right => some ((left.getD (.integer 0)).max right)

theorem get_eq (counts : InsertionMap JsString JsNumber) (id : JsString) :
    counts.get id = if id ∈ counts.keys then some (countIn counts id) else none := by
  rw [countIn]
  cases found : counts.get id with
  | none => rw [if_neg ((get_eq_none_iff _ _).mp found)]
  | some count =>
      have isKey : id ∈ counts.keys := List.mem_map.mpr ⟨_, mem_of_get _ found, rfl⟩
      rw [if_pos isKey, Option.getD_some]

theorem get_merge (counter other : GCounter) (id : JsString) :
    (counter.merge other).counts.get id =
      joinCounts (counter.counts.get id) (other.counts.get id) := by
  have keys : id ∈ (counter.merge other).counts.keys ↔
      id ∈ counter.counts.keys ∨ id ∈ other.counts.keys := keys_mergeCounts _ _ _
  rw [get_eq (counter.merge other).counts, countIn_merge]
  cases isOther : other.counts.get id with
  | none =>
      have absent := (get_eq_none_iff _ _).mp isOther
      rw [joinCounts, get_eq counter.counts]
      simp only [keys, absent, or_false]
  | some count =>
      have present : id ∈ other.counts.keys := List.mem_map.mpr ⟨_, mem_of_get _ isOther, rfl⟩
      rw [if_pos (keys.mpr (.inr present))]
      rfl

/-- All counts are natural numbers, infinite, or NaN. -/
def Natural (count : Option JsNumber) : Prop := ∀ number, count = some number → number.NonNegative

theorem natural_some {number : JsNumber} : Natural (some number) ↔ number.NonNegative := by
  constructor
  · intro natural
    exact natural number rfl
  · intro nonNegative other isOther
    cases isOther
    exact nonNegative

theorem Natural.join {left right : Option JsNumber} (isLeft : Natural left)
    (isRight : Natural right) : Natural (joinCounts left right) := by
  cases right with
  | none => exact isLeft
  | some right =>
      apply natural_some.mpr
      apply JsNumber.NonNegative.max
      · cases left with
        | none => exact JsNumber.nonNegative_integer.mpr (Int.le_refl 0)
        | some left => exact natural_some.mp isLeft
      · exact natural_some.mp isRight

theorem none_join {right : Option JsNumber} (isRight : Natural right) :
    joinCounts none right = right := by
  cases right with
  | none => rfl
  | some right => exact congrArg some (JsNumber.zero_max (natural_some.mp isRight))

theorem joinCounts_comm {left right : Option JsNumber} (isLeft : Natural left)
    (isRight : Natural right) : joinCounts left right = joinCounts right left := by
  cases left with
  | none => exact none_join isRight
  | some left =>
      cases right with
      | none => exact (none_join isLeft).symm
      | some right => exact congrArg some (JsNumber.max_comm left right)

theorem joinCounts_assoc {left middle right : Option JsNumber} (isMiddle : Natural middle)
    (isRight : Natural right) :
    joinCounts (joinCounts left middle) right = joinCounts left (joinCounts middle right) := by
  cases right with
  | none => rfl
  | some right =>
      cases middle with
      | none =>
          rw [none_join isRight]
          rfl
      | some middle => exact congrArg some (JsNumber.max_assoc _ middle right)

theorem joinCounts_self (count : Option JsNumber) : joinCounts count count = count := by
  cases count with
  | none => rfl
  | some count => exact congrArg some (JsNumber.max_self count)

theorem joinCounts_eq_nan (left right : Option JsNumber) :
    joinCounts left right = some .nan ↔ left = some .nan ∨ right = some .nan := by
  cases right with
  | none => simp [joinCounts]
  | some right =>
      rw [joinCounts, Option.some.injEq, JsNumber.max_eq_nan]
      cases left with
      | none => simp
      | some left => simp

/-! ## All counters -/

/-- What calls of the methods can make, in any order and on any objects. -/
inductive Made : GCounter → Prop
  | new (replicaId : JsString) : Made (new replicaId)
  | increment {counter counter' : GCounter} (made : Made counter) (n : JsNumber)
      (incremented : counter.increment n = .ok counter') : Made counter'
  | merge {counter other : GCounter} (made : Made counter) (made' : Made other) :
      Made (counter.merge other)

theorem Made.natural {counter : GCounter} (made : Made counter) (id : JsString) :
    Natural (counter.counts.get id) := by
  induction made with
  | new replicaId =>
      intro number found
      cases found
  | @increment counter counter' made n incremented induction =>
      rw [GCounter.increment] at incremented
      split at incremented
      · cases incremented
      next notLess =>
        cases incremented
        rw [get_set]
        split
        next isOwn =>
          apply natural_some.mpr
          apply JsNumber.NonNegative.add
          · rw [countIn, ← isOwn]
            cases found : counter.counts.get id with
            | none => exact JsNumber.nonNegative_integer.mpr (Int.le_refl 0)
            | some count => exact induction count found
          · exact Bool.eq_false_of_not_eq_true notLess
        next => exact induction
  | merge made made' induction induction' =>
      rw [get_merge]
      exact induction.join induction'

theorem numeric_merge (counter other : GCounter) :
    (counter.merge other).Numeric ↔ counter.Numeric ∧ other.Numeric := by
  constructor
  · intro numeric
    constructor
    · intro id isNan
      apply numeric id
      rw [get_merge]
      exact (joinCounts_eq_nan _ _).mpr (.inl isNan)
    · intro id isNan
      apply numeric id
      rw [get_merge]
      exact (joinCounts_eq_nan _ _).mpr (.inr isNan)
  · intro numeric id isNan
    rw [get_merge] at isNan
    exact ((joinCounts_eq_nan _ _).mp isNan).elim (numeric.1 id) (numeric.2 id)

/-- Of all counters that calls can make, a merge is a join for `equals`: in either order, in
either grouping and repeated it makes equal counters, except that a NaN that was counted
once makes everything it is merged into unequal, also to itself. -/
theorem merge_is_join {first second third : GCounter} (isFirst : Made first)
    (isSecond : Made second) (isThird : Made third) :
    ((first.merge second).equals (second.merge first) = true ↔ first.Numeric ∧ second.Numeric) ∧
    (((first.merge second).merge third).equals (first.merge (second.merge third)) = true ↔
      (first.Numeric ∧ second.Numeric) ∧ third.Numeric) ∧
    ((first.merge first).equals first = true ↔ first.Numeric) := by
  constructor
  · rw [equals_iff, numeric_merge]
    apply and_iff_right
    intro id
    rw [get_merge, get_merge]
    exact joinCounts_comm (isFirst.natural id) (isSecond.natural id)
  constructor
  · rw [equals_iff, numeric_merge, numeric_merge]
    apply and_iff_right
    intro id
    rw [get_merge, get_merge, get_merge, get_merge]
    exact joinCounts_assoc (isSecond.natural id) (isThird.natural id)
  · rw [equals_iff, numeric_merge, and_self_iff]
    apply and_iff_right
    intro id
    rw [get_merge, joinCounts_self]

/-- The counter of a new replica that has counted once. -/
def counted (id : Char) (n : Nat) : GCounter where
  replicaId := Foundation.JavaString.ofAscii [id]
  counts := InsertionMap.empty.set (Foundation.JavaString.ofAscii [id]) (.integer n)

/-- In which order the ids came shows in the sum: beyond `2 ^ 53` equal counters can have
different values. -/
theorem merge_is_join_values_differ : ∃ counter counter' : GCounter,
    counter.equals counter' = true ∧ counter.value ≠ counter'.value := by
  have isLarge : Made (counted 'A' (2 ^ 53)) := (Made.new _).increment (.integer (2 ^ 53)) rfl
  have isOne : Made (counted 'B' 1) := (Made.new _).increment (.integer 1) rfl
  have isOther : Made (counted 'C' 1) := (Made.new _).increment (.integer 1) rfl
  have numeric : (counted 'B' 1).Numeric ∧ (counted 'C' 1).Numeric :=
    ⟨numeric_of_equals (by decide), numeric_of_equals (by decide)⟩
  have equal := (merge_is_join isLarge (isOne.merge isOther) isLarge).1.mpr
    ⟨numeric_of_equals (by decide), (numeric_merge _ _).mpr numeric⟩
  exact ⟨_, _, equal, by decide⟩

end GCounter

def PNCounter.equals (counter other : PNCounter) : Bool :=
  counter.p.equals other.p && counter.n.equals other.n

/-! ## Counters of replicas that gossip -/

namespace Counting

/-- Is this an update of the kind that the replica made? -/
def makes (log : List Event) (kind : Kind) (id : JsString) (i : Nat) : Bool :=
  match log[i]? with
  | some event => event.replica = id && event.kind = kind
  | none => false

/-- There is an entry for each replica with updates of the kind in the history. -/
def Keyed (log : List Event) (kind : Kind) (history : Finset Nat) (counter : GCounter) : Prop :=
  ∀ id, id ∈ counter.counts.keys ↔ ∃ i ∈ history, makes log kind id i = true

/-- The entry of a replica, as the history has it. -/
def shown (log : List Event) (kind : Kind) (history : Finset Nat) (id : JsString) : Option Nat :=
  if ∃ i ∈ history, makes log kind id i = true then some (tally log kind history id) else none

variable {log : List Event} {kind : Kind} {history other : Finset Nat} {id : JsString}
  {event : Event}

theorem makes_append {i : Nat} (isOld : i < log.length) :
    makes (log ++ [event]) kind id i = makes log kind id i := by
  rw [makes, makes, List.getElem?_append_left isOld]

theorem makes_last : makes (log ++ [event]) kind id log.length = true ↔
    event.replica = id ∧ event.kind = kind := by
  simp [makes]

theorem Keyed.append {counter : GCounter} (keyed : Keyed log kind history counter)
    (causal : Causal log history) : Keyed (log ++ [event]) kind history counter := by
  intro id
  rw [keyed id]
  apply exists_congr
  intro i
  apply and_congr_right
  intro member
  rw [makes_append (causal.bounded i member)]

theorem Keyed.insert {counter counter' : GCounter} (keyed : Keyed log kind history counter)
    (causal : Causal log history)
    (keys : ∀ id, id ∈ counter'.counts.keys ↔
      (event.replica = id ∧ event.kind = kind) ∨ id ∈ counter.counts.keys) :
    Keyed (log ++ [event]) kind (insert log.length history) counter' := by
  have appended : Keyed (log ++ [event]) kind history counter := keyed.append causal
  intro id
  rw [keys id, appended id]
  simp only [Finset.mem_insert, exists_eq_or_imp, makes_last]

theorem Keyed.merge {counter counter' : GCounter} (keyed : Keyed log kind history counter)
    (keyed' : Keyed log kind other counter') :
    Keyed log kind (history ∪ other) (counter.merge counter') := by
  intro id
  rw [GCounter.merge, GCounter.keys_mergeCounts, keyed id, ← InsertionMap.keys, keyed' id]
  simp only [Finset.mem_union, or_and_right, exists_or]

theorem keys_increment {counter counter' : GCounter} {n : JsNumber}
    (incremented : counter.increment n = .ok counter') (id : JsString) :
    id ∈ counter'.counts.keys ↔ counter.replicaId = id ∨ id ∈ counter.counts.keys := by
  rw [GCounter.increment] at incremented
  split at incremented
  · cases incremented
  · cases incremented
    rw [InsertionMap.keys_set, or_comm, eq_comm]

/-- Both counters of a state have the entries of its history. -/
def BothKeyed (log : List Event) (replica : Replica) : Prop :=
  Keyed log .increment replica.history replica.counter.p ∧
    Keyed log .decrement replica.history replica.counter.n

theorem BothKeyed.update {replica : Replica} (keyed : BothKeyed log replica)
    (causal : Causal log replica.history)
    (ids : replica.counter.p.replicaId = event.replica ∧
      replica.counter.n.replicaId = event.replica) {counter : PNCounter}
    (applied : apply replica.counter event.kind (.ofInt event.amount) = .ok counter) :
    BothKeyed (log ++ [event]) ⟨counter, insert log.length replica.history⟩ := by
  cases isKind : event.kind with
  | increment =>
      rw [isKind, apply, PNCounter.increment] at applied
      cases incremented : replica.counter.p.increment (.ofInt event.amount) with
      | error message =>
          rw [incremented] at applied
          cases applied
      | ok p =>
          rw [incremented] at applied
          cases applied
          constructor
          · apply keyed.1.insert causal
            intro id
            simp only [keys_increment incremented, ids.1, isKind, and_true]
          · apply keyed.2.insert causal
            intro id
            simp [isKind]
  | decrement =>
      rw [isKind, apply, PNCounter.decrement] at applied
      cases incremented : replica.counter.n.increment (.ofInt event.amount) with
      | error message =>
          rw [incremented] at applied
          cases applied
      | ok n =>
          rw [incremented] at applied
          cases applied
          constructor
          · apply keyed.1.insert causal
            intro id
            simp [isKind]
          · apply keyed.2.insert causal
            intro id
            simp only [keys_increment incremented, ids.2, isKind, and_true]

/-- By induction on the run. -/
theorem bothKeyed {world : World} (reachable : world.Reachable)
    (small : ∀ kind, total world.log kind ≤ 2 ^ 53) :
    ∀ replica ∈ world.states, BothKeyed world.log replica := by
  induction reachable with
  | initial =>
      intro replica member
      obtain ⟨id, rfl⟩ := member
      constructor
      · intro id
        exact ⟨fun isKey => absurd isKey List.not_mem_nil, fun made => by simp at made⟩
      · intro id
        exact ⟨fun isKey => absurd isKey List.not_mem_nil, fun made => by simp at made⟩
  | @update world reachable event counter isNumber applied induction =>
      have earlier : ∀ kind, total world.log kind ≤ 2 ^ 53 := by
        intro kind
        have bound := small kind
        change total (_ ++ [event]) kind ≤ 2 ^ 53 at bound
        rw [total_append] at bound
        omega
      have isConsistent := consistent reachable earlier
      intro replica member
      rcases Set.mem_insert_iff.mp member with isNext | isOld
      · have current := isConsistent.current event.replica
        rw [isNext]
        exact (induction earlier _ current).update (isConsistent.exact _ current).causal
          (isConsistent.ids event.replica) applied
      · have causal := (isConsistent.exact replica isOld).causal
        have keyed := induction earlier replica isOld
        exact ⟨keyed.1.append causal, keyed.2.append causal⟩
  | @merge world reachable id other known induction =>
      have isConsistent := consistent reachable small
      intro replica member
      rcases Set.mem_insert_iff.mp member with isNext | isOld
      · have keyed := induction small _ (isConsistent.current id)
        have keyed' := induction small other known
        rw [isNext]
        exact ⟨keyed.1.merge keyed'.1, keyed.2.merge keyed'.2⟩
      · exact induction small replica isOld

/-! ## What equal counters have counted -/

theorem get_eq_shown {counter : GCounter} (sound : Sound log kind history counter)
    (keyed : Keyed log kind history counter) (id : JsString) :
    counter.counts.get id = (shown log kind history id).map fun count => .integer count := by
  rw [GCounter.get_eq, sound.counts id, shown]
  simp only [keyed id]
  split
  · rfl
  · rfl

theorem numeric {counter : GCounter} (sound : Sound log kind history counter)
    (keyed : Keyed log kind history counter) : counter.Numeric := by
  intro id isNan
  rw [get_eq_shown sound keyed] at isNan
  cases isShown : shown log kind history id with
  | none =>
      rw [isShown] at isNan
      cases isNan
  | some count =>
      rw [isShown] at isNan
      cases isNan

theorem equals_iff_shown {counter counter' : GCounter} (sound : Sound log kind history counter)
    (keyed : Keyed log kind history counter) (sound' : Sound log kind other counter')
    (keyed' : Keyed log kind other counter') :
    counter.equals counter' = true ↔
      ∀ id, shown log kind history id = shown log kind other id := by
  rw [GCounter.equals_iff, and_iff_left (numeric sound keyed)]
  apply forall_congr'
  intro id
  rw [get_eq_shown sound keyed, get_eq_shown sound' keyed']
  constructor
  · intro same
    apply Option.map_injective _ same
    intro count count' same
    exact Int.ofNat.inj (JsNumber.integer.inj same)
  · intro same
    rw [same]

/-- Where there is no entry there is nothing to count. -/
theorem tally_eq_getD (log : List Event) (kind : Kind) (history : Finset Nat) (id : JsString) :
    tally log kind history id = (shown log kind history id).getD 0 := by
  rw [shown]
  split
  · rfl
  next noneMade =>
    apply Finset.sum_eq_zero
    intro i member
    split
    next isOrigin =>
      rw [share]
      rw [origin] at isOrigin
      obtain ⟨event, isEvent, isReplica⟩ := Option.map_eq_some_iff.mp isOrigin
      rw [isEvent]
      dsimp only
      apply if_neg
      intro isKind
      apply noneMade
      exact ⟨i, member, by simp [makes, isEvent, isReplica, isKind]⟩
    next => rfl

/-- A replica's updates that add up to the same are the same ones, if all add something. -/
theorem subset_of_tally (causal : Causal log history) (causal' : Causal log other)
    (positive : ∀ event ∈ log, 0 < event.amount)
    (same : ∀ kind id, tally log kind history id = tally log kind other id) :
    history ⊆ other := by
  intro i member
  have isOld := causal.bounded i member
  have isEvent : log[i]? = some log[i] := List.getElem?_eq_getElem isOld
  have isOrigin : origin log i = some log[i].replica := by rw [origin, isEvent, Option.map_some]
  rcases causal.comparable causal' log[i].replica with inside | inside
  · exact inside i member isOrigin
  · by_contra missing
    have less : tally log log[i].kind other log[i].replica <
        tally log log[i].kind history log[i].replica := by
      rw [tally, tally, ← Finset.sum_filter, ← Finset.sum_filter]
      apply Finset.sum_lt_sum_of_subset (i := i)
      · intro j isMade
        obtain ⟨isMember, isOrigin⟩ := Finset.mem_filter.mp isMade
        exact Finset.mem_filter.mpr ⟨inside j isMember isOrigin, isOrigin⟩
      · exact Finset.mem_filter.mpr ⟨member, isOrigin⟩
      · exact fun isMade => missing (Finset.mem_filter.mp isMade).1
      · rw [share, isEvent]
        dsimp only
        rw [if_pos rfl]
        exact positive _ (List.getElem_mem isOld)
      · exact fun _ _ _ => Nat.zero_le _
    exact Nat.ne_of_lt less (same _ _).symm

/-- The tallies of all replicas that the log knows add up to the sum of the history. -/
theorem sum_tally_world (causal : Causal log history) :
    ∑ id ∈ (log.map Event.replica).toFinset, tally log kind history id =
      amount log kind history := by
  apply sum_tally
  intro i member _
  have isOld := causal.bounded i member
  have isEvent : log[i]? = some log[i] := List.getElem?_eq_getElem isOld
  refine ⟨log[i].replica, List.mem_map.mpr ⟨_, List.getElem_mem isOld, rfl⟩, ?_⟩
  rw [origin, isEvent, Option.map_some]

/-- Up to `2 ^ 53`, two states of replicas are equal if and only if each replica's updates of
each kind add up to the same in both histories, where a replica without any is told from one
whose updates add nothing. So states with the same history are equal, where every update adds
something no others are, and equal states have equal values. -/
theorem equals_iff_same_updates {world : World} (reachable : world.Reachable)
    (small : ∀ kind, total world.log kind ≤ 2 ^ 53) {left right : Replica}
    (isLeft : left ∈ world.states) (isRight : right ∈ world.states) :
    (left.counter.equals right.counter = true ↔ ∀ kind id,
      shown world.log kind left.history id = shown world.log kind right.history id) ∧
    (left.history = right.history → left.counter.equals right.counter = true) ∧
    ((∀ event ∈ world.log, 0 < event.amount) →
      left.counter.equals right.counter = true → left.history = right.history) ∧
    (left.counter.equals right.counter = true → left.counter.value = right.counter.value) := by
  have isConsistent := consistent reachable small
  obtain ⟨causal, p, n⟩ := isConsistent.exact left isLeft
  obtain ⟨causal', p', n'⟩ := isConsistent.exact right isRight
  obtain ⟨keyedP, keyedN⟩ := bothKeyed reachable small left isLeft
  obtain ⟨keyedP', keyedN'⟩ := bothKeyed reachable small right isRight
  have equalsIff : left.counter.equals right.counter = true ↔ ∀ kind id,
      shown world.log kind left.history id = shown world.log kind right.history id := by
    rw [PNCounter.equals, Bool.and_eq_true, equals_iff_shown p keyedP p' keyedP',
      equals_iff_shown n keyedN n' keyedN']
    constructor
    · intro same kind
      cases kind with
      | increment => exact same.1
      | decrement => exact same.2
    · intro same
      exact ⟨same .increment, same .decrement⟩
  have sameTallies : left.counter.equals right.counter = true → ∀ kind id,
      tally world.log kind left.history id = tally world.log kind right.history id := by
    intro equal kind id
    rw [tally_eq_getD, tally_eq_getD, equalsIff.mp equal kind id]
  refine ⟨equalsIff, ?_, ?_, ?_⟩
  · intro sameHistory
    apply equalsIff.mpr
    intro kind id
    rw [sameHistory]
  · intro positive equal
    apply Finset.Subset.antisymm
    · exact subset_of_tally causal causal' positive (sameTallies equal)
    · apply subset_of_tally causal' causal positive
      intro kind id
      exact (sameTallies equal kind id).symm
  · intro equal
    have sameAmount : ∀ kind,
        amount world.log kind left.history = amount world.log kind right.history := by
      intro kind
      rw [← sum_tally_world causal, ← sum_tally_world causal']
      apply Finset.sum_congr rfl
      intro id _
      exact sameTallies equal kind id
    have small' : ∀ kind, amount world.log kind left.history ≤ 2 ^ 53 :=
      fun kind => (amount_le_total causal).trans (small kind)
    rw [PNCounter.value, PNCounter.value, p.value (small' _), n.value (small' _),
      p'.value (sameAmount _ ▸ small' _), n'.value (sameAmount _ ▸ small' _), sameAmount,
      sameAmount]

def bob : JsString := Foundation.JavaString.ofAscii ['B']

/-- What Alice counted and Bob has merged. -/
theorem equals_iff_same_updates_merged :
    ∃ world : World, world.Reachable ∧
      (world.replicas alice).counter.equals (world.replicas bob).counter = true := by
  have up := World.Reachable.initial.update ⟨alice, .increment, 10⟩ _ (by decide) rfl
  have merged := up.merge bob _ (Set.mem_insert _ _)
  refine ⟨_, merged, ?_⟩
  refine (equals_iff_same_updates merged ?_ ?_ ?_).2.1 ?_
  · intro kind
    cases kind <;> decide
  · exact Set.mem_insert_of_mem _ (Set.mem_insert _ _)
  · exact Set.mem_insert _ _
  · decide

end Counting

end FoundationsLab.Crdt
