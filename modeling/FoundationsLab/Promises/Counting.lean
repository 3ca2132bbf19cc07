import Mathlib.Data.List.Basic
import FoundationsLab.Promises.Inputs

/-! # What `APromise.all` counts

The callbacks of the items run at most once, so `remaining` is the number of items without a
result, and the promise of the call shows which callbacks have run. -/

namespace FoundationsLab.Promises

variable {User : Type}

/-! ## The array of results -/

section Results

variable {Element : Type}

/-- A hole reads as nothing. -/
def read (results : List (Option Element)) (i : Nat) : Option Element := results[i]?.join

theorem read_of_length_le {results : List (Option Element)} {i : Nat} (outside : results.length ≤ i) :
    read results i = none := by
  rw [read, List.getElem?_eq_none outside]
  rfl

theorem read_assign (results : List (Option Element)) (i : Nat) (value : Element) (j : Nat) :
    read (assign results i value) j = if j = i then some value else read results j := by
  rw [assign, read, read]
  split
  next inside =>
    by_cases same : j = i
    · subst same
      rw [List.getElem?_set_self inside, if_pos rfl]
      rfl
    · rw [List.getElem?_set_ne (Ne.symm same), if_neg same]
  next outside =>
    have padded : (results ++ List.replicate (i - results.length) none).length = i := by
      rw [List.length_append, List.length_replicate]
      omega
    rcases Nat.lt_trichotomy j i with before | same | behind
    · rw [if_neg (Nat.ne_of_lt before), List.getElem?_append_left (by omega)]
      by_cases inside : j < results.length
      · rw [List.getElem?_append_left inside]
      · rw [List.getElem?_append_right (by omega), List.getElem?_replicate, if_pos (by omega),
          List.getElem?_eq_none (by omega : results.length ≤ j)]
        rfl
    · subst same
      rw [if_pos rfl, List.getElem?_append_right (by omega), padded, Nat.sub_self]
      rfl
    · rw [if_neg (by omega), List.getElem?_eq_none (by
        rw [List.length_append, padded, List.length_singleton]
        omega), List.getElem?_eq_none (by omega : results.length ≤ j)]

theorem length_assign {results : List (Option Element)} {i bound : Nat} (value : Element)
    (short : results.length ≤ bound) (inside : i < bound) :
    (assign results i value).length ≤ bound := by
  rw [assign]
  split
  · rw [List.length_set]
    exact short
  · rw [List.length_append, List.length_append, List.length_replicate, List.length_singleton]
    omega

/-- The number of items without a result. -/
def holes (results : List (Option Element)) (bound : Nat) : Nat :=
  (List.range bound).countP fun i => (read results i).isNone

theorem holes_succ (results : List (Option Element)) (bound : Nat) :
    holes results (bound + 1) =
      holes results bound + if (read results bound).isNone then 1 else 0 := by
  rw [holes, holes, List.range_succ, List.countP_append, List.countP_singleton]

theorem holes_assign {results : List (Option Element)} {i bound : Nat} (value : Element)
    (isHole : read results i = none) (inside : i < bound) :
    holes (assign results i value) bound + 1 = holes results bound := by
  induction bound with
  | zero => omega
  | succ bound induction =>
      rw [holes_succ, holes_succ, read_assign]
      by_cases same : bound = i
      · subst same
        have sameBelow : holes (assign results bound value) bound = holes results bound := by
          rw [holes, holes]
          apply List.countP_congr
          intro j member
          rw [read_assign, if_neg (Nat.ne_of_lt (List.mem_range.mp member))]
        rw [sameBelow, if_pos rfl, isHole]
        rfl
      · have below := induction (by omega)
        rw [if_neg same]
        omega

theorem holes_pos {results : List (Option Element)} {i bound : Nat} (isHole : read results i = none)
    (inside : i < bound) : 0 < holes results bound := by
  rw [holes, List.countP_pos_iff]
  exact ⟨i, List.mem_range.mpr inside, by rw [isHole]; rfl⟩

theorem holes_all {results : List (Option Element)} {bound : Nat}
    (noResult : ∀ i, read results i = none) : holes results bound = bound := by
  rw [holes, List.countP_eq_length.mpr]
  · exact List.length_range
  · intro i _
    rw [noResult i]
    rfl

end Results

/-! ## The invariant -/

/-- Only the handlers of the call have its functions. -/
structure Lawful (s : AllState User) (registration : Nat × Handler (Code User)) : Prop where
  refusing : ∀ i, elementOf registration.2 = some i →
    registration.2.onRejected = some (.reject s.result)
  hidden : elementOf registration.2 = none → ∀ q, registration.2.onFulfilled = some (.reject q) ∨
    registration.2.onRejected = some (.reject q) → s.heap.knows (.reject q) = true
  plain : ∀ i, registration.2.onRejected ≠ some (.user (.element i))
  apart : s.phase ≠ .before → registration.2.next ≠ s.result

/-- The call registers one handler for each item. -/
structure Registered (s : AllState User) : Prop where
  orderly : s.heap.IsOrderly
  own : ownRegistrations s.heap.log = s.inputs.zipIdx
  indexed : s.index = s.inputs.length
  lawful : ∀ registration ∈ registrations s.heap.log, Lawful s registration
  unstarted : s.phase = .before → s.inputs = []

def isRejection (job : Job (Code User)) : Bool :=
  (elementOf job.handler).isSome && job.state = .rejected

/-- The rejection handler of an item that has run first. -/
def firstRejection (log : List (Event (Code User))) : Option (Job (Code User)) :=
  (jobsRun log).find? isRejection

/-- What the promise of the call should show. -/
def expected (s : AllState User) : Status × Value (Code User) × Bool :=
  match firstRejection s.heap.log with
  | some job => (.rejected, job.value, false)
  | none =>
      if s.phase = .returned ∧ s.remaining = 0 then
        (.fulfilled, .object (if s.index = 0 then .empty else .results), false)
      else (.pending, .undefined, false)

structure Counted (s : AllState User) : Prop where
  stored : ∀ i value, read s.results i = some value ↔ ∃ job ∈ jobsRun s.heap.log,
    elementOf job.handler = some i ∧ job.state = .fulfilled ∧ job.value = value
  counted : s.remaining = holes s.results s.index
  short : s.results.length ≤ s.index
  notYet : s.phase ≠ .returned → ∀ job ∈ jobsRun s.heap.log, elementOf job.handler = none
  shown : s.phase ≠ .before → s.heap.view s.result = some (expected s)

section Moves

variable {s later : AllState User}

theorem Lawful.of_heap {registration : Nat × Handler (Code User)} (lawful : Lawful s registration)
    (grows : Grows s.heap later.heap) (samePhase : later.phase = .before ↔ s.phase = .before)
    (sameResult : later.result = s.result) : Lawful later registration where
  refusing := by
    rw [sameResult]
    exact lawful.refusing
  hidden notOwn q isRefusing := grows.knows (lawful.hidden notOwn q isRefusing)
  plain := lawful.plain
  apart := by
    rw [sameResult]
    exact fun started => lawful.apart fun isBefore => started (samePhase.mpr isBefore)

theorem Registered.of_heap (registered : Registered s) (isOrderly : later.heap.IsOrderly)
    (grows : Grows s.heap later.heap)
    (sameRegistrations : registrations later.heap.log = registrations s.heap.log)
    (samePhase : later.phase = .before ↔ s.phase = .before) (sameResult : later.result = s.result)
    (sameIndex : later.index = s.index) (sameInputs : later.inputs = s.inputs) : Registered later where
  orderly := isOrderly
  own := by
    rw [ownRegistrations, sameRegistrations, sameInputs]
    exact registered.own
  indexed := by
    rw [sameIndex, sameInputs]
    exact registered.indexed
  lawful := by
    rw [sameRegistrations]
    intro registration member
    exact (registered.lawful registration member).of_heap grows samePhase sameResult
  unstarted := by
    rw [sameInputs]
    exact fun isBefore => registered.unstarted (samePhase.mp isBefore)

/-- The program registers a handler of its own. -/
theorem Registered.foreign (registered : Registered s) {registration : Nat × Handler (Code User)}
    {heap : State (Code User)} (isOrderly : heap.IsOrderly) (grows : Grows s.heap heap)
    (isNew : registrations heap.log = registrations s.heap.log ++ [registration])
    (notOwn : elementOf registration.2 = none)
    (lawful : Lawful { s with heap := heap } registration) :
    Registered { s with heap := heap } where
  orderly := isOrderly
  own := by
    have notListed : ownRegistration registration = none := by
      rw [ownRegistration, notOwn]
      rfl
    rw [ownRegistrations, isNew, List.filterMap_append, List.filterMap_cons_none notListed]
    exact (List.append_nil _).trans registered.own
  indexed := registered.indexed
  lawful := by
    intro other member
    rw [isNew] at member
    rcases List.mem_append.mp member with old | isLast
    · exact (registered.lawful other old).of_heap grows Iff.rfl rfl
    · cases List.mem_singleton.mp isLast
      exact lawful
  unstarted := registered.unstarted

theorem expected_of_heap {heap : State (Code User)}
    (sameRun : jobsRun heap.log = jobsRun s.heap.log) :
    expected { s with heap := heap } = expected s := by
  rw [expected, expected, firstRejection, firstRejection, sameRun]

/-- No callback has run, and the promise of the call is as it was. -/
theorem Counted.of_heap (counted : Counted s) {heap : State (Code User)}
    (sameRun : jobsRun heap.log = jobsRun s.heap.log)
    (sameView : s.phase ≠ .before → heap.view s.result = s.heap.view s.result) :
    Counted { s with heap := heap } where
  stored := by
    rw [sameRun]
    exact counted.stored
  counted := counted.counted
  short := counted.short
  notYet := by
    rw [sameRun]
    exact counted.notYet
  shown := by
    intro started
    rw [expected_of_heap sameRun, sameView started]
    exact counted.shown started

end Moves

end FoundationsLab.Promises
