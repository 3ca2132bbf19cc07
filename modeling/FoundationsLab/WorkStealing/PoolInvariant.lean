import FoundationsLab.WorkStealing.DequeCalls
import FoundationsLab.Foundation.Tally

/-! # Where the tasks of a pool are

Every task that was added to `pending_` and not taken off again is in exactly one
place: on its way into a container, in the global queue, in a deque, or with the worker
that runs it. The tasks in a deque are those pushed and not returned. -/

namespace FoundationsLab.WorkStealing

variable {n m : Nat}

/-! ## What a thread holds -/

namespace Worker

/-- The task that was started and is not yet off the counter. -/
def running : Worker n → List Nat
  | .run task _ => [task]
  | .finish task => [task]
  | _ => []

def finishing : Worker n → List Nat
  | .finish task => [task]
  | _ => []

/-- Created and not yet counted. -/
def naming : Worker n → List Nat
  | .run _ (.count child) => [child]
  | _ => []

/-- Counted and not yet in the deque. -/
def handing : Worker n → List Nat
  | .run _ (.push child) => [child]
  | _ => []

/-- A call of `submit` that has counted its task. -/
def past : Worker n → List Nat
  | .run _ (.push child) => [child]
  | .run _ (.notify child) => [child]
  | _ => []

/-- The call that the owner of the worker's deque is inside. -/
def Uses : Worker n → Owner Nat → Prop
  | .pop, owner => owner.Popping
  | .run _ (.push child), owner => owner.Pushing child
  | _, owner => owner = .idle

end Worker

namespace Outside

def naming : Outside → List Nat
  | .count task => [task]
  | _ => []

def handing : Outside → List Nat
  | .queue task => [task]
  | _ => []

def past : Outside → List Nat
  | .queue task => [task]
  | .notify task => [task]
  | _ => []

end Outside

/-! ## The invariant -/

namespace Pool

structure Inv (pool : Pool n m) : Prop where
  sound : ∀ i, (pool.deques i).Sound
  owners : ∀ i, (pool.workers i).Uses (pool.deques i).owner
  balance : ∀ t, pool.counted.count t + tally System.returned pool.deques t =
    pool.countedOff.count t + tally Worker.running pool.workers t +
      tally Worker.handing pool.workers t + tally Outside.handing pool.threads t +
        pool.queue.count t + tally System.pushed pool.deques t
  names : ∀ t, pool.counted.count t + tally Worker.naming pool.workers t +
    tally Outside.naming pool.threads t = if t < pool.created then 1 else 0
  started : ∀ t, pool.started.count t =
    pool.countedOff.count t + tally Worker.running pool.workers t
  ran : ∀ t, pool.ran.count t = pool.countedOff.count t + tally Worker.finishing pool.workers t
  pending : pool.pending = pool.counted.length - pool.countedOff.length
  submitted : ∀ t ∈ pool.submitted, t ∈ pool.counted
  pastWorkers : ∀ i, ∀ t ∈ (pool.workers i).past, t ∈ pool.counted
  pastThreads : ∀ k, ∀ t ∈ (pool.threads k).past, t ∈ pool.counted
  spawned : ∀ link ∈ pool.spawned,
    link.2 ∈ pool.counted ∨ ∃ i, link.2 ∈ (pool.workers i).naming

theorem Inv.initial (n m : Nat) : (initial n m).Inv where
  sound _ := .initial (by decide)
  owners _ := rfl
  balance t := by
    rw [tally_of_empty fun _ => rfl, tally_of_empty fun _ => rfl, tally_of_empty fun _ => rfl,
      tally_of_empty fun _ => rfl, tally_of_empty fun _ => rfl]
    rfl
  names t := by
    rw [tally_of_empty fun _ => rfl, tally_of_empty fun _ => rfl]
    rfl
  started t := by
    rw [tally_of_empty fun _ => rfl]
    rfl
  ran t := by
    rw [tally_of_empty fun _ => rfl]
    rfl
  pending := rfl
  submitted _ member := nomatch member
  pastWorkers _ _ member := nomatch member
  pastThreads _ _ member := nomatch member
  spawned _ member := nomatch member

/-! ## Steps of one worker -/

/-- Worker `i` moves to another place and changes deque `v`: what it holds, the
containers and the record change by the same amounts. -/
structure Acts (pool pool' : Pool n m) (i v : Fin n) (worker : Worker n) (deque : System Nat) :
    Prop where
  workers : pool'.workers = Function.update pool.workers i worker
  deques : pool'.deques = Function.update pool.deques v deque
  threads : pool'.threads = pool.threads
  sound : deque.Sound
  uses : (v = i ∧ worker.Uses deque.owner) ∨
    (deque.owner = (pool.deques v).owner ∧ worker.Uses (pool.deques i).owner)
  balance : ∀ t, pool'.counted.count t + deque.returned.count t + pool.countedOff.count t +
      (pool.workers i).running.count t + (pool.workers i).handing.count t + pool.queue.count t +
        (pool.deques v).pushed.count t =
    pool.counted.count t + (pool.deques v).returned.count t + pool'.countedOff.count t +
      worker.running.count t + worker.handing.count t + pool'.queue.count t +
        deque.pushed.count t
  names : ∀ t, pool'.counted.count t + worker.naming.count t +
      (if t < pool.created then 1 else 0) =
    pool.counted.count t + (pool.workers i).naming.count t + if t < pool'.created then 1 else 0
  started : ∀ t, pool'.started.count t + pool.countedOff.count t +
      (pool.workers i).running.count t =
    pool.started.count t + pool'.countedOff.count t + worker.running.count t
  ran : ∀ t, pool'.ran.count t + pool.countedOff.count t + (pool.workers i).finishing.count t =
    pool.ran.count t + pool'.countedOff.count t + worker.finishing.count t
  pending : pool'.pending + pool.counted.length + pool'.countedOff.length =
    pool.pending + pool'.counted.length + pool.countedOff.length
  grows : ∀ t ∈ pool.counted, t ∈ pool'.counted
  submitted : ∀ t ∈ pool'.submitted, t ∈ pool.submitted ∨ t ∈ pool'.counted
  past : ∀ t ∈ worker.past, t ∈ pool'.counted
  spawned : ∀ link ∈ pool'.spawned, link ∈ pool.spawned ∨ link.2 ∈ worker.naming
  named : ∀ t ∈ (pool.workers i).naming, t ∈ pool'.counted ∨ t ∈ worker.naming

variable {pool pool' : Pool n m} {i v : Fin n} {worker : Worker n} {deque : System Nat}

theorem Inv.act (inv : pool.Inv) (acts : Acts pool pool' i v worker deque) : pool'.Inv := by
  obtain ⟨workers, deques, threads, sound, uses, balance, names, started, ran, pending, grows,
    submitted, past, spawned, named⟩ := acts
  have moved (held : Worker n → List Nat) (t : Nat) :=
    tally_update held pool.workers i worker t
  have changed (held : System Nat → List Nat) (t : Nat) :=
    tally_update held pool.deques v deque t
  refine ⟨fun j => ?_, fun j => ?_, fun t => ?_, fun t => ?_, fun t => ?_, fun t => ?_, ?_,
    fun t member => ?_, fun j t member => ?_, fun k t member => ?_, fun link member => ?_⟩
  · rw [deques]
    by_cases same : j = v
    · rw [same, Function.update_self]
      exact sound
    · rw [Function.update_of_ne same]
      exact inv.sound j
  · rw [workers, deques]
    rcases uses with ⟨rfl, uses⟩ | ⟨owner, uses⟩
    · by_cases same : j = v
      · rw [same, Function.update_self, Function.update_self]
        exact uses
      · rw [Function.update_of_ne same, Function.update_of_ne same]
        exact inv.owners j
    · have sameOwner : (Function.update pool.deques v deque j).owner = (pool.deques j).owner := by
        by_cases same : j = v
        · rw [same, Function.update_self]
          exact owner
        · rw [Function.update_of_ne same]
      rw [sameOwner]
      by_cases same : j = i
      · rw [same, Function.update_self]
        exact uses
      · rw [Function.update_of_ne same]
        exact inv.owners j
  · rw [workers, deques, threads]
    have before := inv.balance t
    have local' := balance t
    have returned := changed System.returned t
    have pushed := changed System.pushed t
    have running := moved Worker.running t
    have handing := moved Worker.handing t
    omega
  · rw [workers, threads]
    have before := inv.names t
    have local' := names t
    have naming := moved Worker.naming t
    omega
  · rw [workers]
    have before := inv.started t
    have local' := started t
    have running := moved Worker.running t
    omega
  · rw [workers]
    have before := inv.ran t
    have local' := ran t
    have finishing := moved Worker.finishing t
    omega
  · have before := inv.pending
    omega
  · exact (submitted t member).elim (fun old => grows t (inv.submitted t old)) id
  · rw [workers] at member
    by_cases same : j = i
    · rw [same, Function.update_self] at member
      exact past t member
    · rw [Function.update_of_ne same] at member
      exact grows t (inv.pastWorkers j t member)
  · rw [threads] at member
    exact grows t (inv.pastThreads k t member)
  · rw [workers]
    rcases spawned link member with old | new
    · rcases inv.spawned link old with isCounted | ⟨j, isNamed⟩
      · exact .inl (grows _ isCounted)
      · by_cases same : j = i
        · rw [same] at isNamed
          refine (named _ isNamed).imp_right fun isNamed => ⟨i, ?_⟩
          rw [Function.update_self]
          exact isNamed
        · refine .inr ⟨j, ?_⟩
          rw [Function.update_of_ne same]
          exact isNamed
    · refine .inr ⟨i, ?_⟩
      rw [Function.update_self]
      exact new

end Pool

end FoundationsLab.WorkStealing
