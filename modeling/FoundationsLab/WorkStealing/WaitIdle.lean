import FoundationsLab.WorkStealing.PoolSteps
import Mathlib.Data.List.Nodup
import Mathlib.Logic.Relation

/-! # `wait_idle` is a join

`wait_idle` returns when it reads zero from `pending_`. At zero nothing is left in any
container or with any worker, and all that was ever submitted has run. -/

namespace FoundationsLab.WorkStealing

namespace Pool

variable {n m : Nat} {pool : Pool n m}

/-! ## Counting -/

theorem Inv.counted_nodup (inv : pool.Inv) : pool.counted.Nodup := by
  refine List.nodup_iff_count_le_one.mpr fun t => ?_
  have names := inv.names t
  split at names <;> omega

theorem Inv.returned_le (inv : pool.Inv) (t : Nat) :
    tally System.returned pool.deques t ≤ tally System.pushed pool.deques t :=
  tally_le_tally fun i => (inv.sound i).returned_le t

theorem Inv.countedOff_subperm (inv : pool.Inv) : pool.countedOff.Subperm pool.counted := by
  refine List.subperm_ext_iff.mpr fun t _ => ?_
  have balance := inv.balance t
  have returned := inv.returned_le t
  omega

/-- The tasks counted and not yet counted off. -/
theorem Inv.pending_eq (inv : pool.Inv) :
    pool.pending = (pool.counted.filter (· ∉ pool.countedOff)).length := by
  obtain ⟨part, same, inside⟩ := inv.countedOff_subperm
  obtain ⟨rest, divided⟩ := inside.exists_perm_append
  have split := divided.trans (same.append_right rest)
  have distinct := split.nodup_iff.mp inv.counted_nodup
  have apart := (List.nodup_append'.mp distinct).2.2
  have left : (pool.countedOff ++ rest).filter (· ∉ pool.countedOff) = rest := by
    rw [List.filter_append, List.filter_eq_nil_iff.mpr (by simp), List.nil_append,
      List.filter_eq_self.mpr]
    exact fun t member => decide_eq_true fun isOff => apart isOff member
  have length := split.length_eq
  rw [(split.filter _).length_eq, left, inv.pending]
  rw [List.length_append] at length
  omega

/-! ## Zero -/

/-- All that is counted is counted off, and no task is anywhere. -/
structure Settled (pool : Pool n m) : Prop where
  countedOff : ∀ t, pool.countedOff.count t = pool.counted.count t
  running : ∀ i, (pool.workers i).running = []
  queue : pool.queue = []
  deques : ∀ i, (pool.deques i).live = []

/-- Whatever is counted off as often as it is counted is nowhere in the pool. -/
theorem Inv.settled (inv : pool.Inv)
    (countedOff : ∀ t, pool.countedOff.count t = pool.counted.count t) : pool.Settled := by
  refine ⟨countedOff, held_eq_nil fun t => ?_, ?_, fun i => (inv.sound i).live_eq_nil fun t => ?_⟩
  · have balance := inv.balance t
    have returned := inv.returned_le t
    have same := countedOff t
    omega
  · refine List.eq_nil_iff_forall_not_mem.mpr fun t member => ?_
    have present := List.count_pos_iff.mpr member
    have balance := inv.balance t
    have returned := inv.returned_le t
    have same := countedOff t
    omega
  · have lower := (inv.sound i).returned_le t
    have all : tally System.pushed pool.deques t ≤ tally System.returned pool.deques t := by
      have balance := inv.balance t
      have same := countedOff t
      omega
    by_contra different
    have strict : (pool.deques i).returned.count t < (pool.deques i).pushed.count t := by omega
    have less := tally_lt_tally (fun j => (inv.sound j).returned_le t) strict
    omega

theorem Inv.settled_of_pending (inv : pool.Inv) (zero : pool.pending = 0) : pool.Settled := by
  refine inv.settled fun t => ?_
  have length := inv.pending
  exact (inv.countedOff_subperm.perm_of_length_le (by omega)).count_eq t

/-- A counted task has run exactly once when nothing is left. -/
theorem Inv.ran_once (inv : pool.Inv) (settled : pool.Settled) {t : Nat}
    (isCounted : t ∈ pool.counted) : pool.started.count t = 1 ∧ pool.ran.count t = 1 := by
  have once := List.count_eq_one_of_mem inv.counted_nodup isCounted
  have off := settled.countedOff t
  have started := inv.started t
  have ran := inv.ran t
  rw [tally_of_empty settled.running] at started
  rw [tally_of_empty fun i => (Worker.free_of_running (settled.running i)).1] at ran
  omega

/-- Without running tasks every task that was submitted by a task is counted. -/
theorem Inv.spawned_counted (inv : pool.Inv) (settled : pool.Settled) {link : Nat × Nat}
    (member : link ∈ pool.spawned) : link.2 ∈ pool.counted := by
  refine (inv.spawned link member).resolve_right fun ⟨i, isNamed⟩ => ?_
  rw [(Worker.free_of_running (settled.running i)).2.1] at isNamed
  cases isNamed

end Pool

/-- In every state of a pool `pending_` is the number of tasks counted by an `enqueue` and
not yet counted off. When it is zero, every container is empty, no worker has a task,
and every task whose `submit` returned, with all tasks it led to, has run exactly
once. -/
theorem wait_idle_joins (n m : Nat) (events : List (Pool.Event (Pool.size n) m)) :
    let pool := (Pool.initial n m).run events
    pool.pending = (pool.counted.filter (· ∉ pool.countedOff)).length ∧
      (∀ t, pool.countedOff.count t ≤ pool.ran.count t) ∧
      (pool.pending = 0 →
        (∀ i, (pool.deques i).live = []) ∧ pool.queue = [] ∧
        (∀ i, (pool.workers i).running = []) ∧
        ∀ root ∈ pool.submitted, ∀ t,
          Relation.ReflTransGen (fun parent child => (parent, child) ∈ pool.spawned) root t →
            pool.started.count t = 1 ∧ pool.ran.count t = 1) := by
  intro pool
  have inv : pool.Inv := Pool.run_inv events (Pool.Inv.initial n m)
  refine ⟨inv.pending_eq, fun t => ?_, fun zero => ?_⟩
  · have ran := inv.ran t
    omega
  · have settled := inv.settled_of_pending zero
    refine ⟨settled.deques, settled.queue, settled.running, fun root isRoot t reached => ?_⟩
    refine inv.ran_once settled ?_
    induction reached with
    | refl => exact inv.submitted root isRoot
    | tail _ link _ => exact inv.spawned_counted settled link

end FoundationsLab.WorkStealing
