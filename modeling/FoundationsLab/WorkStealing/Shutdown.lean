import FoundationsLab.WorkStealing.WaitIdle

/-! # Shutting a pool down

The destructor sets `done_` and joins the workers. A worker tests `done_` between two
tasks and leaves, whatever is still in the containers. What is there when the last
worker leaves is never run. -/

namespace FoundationsLab.WorkStealing

namespace Pool

variable {n m : Nat} {pool : Pool n m}

/-- The destructor has joined all workers. -/
def Joined (pool : Pool n m) : Prop := ∀ i, pool.workers i = .exited

/-- Every task of a call to `submit` has run exactly once. -/
def AllRan (pool : Pool n m) : Prop :=
  ∀ t < pool.created, pool.started.count t = 1 ∧ pool.ran.count t = 1

/-- Nothing is in the global queue or in a deque. -/
def Drained (pool : Pool n m) : Prop := pool.queue = [] ∧ ∀ i, (pool.deques i).live = []

/-- Worker `i` is the only one left and will leave at the test of `done_`. -/
structure LastExit (pool : Pool n m) (i : Fin n) : Prop where
  isLoop : pool.workers i = .loop
  done : pool.done = true
  others : ∀ j, j ≠ i → pool.workers j = .exited

/-! ## What a worker changes -/

/-- A worker leaves only at the test of `done_`. -/
theorem workerStep_frame (pool : Pool n m) (i pick : Fin n) :
    ∃ worker, (pool.workerStep i pick).workers = Function.update pool.workers i worker ∧
      (pool.workerStep i pick).done = pool.done ∧
      (pool.workerStep i pick).threads = pool.threads ∧
      (worker = .exited → pool.workers i = .exited ∨ pool.workers i = .loop ∧ pool.done = true) := by
  have stays : pool.workers = Function.update pool.workers i (pool.workers i) :=
    (Function.update_eq_self i _).symm
  cases here : pool.workers i with
  | exited =>
      have same : pool.workerStep i pick = pool := by rw [workerStep, here]
      rw [same]
      exact ⟨.exited, here ▸ stays, rfl, rfl, fun _ => .inl rfl⟩
  | loop =>
      rw [workerStep, here]
      dsimp only
      split
      · rename_i done
        exact ⟨.exited, rfl, rfl, rfl, fun _ => .inr ⟨rfl, done⟩⟩
      · exact ⟨.pop, rfl, rfl, rfl, fun equal => by cases equal⟩
  | pop =>
      rw [workerStep, here]
      dsimp only
      split
      · exact ⟨.pop, here ▸ stays, rfl, rfl, fun equal => by cases equal⟩
      · exact ⟨.global, rfl, rfl, rfl, fun equal => by cases equal⟩
      · exact ⟨.run _ .none, rfl, rfl, rfl, fun equal => by cases equal⟩
  | global =>
      rw [workerStep, here]
      dsimp only
      split
      · exact ⟨.steal 0, rfl, rfl, rfl, fun equal => by cases equal⟩
      · exact ⟨.run _ .none, rfl, rfl, rfl, fun equal => by cases equal⟩
  | steal tries =>
      rw [workerStep, here]
      dsimp only
      split
      · exact ⟨.sleep, rfl, rfl, rfl, fun equal => by cases equal⟩
      · split
        · split
          · exact ⟨.steal (tries + 1), rfl, rfl, rfl, fun equal => by cases equal⟩
          · exact ⟨.stealing tries pick, rfl, rfl, rfl, fun equal => by cases equal⟩
        · exact ⟨.sleep, rfl, rfl, rfl, fun equal => by cases equal⟩
  | stealing tries victim =>
      rw [workerStep, here]
      dsimp only
      split
      · exact ⟨.stealing tries victim, here ▸ stays, rfl, rfl, fun equal => by cases equal⟩
      · exact ⟨.steal (tries + 1), rfl, rfl, rfl, fun equal => by cases equal⟩
      · exact ⟨.run _ .none, rfl, rfl, rfl, fun equal => by cases equal⟩
  | run task spawn =>
      rw [workerStep, here]
      dsimp only
      cases spawn with
      | none => exact ⟨.finish task, rfl, rfl, rfl, fun equal => by cases equal⟩
      | count child => exact ⟨.run task (.push child), rfl, rfl, rfl, fun equal => by cases equal⟩
      | push child =>
          rw [runStep]
          split
          · exact ⟨.run task (.push child), here ▸ stays, rfl, rfl, fun equal => by cases equal⟩
          · exact ⟨.run task (.notify child), rfl, rfl, rfl, fun equal => by cases equal⟩
      | notify child => exact ⟨.run task .none, rfl, rfl, rfl, fun equal => by cases equal⟩
  | finish task =>
      rw [workerStep, here]
      exact ⟨.loop, rfl, rfl, rfl, fun equal => by cases equal⟩
  | sleep =>
      rw [workerStep, here]
      exact ⟨.loop, rfl, rfl, rfl, fun equal => by cases equal⟩

/-- A running task that calls `submit` keeps its worker. -/
theorem spawn_frame (pool : Pool n m) (i : Fin n) :
    ∃ worker, (pool.spawn i).workers = Function.update pool.workers i worker ∧
      (pool.spawn i).done = pool.done ∧ (pool.spawn i).threads = pool.threads ∧
      (worker = .exited → pool.workers i = .exited) := by
  rw [spawn]
  split
  · exact ⟨.run _ _, rfl, rfl, rfl, fun equal => by cases equal⟩
  · exact ⟨pool.workers i, (Function.update_eq_self i _).symm, rfl, rfl, id⟩

/-! ## After `done_` -/

/-- A worker has left only after `done_` was set, which happened outside all calls. -/
structure Closed (pool : Pool n m) : Prop where
  done : ∀ i, pool.workers i = .exited → pool.done = true
  threads : pool.done = true → ∀ k, pool.threads k = .idle

theorem Closed.initial (n m : Nat) : (initial n m).Closed where
  done _ isExited := nomatch isExited
  threads isDone := nomatch isDone

theorem Closed.update (closed : pool.Closed) {pool' : Pool n m} {i : Fin n} {worker : Worker n}
    (workers : pool'.workers = Function.update pool.workers i worker)
    (done : pool'.done = pool.done) (threads : pool'.threads = pool.threads)
    (exits : worker = .exited → pool.done = true) : pool'.Closed := by
  refine ⟨fun j isExited => ?_, fun isDone => ?_⟩
  · rw [done]
    rw [workers] at isExited
    by_cases same : j = i
    · rw [same, Function.update_self] at isExited
      exact exits isExited
    · rw [Function.update_of_ne same] at isExited
      exact closed.done j isExited
  · rw [threads]
    exact closed.threads (done ▸ isDone)

theorem Closed.step (closed : pool.Closed) (event : Event n m) : (pool.step event).Closed := by
  cases event with
  | submit k | waitIdle k =>
      simp only [Pool.step, submit, waitIdle]
      split
      · exact closed
      · rename_i open'
        split
        · exact ⟨closed.done, fun isDone => absurd isDone open'⟩
        · exact closed
  | outside k =>
      rw [Pool.step]
      by_cases isDone : pool.done = true
      · rw [outsideStep, closed.threads isDone k]
        exact closed
      · have same : (pool.outsideStep k).done = pool.done ∧
            (pool.outsideStep k).workers = pool.workers := by
          rw [outsideStep]
          split
          · exact ⟨rfl, rfl⟩
          · exact ⟨rfl, rfl⟩
          · exact ⟨rfl, rfl⟩
          · exact ⟨rfl, rfl⟩
          · split
            · exact ⟨rfl, rfl⟩
            · exact ⟨rfl, rfl⟩
        refine ⟨fun i isExited => ?_, fun isDone' => absurd (same.1 ▸ isDone') isDone⟩
        rw [same.1]
        rw [same.2] at isExited
        exact closed.done i isExited
  | spawn i =>
      obtain ⟨worker, workers, done, threads, exits⟩ := pool.spawn_frame i
      exact closed.update workers done threads fun isExited => closed.done i (exits isExited)
  | worker i pick =>
      obtain ⟨worker, workers, done, threads, exits⟩ := pool.workerStep_frame i pick
      exact closed.update workers done threads fun isExited =>
        (exits isExited).elim (closed.done i) And.right
  | destroy =>
      rw [Pool.step, destroy]
      split
      · rename_i idle
        exact ⟨fun _ _ => rfl, fun _ => idle⟩
      · exact closed

theorem Closed.run (events : List (Event n m)) (closed : pool.Closed) : (pool.run events).Closed := by
  induction events generalizing pool with
  | nil => exact closed
  | cons event events induction => exact induction (closed.step event)

/-! ## The last worker -/

/-- With no worker left nothing more happens to the tasks. -/
theorem AllRan.step_joined (allRan : pool.AllRan) (closed : pool.Closed) (joined : pool.Joined)
    (isDone : pool.done = true) (event : Event n m) : (pool.step event).AllRan := by
  cases event with
  | submit k =>
      rw [Pool.step, submit, if_pos isDone]
      exact allRan
  | waitIdle k =>
      rw [Pool.step, waitIdle, if_pos isDone]
      exact allRan
  | outside k =>
      rw [Pool.step, outsideStep, closed.threads isDone k]
      exact allRan
  | spawn i =>
      rw [Pool.step, spawn, joined i]
      exact allRan
  | worker i pick =>
      rw [Pool.step, workerStep, joined i]
      exact allRan
  | destroy =>
      rw [Pool.step, destroy]
      split
      · exact allRan
      · exact allRan

theorem joined_of_lastExit {i : Fin n} (last : pool.LastExit i) (pick : Fin n) :
    (pool.workerStep i pick).Joined := by
  rw [workerStep, last.isLoop]
  dsimp only
  rw [if_pos last.done]
  intro j
  show Function.update pool.workers i .exited j = .exited
  by_cases same : j = i
  · rw [same, Function.update_self]
  · rw [Function.update_of_ne same]
    exact last.others j same

/-- The step after which no worker is left is the last worker's test of `done_`. -/
theorem lastExit_of_joined {event : Event n m} (running : ¬ pool.Joined)
    (joined : (pool.step event).Joined) : ∃ i pick, event = .worker i pick ∧ pool.LastExit i := by
  have others : ∀ {i : Fin n} {worker : Worker n},
      (pool.step event).workers = Function.update pool.workers i worker →
        worker = .exited ∧ ∀ j, j ≠ i → pool.workers j = .exited := by
    intro i worker workers
    rw [Joined, workers] at joined
    refine ⟨?_, fun j different => ?_⟩
    · have self := joined i
      rwa [Function.update_self] at self
    · have other := joined j
      rwa [Function.update_of_ne different] at other
  cases event with
  | submit k | waitIdle k =>
      simp only [Pool.step, submit, waitIdle] at joined
      split at joined
      · exact absurd joined running
      · split at joined
        · exact absurd joined running
        · exact absurd joined running
  | outside k =>
      refine absurd (fun i => ?_) running
      have exited := joined i
      rw [Pool.step, outsideStep] at exited
      split at exited
      · exact exited
      · exact exited
      · exact exited
      · exact exited
      · split at exited
        · exact exited
        · exact exited
  | destroy =>
      refine absurd (fun i => ?_) running
      have exited := joined i
      rw [Pool.step, destroy] at exited
      split at exited
      · exact exited
      · exact exited
  | spawn i =>
      obtain ⟨worker, workers, -, -, exits⟩ := pool.spawn_frame i
      obtain ⟨isExited, rest⟩ := others workers
      refine absurd (fun j => ?_) running
      by_cases same : j = i
      · rw [same]
        exact exits isExited
      · exact rest j same
  | worker i pick =>
      obtain ⟨worker, workers, -, -, exits⟩ := pool.workerStep_frame i pick
      obtain ⟨isExited, rest⟩ := others workers
      rcases exits isExited with already | ⟨isLoop, done⟩
      · refine absurd (fun j => ?_) running
        by_cases same : j = i
        · rw [same]
          exact already
        · exact rest j same
      · exact ⟨i, pick, rfl, isLoop, done, rest⟩

/-- Everything has run when the last worker leaves empty containers behind. -/
theorem Inv.allRan_of_drained (inv : pool.Inv) (closed : pool.Closed) {i : Fin n}
    (last : pool.LastExit i) (drained : pool.Drained) : pool.AllRan := by
  have places : ∀ j, pool.workers j = .loop ∨ pool.workers j = .exited := by
    intro j
    by_cases same : j = i
    · exact .inl (same ▸ last.isLoop)
    · exact .inr (last.others j same)
  have running : ∀ j, (pool.workers j).running = [] := by
    intro j
    rcases places j with here | here
    · rw [here]
      rfl
    · rw [here]
      rfl
  have idle : ∀ j, (pool.deques j).owner = .idle := by
    intro j
    have uses := inv.owners j
    rcases places j with here | here
    · rw [here] at uses
      exact uses
    · rw [here] at uses
      exact uses
  have threads := closed.threads last.done
  have settled : pool.Settled := by
    refine inv.settled fun t => ?_
    have balance := inv.balance t
    have same : tally System.pushed pool.deques t = tally System.returned pool.deques t :=
      Finset.sum_congr rfl fun j _ => (inv.sound j).all_of_live (idle j) (drained.2 j) t
    have handing : tally Outside.handing pool.threads t = 0 :=
      tally_of_empty fun k => by rw [threads k]; rfl
    rw [tally_of_empty running, tally_of_empty fun j => (Worker.free_of_running (running j)).2.2,
      handing, drained.1, List.count_nil] at balance
    omega
  intro t early
  have names := inv.names t
  have naming : tally Outside.naming pool.threads t = 0 :=
    tally_of_empty fun k => by rw [threads k]; rfl
  rw [tally_of_empty fun j => (Worker.free_of_running (running j)).2.1, naming,
    if_pos early] at names
  exact inv.ran_once settled (List.count_pos_iff.mp (by omega))

/-- Nothing is left in the containers when everything has run. -/
theorem Inv.drained_of_allRan (inv : pool.Inv) (running : ∀ i, (pool.workers i).running = [])
    (allRan : pool.AllRan) : pool.Drained := by
  have settled : pool.Settled := by
    refine inv.settled fun t => ?_
    have names := inv.names t
    have started := inv.started t
    have subperm := inv.countedOff_subperm.count_le t
    rw [tally_of_empty running] at started
    split at names
    · rename_i early
      have once := (allRan t early).1
      omega
    · omega
  exact ⟨settled.queue, settled.deques⟩

theorem run_append (events events' : List (Event n m)) :
    pool.run (events ++ events') = (pool.run events).run events' :=
  List.foldl_append

theorem size_pos (n : Nat) : 0 < size n := by
  rw [size]
  split <;> omega

theorem not_joined_initial (n m : Nat) : ¬ (initial n m).Joined :=
  fun joined => nomatch joined ⟨0, size_pos n⟩

end Pool

/-- In a run of a pool whose destructor is entered outside all calls, all submitted tasks
have run exactly once whenever the workers are joined, if and only if the last worker
always finds the containers empty when it leaves. -/
theorem shutdown_drops_nothing_iff (n m : Nat) (events : List (Pool.Event (Pool.size n) m)) :
    (∀ before, before <+: events →
        ((Pool.initial n m).run before).Joined → ((Pool.initial n m).run before).AllRan) ↔
      ∀ before i pick, before ++ [.worker i pick] <+: events →
        ((Pool.initial n m).run before).LastExit i → ((Pool.initial n m).run before).Drained := by
  constructor
  · intro runsAll before i pick inside last
    have inv := Pool.run_inv before (Pool.Inv.initial n m)
    have after : (Pool.initial n m).run (before ++ [.worker i pick]) =
        ((Pool.initial n m).run before).workerStep i pick := Pool.run_append ..
    have joined := Pool.joined_of_lastExit last pick
    have allRan := runsAll _ inside (after ▸ joined)
    rw [after] at allRan
    have drained := (Pool.workerStep_inv inv i pick).drained_of_allRan
      (fun j => by rw [joined j]; rfl) allRan
    -- Leaving the loop changes no container.
    rw [Pool.workerStep, last.isLoop] at drained
    dsimp only at drained
    rw [if_pos last.done] at drained
    exact drained
  · intro drains before
    induction before using List.reverseRecOn with
    | nil => exact fun _ joined => absurd joined (Pool.not_joined_initial n m)
    | append_singleton before event induction =>
        intro inside joined
        have inv := Pool.run_inv before (Pool.Inv.initial n m)
        have closed := (Pool.Closed.initial n m).run before
        rw [Pool.run_append] at joined ⊢
        by_cases already : ((Pool.initial n m).run before).Joined
        · have allRan := induction ((List.prefix_append _ _).trans inside) already
          exact allRan.step_joined closed already (closed.done ⟨0, Pool.size_pos n⟩ (already _)) event
        · obtain ⟨i, pick, rfl, last⟩ := Pool.lastExit_of_joined already joined
          have allRan := inv.allRan_of_drained closed last (drains before i pick inside last)
          show (((Pool.initial n m).run before).workerStep i pick).AllRan
          rw [Pool.workerStep, last.isLoop]
          dsimp only
          rw [if_pos last.done]
          exact allRan

/-- One task is submitted and the destructor is entered before the worker has looked for
work: the worker leaves, and the task stays in the global queue. -/
theorem shutdown_drops_queued_task :
    ¬ ∀ (n m : Nat) (events : List (Pool.Event (Pool.size n) m)),
      ((Pool.initial n m).run events).Joined → ((Pool.initial n m).run events).AllRan := by
  intro claim
  let first : Fin (Pool.size 1) := ⟨0, by decide⟩
  have only : ∀ i, i = first := fun i => Fin.ext (Nat.lt_one_iff.mp i.isLt)
  have allRan := claim 1 1
    [.submit 0, .outside 0, .outside 0, .outside 0, .destroy, .worker first first]
    fun i => by rw [only i]; rfl
  exact absurd (allRan 0 (by decide)).1 (by decide)

end FoundationsLab.WorkStealing
