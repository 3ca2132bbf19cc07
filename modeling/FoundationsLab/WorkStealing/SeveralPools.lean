import Mathlib.Logic.Function.Basic
import Mathlib.Data.Int.Basic
import Mathlib.Data.List.Induction
import Mathlib.Tactic.Common

/-! # Several pools

Pools that are alive together, with all their workers and any outside threads. The
routing in `enqueue` reads `worker_id_`, which every thread has once, for all pools.
Here the deques are lists: what matters is which thread works on which of them. -/

namespace FoundationsLab.WorkStealing

inductive Thread where
  | outside (k : Nat)
  | worker (pool i : Nat)
deriving DecidableEq

/-- Where a thread is in `run`. Each place is named after the step that comes next. -/
inductive Activity where
  | outside
  | absent
  | start
  | loop
  | pop
  | global
  | steal (tries : Nat)
  | run (task : Nat)
  | finish (task : Nat)
  | sleep

/-- Where a thread is in `submit` on the pool `target`. -/
inductive Enqueue where
  | count (target task : Nat)
  | route (target task : Nat)
  | push (target index task : Nat)
  | queue (target task : Nat)
  | notify (target : Nat)
deriving DecidableEq

/-- The arguments of the constructors, the members of each pool, and what each thread
has of its own. The pools are alive, so no `done_` is set. -/
structure Pools where
  arguments : List Nat
  deques : Nat → Nat → List Nat
  queues : Nat → List Nat
  pending : Nat → Int
  workerId : Thread → Int
  activity : Thread → Activity
  call : Thread → Option Enqueue
  created : Nat

namespace Pools

/-- The size of the deque vector: at least one worker for each pool. -/
def size (arguments : List Nat) (q : Nat) : Nat :=
  match arguments[q]? with
  | some n => if n = 0 then 1 else n
  | none => 0

def initial (arguments : List Nat) : Pools where
  arguments := arguments
  deques _ _ := []
  queues _ := []
  pending _ := 0
  workerId _ := -1
  activity
    | .outside _ => .outside
    | .worker q i => if i < size arguments q then .start else .absent
  call _ := none
  created := 0

def goto (pools : Pools) (thread : Thread) (activity : Activity) : Pools :=
  { pools with activity := Function.update pools.activity thread activity }

def setCall (pools : Pools) (thread : Thread) (call : Option Enqueue) : Pools :=
  { pools with call := Function.update pools.call thread call }

def setDeque (pools : Pools) (q i : Nat) (deque : List Nat) : Pools :=
  { pools with deques := Function.update pools.deques q (Function.update (pools.deques q) i deque) }

def setQueue (pools : Pools) (q : Nat) (queue : List Nat) : Pools :=
  { pools with queues := Function.update pools.queues q queue }

def addPending (pools : Pools) (q : Nat) (change : Int) : Pools :=
  { pools with pending := Function.update pools.pending q (pools.pending q + change) }

/-- A call to `submit` on an existing pool, by an outside thread or inside a task. -/
def submit (pools : Pools) (thread : Thread) (target : Nat) : Pools :=
  if target < pools.arguments.length then
    match pools.call thread, pools.activity thread with
    | none, .outside | none, .run _ =>
        { pools.setCall thread (some (.count target pools.created)) with
          created := pools.created + 1 }
    | _, _ => pools
  else pools

def enqueueStep (pools : Pools) (thread : Thread) : Enqueue → Pools
  | .count target task => (pools.addPending target 1).setCall thread (some (.route target task))
  | .route target task =>
      if 0 ≤ pools.workerId thread then
        pools.setCall thread (some (.push target (pools.workerId thread).toNat task))
      else pools.setCall thread (some (.queue target task))
  | .push target index task =>
      (pools.setDeque target index (pools.deques target index ++ [task])).setCall thread
        (some (.notify target))
  | .queue target task =>
      (pools.setQueue target (pools.queues target ++ [task])).setCall thread (some (.notify target))
  | .notify _ => pools.setCall thread none

/-- A step of `run(i)` of pool `q`, where `pick` is the next random victim. -/
def runStep (pools : Pools) (q i pick : Nat) : Pools :=
  let thread := Thread.worker q i
  let n := size pools.arguments q
  match pools.activity thread with
  | .outside | .absent => pools
  | .start =>
      { pools.goto thread .loop with workerId := Function.update pools.workerId thread i }
  | .loop => pools.goto thread .pop
  | .pop =>
      match (pools.deques q i).getLast? with
      | some task => (pools.setDeque q i (pools.deques q i).dropLast).goto thread (.run task)
      | none => pools.goto thread .global
  | .global =>
      match pools.queues q with
      | task :: queue => (pools.setQueue q queue).goto thread (.run task)
      | [] => pools.goto thread (.steal 0)
  | .steal tries =>
      if n ≤ 1 then pools.goto thread .sleep
      else if tries < n * 2 then
        if pick % n = i then pools.goto thread (.steal (tries + 1))
        else
          match pools.deques q (pick % n) with
          | task :: deque => (pools.setDeque q (pick % n) deque).goto thread (.run task)
          | [] => pools.goto thread (.steal (tries + 1))
      else pools.goto thread .sleep
  | .run task => pools.goto thread (.finish task)
  | .finish _ => (pools.addPending q (-1)).goto thread .loop
  | .sleep => pools.goto thread .loop

/-- A thread that is not inside `submit`. -/
def freeStep (pools : Pools) (pick : Nat) : Thread → Pools
  | .worker q i => pools.runStep q i pick
  | .outside _ => pools

def threadStep (pools : Pools) (thread : Thread) (pick : Nat) : Pools :=
  match pools.call thread with
  | some enqueue => pools.enqueueStep thread enqueue
  | none => pools.freeStep pick thread

inductive Event where
  | submit (thread : Thread) (target : Nat)
  | thread (thread : Thread) (pick : Nat)

def step (pools : Pools) : Event → Pools
  | .submit thread target => pools.submit thread target
  | .thread thread pick => pools.threadStep thread pick

def run (pools : Pools) (events : List Event) : Pools := events.foldl step pools

/-! ## Who works on which deque -/

/-- The thread executes `push` or `pop` on deque `i` of pool `q`. -/
inductive Executes (pools : Pools) (thread : Thread) (q i : Nat) : Prop where
  | push (task : Nat) (isCall : pools.call thread = some (.push q i task))
  | pop (isWorker : thread = .worker q i) (isActivity : pools.activity thread = .pop)

/-- Only worker `i` of a pool is at the owner's end of deque `i`, which exists. -/
def SingleOwner (pools : Pools) : Prop :=
  ∀ thread q i, pools.Executes thread q i → thread = .worker q i ∧ i < size pools.arguments q

/-! ## One thread at a time -/

/-- The identity of each thread: outside threads have none, and a worker that is past its
first step has its index. -/
def ThreadInv (pools : Pools) : Thread → Prop
  | .outside k => pools.workerId (.outside k) = -1
  | .worker q i =>
      (i < size pools.arguments q ∧ (pools.workerId (.worker q i) = i ∨
        pools.activity (.worker q i) = .start ∧ pools.call (.worker q i) = none)) ∨
      (pools.activity (.worker q i) = .absent ∧ pools.call (.worker q i) = none)

structure Inv (pools : Pools) : Prop where
  threads : ∀ thread, pools.ThreadInv thread
  single : pools.SingleOwner

theorem Inv.initial (arguments : List Nat) : (initial arguments).Inv := by
  refine ⟨fun thread => ?_, fun thread q i executes => ?_⟩
  · cases thread with
    | outside k => rfl
    | worker q i =>
        by_cases inside : i < size arguments q
        · exact .inl ⟨inside, .inr ⟨if_pos inside, rfl⟩⟩
        · exact .inr ⟨if_neg inside, rfl⟩
  · cases executes with
    | push task isCall => cases isCall
    | pop isWorker isActivity =>
        subst isWorker
        have here : (if i < size arguments q then Activity.start else .absent) = .pop := isActivity
        split at here <;> cases here

/-- Only this thread has moved. -/
structure Frame (pools pools' : Pools) (thread : Thread) : Prop where
  arguments : pools'.arguments = pools.arguments
  workerId : ∀ other, other ≠ thread → pools'.workerId other = pools.workerId other
  activity : ∀ other, other ≠ thread → pools'.activity other = pools.activity other
  call : ∀ other, other ≠ thread → pools'.call other = pools.call other

variable {pools pools' : Pools} {thread : Thread}

theorem ThreadInv.congr {other : Thread} (inv : pools.ThreadInv other)
    (arguments : pools'.arguments = pools.arguments)
    (workerId : pools'.workerId other = pools.workerId other)
    (activity : pools'.activity other = pools.activity other)
    (call : pools'.call other = pools.call other) : pools'.ThreadInv other := by
  cases other with
  | outside k => exact workerId.trans inv
  | worker q i =>
      rw [ThreadInv, arguments, workerId, activity, call]
      exact inv

theorem Inv.of_frame (inv : pools.Inv) (thread : Thread) (frame : Frame pools pools' thread)
    (isThread : pools'.ThreadInv thread)
    (single : ∀ q i, pools'.Executes thread q i →
      thread = .worker q i ∧ i < size pools.arguments q) : pools'.Inv := by
  refine ⟨fun other => ?_, fun other q i executes => ?_⟩
  · by_cases same : other = thread
    · rw [same]
      exact isThread
    · exact (inv.threads other).congr frame.arguments (frame.workerId other same)
        (frame.activity other same) (frame.call other same)
  · rw [frame.arguments]
    by_cases same : other = thread
    · rw [same] at executes ⊢
      exact single q i executes
    · cases executes with
      | push task isCall => exact inv.single other q i (.push task (frame.call other same ▸ isCall))
      | pop isWorker isActivity =>
          exact inv.single other q i (.pop isWorker (frame.activity other same ▸ isActivity))

/-- A thread inside `submit` has its final identity. -/
theorem ThreadInv.of_call {q i : Nat} (inv : pools.ThreadInv (.worker q i))
    (isCall : pools.call (.worker q i) ≠ none) :
    i < size pools.arguments q ∧ pools.workerId (.worker q i) = i := by
  rcases inv with ⟨inside, isIndex | ⟨-, noCall⟩⟩ | ⟨-, noCall⟩
  · exact ⟨inside, isIndex⟩
  · exact absurd noCall isCall
  · exact absurd noCall isCall

/-! ## The steps -/

theorem submit_inv (inv : pools.Inv) (thread : Thread) (target : Nat) :
    (pools.submit thread target).Inv := by
  rw [submit]
  split
  · have begun : pools.activity thread ≠ .pop → pools.activity thread ≠ .start →
        pools.activity thread ≠ .absent →
        Inv { pools.setCall thread (some (.count target pools.created)) with
          created := pools.created + 1 } := by
      intro notPop notStart notAbsent
      refine inv.of_frame thread
        ⟨rfl, fun _ _ => rfl, fun _ _ => rfl, fun _ different => Function.update_of_ne different ..⟩
        ?_ fun q i executes => ?_
      · have known := inv.threads thread
        cases thread with
        | outside k => exact known
        | worker q i =>
            rcases known with ⟨inside, isIndex | ⟨isStart, -⟩⟩ | ⟨isAbsent, -⟩
            · exact .inl ⟨inside, .inl isIndex⟩
            · exact absurd isStart notStart
            · exact absurd isAbsent notAbsent
      · cases executes with
        | push task isCall =>
            have here : Function.update pools.call thread (some (.count target pools.created))
                thread = some (.push q i task) := isCall
            rw [Function.update_self] at here
            cases here
        | pop isWorker isActivity => exact absurd isActivity notPop
    split
    · rename_i isActivity
      exact begun (by rw [isActivity]; nofun) (by rw [isActivity]; nofun) (by rw [isActivity]; nofun)
    · rename_i isActivity
      exact begun (by rw [isActivity]; nofun) (by rw [isActivity]; nofun) (by rw [isActivity]; nofun)
    · exact inv
  · exact inv

/-- The call goes on: what is executed next is `push` only after the routing. -/
theorem enqueueStep_inv (inv : pools.Inv) {enqueue : Enqueue}
    (isCall : pools.call thread = some enqueue)
    (own : ∀ p i target task, thread = .worker p i → enqueue = .route target task → target = p) :
    (pools.enqueueStep thread enqueue).Inv := by
  have goes : ∀ (pools' : Pools) (call : Option Enqueue), pools'.arguments = pools.arguments →
      pools'.workerId = pools.workerId → pools'.activity = pools.activity →
      pools'.call = Function.update pools.call thread call →
      (∀ q i task, call = some (.push q i task) →
        thread = .worker q i ∧ i < size pools.arguments q) → pools'.Inv := by
    intro pools' call arguments workerId activity isCall' single
    refine inv.of_frame thread ⟨arguments, fun other _ => congrFun workerId other,
      fun other _ => congrFun activity other, fun other different => ?_⟩ ?_ fun q i executes => ?_
    · rw [isCall', Function.update_of_ne different]
    · have known := inv.threads thread
      cases thread with
      | outside k => exact (congrFun workerId _).trans known
      | worker q i =>
          obtain ⟨inside, isIndex⟩ := known.of_call (by rw [isCall]; nofun)
          exact .inl ⟨arguments ▸ inside, .inl ((congrFun workerId _).trans isIndex)⟩
    · cases executes with
      | push task isPush =>
          rw [isCall', Function.update_self] at isPush
          exact single q i task isPush
      | pop isWorker isActivity =>
          exact inv.single thread q i (.pop isWorker (congrFun activity thread ▸ isActivity))
  cases enqueue with
  | count target task => exact goes _ _ rfl rfl rfl rfl nofun
  | push target index task => exact goes _ _ rfl rfl rfl rfl nofun
  | queue target task => exact goes _ _ rfl rfl rfl rfl nofun
  | notify target => exact goes _ _ rfl rfl rfl rfl nofun
  | route target task =>
      rw [enqueueStep]
      split
      · rename_i isWorker
        refine goes _ _ rfl rfl rfl rfl fun q i task' isPush => ?_
        cases isPush
        have known := inv.threads thread
        cases thread with
        | outside k =>
            have isOutside : pools.workerId (.outside k) = -1 := known
            omega
        | worker p i =>
            obtain ⟨inside, isIndex⟩ := known.of_call (by rw [isCall]; nofun)
            obtain rfl := own p i target task rfl rfl
            rw [isIndex, Int.toNat_natCast]
            exact ⟨rfl, inside⟩
      · exact goes _ _ rfl rfl rfl rfl nofun

/-- What a step of `run` does to the worker itself. -/
theorem runStep_frame (pools : Pools) (q i pick : Nat) :
    pools.runStep q i pick = pools ∨
    (pools.activity (.worker q i) ≠ .absent ∧
      (pools.runStep q i pick).arguments = pools.arguments ∧
      (pools.runStep q i pick).call = pools.call ∧
      (∃ activity, activity ≠ .start ∧ activity ≠ .absent ∧
        (pools.runStep q i pick).activity =
          Function.update pools.activity (.worker q i) activity) ∧
      ((pools.runStep q i pick).workerId = Function.update pools.workerId (.worker q i) i ∨
        pools.activity (.worker q i) ≠ .start ∧
          (pools.runStep q i pick).workerId = pools.workerId)) := by
  cases here : pools.activity (.worker q i) with
  | outside =>
      left
      rw [runStep, here]
  | absent =>
      left
      rw [runStep, here]
  | start =>
      right
      rw [runStep, here]
      exact ⟨nofun, rfl, rfl, ⟨.loop, nofun, nofun, rfl⟩, .inl rfl⟩
  | loop =>
      right
      rw [runStep, here]
      exact ⟨nofun, rfl, rfl, ⟨.pop, nofun, nofun, rfl⟩, .inr ⟨nofun, rfl⟩⟩
  | pop =>
      right
      rw [runStep, here]
      dsimp only
      split
      · exact ⟨nofun, rfl, rfl, ⟨.run _, nofun, nofun, rfl⟩, .inr ⟨nofun, rfl⟩⟩
      · exact ⟨nofun, rfl, rfl, ⟨.global, nofun, nofun, rfl⟩, .inr ⟨nofun, rfl⟩⟩
  | global =>
      right
      rw [runStep, here]
      dsimp only
      split
      · exact ⟨nofun, rfl, rfl, ⟨.run _, nofun, nofun, rfl⟩, .inr ⟨nofun, rfl⟩⟩
      · exact ⟨nofun, rfl, rfl, ⟨.steal 0, nofun, nofun, rfl⟩, .inr ⟨nofun, rfl⟩⟩
  | steal tries =>
      right
      rw [runStep, here]
      dsimp only
      split
      · exact ⟨nofun, rfl, rfl, ⟨.sleep, nofun, nofun, rfl⟩, .inr ⟨nofun, rfl⟩⟩
      · split
        · split
          · exact ⟨nofun, rfl, rfl, ⟨.steal _, nofun, nofun, rfl⟩, .inr ⟨nofun, rfl⟩⟩
          · split
            · exact ⟨nofun, rfl, rfl, ⟨.run _, nofun, nofun, rfl⟩, .inr ⟨nofun, rfl⟩⟩
            · exact ⟨nofun, rfl, rfl, ⟨.steal _, nofun, nofun, rfl⟩, .inr ⟨nofun, rfl⟩⟩
        · exact ⟨nofun, rfl, rfl, ⟨.sleep, nofun, nofun, rfl⟩, .inr ⟨nofun, rfl⟩⟩
  | run task =>
      right
      rw [runStep, here]
      exact ⟨nofun, rfl, rfl, ⟨.finish task, nofun, nofun, rfl⟩, .inr ⟨nofun, rfl⟩⟩
  | finish task =>
      right
      rw [runStep, here]
      exact ⟨nofun, rfl, rfl, ⟨.loop, nofun, nofun, rfl⟩, .inr ⟨nofun, rfl⟩⟩
  | sleep =>
      right
      rw [runStep, here]
      exact ⟨nofun, rfl, rfl, ⟨.loop, nofun, nofun, rfl⟩, .inr ⟨nofun, rfl⟩⟩

theorem runStep_inv (inv : pools.Inv) {q i : Nat} (pick : Nat)
    (noCall : pools.call (.worker q i) = none) : (pools.runStep q i pick).Inv := by
  rcases pools.runStep_frame q i pick with same |
    ⟨notAbsent, arguments, call, ⟨activity, notStart, notAbsent', isActivity⟩, identity⟩
  · rw [same]
    exact inv
  have known := inv.threads (.worker q i)
  have inside : i < size pools.arguments q := by
    rcases known with ⟨inside, -⟩ | ⟨isAbsent, -⟩
    · exact inside
    · exact absurd isAbsent notAbsent
  refine inv.of_frame (.worker q i) ⟨arguments, fun other different => ?_,
    fun other different => ?_, fun other _ => congrFun call other⟩ ?_ fun p j executes => ?_
  · rcases identity with workerId | ⟨-, workerId⟩
    · rw [workerId, Function.update_of_ne different]
    · rw [workerId]
  · rw [isActivity, Function.update_of_ne different]
  · refine .inl ⟨arguments ▸ inside, .inl ?_⟩
    rcases identity with workerId | ⟨old, workerId⟩
    · rw [workerId, Function.update_self]
    · rw [workerId]
      rcases known with ⟨-, isIndex | ⟨isStart, -⟩⟩ | ⟨isAbsent, -⟩
      · exact isIndex
      · exact absurd isStart old
      · exact absurd isAbsent notAbsent
  · cases executes with
    | push task isCall =>
        rw [call, noCall] at isCall
        cases isCall
    | pop isWorker _ =>
        cases isWorker
        exact ⟨rfl, inside⟩

/-! ## Runs -/

/-- If the event is the routing of a call to `submit` on a worker, the call is on the pool
of this worker. -/
def OwnPool (pools : Pools) (event : Event) : Prop :=
  ∀ p i pick target task, event = .thread (.worker p i) pick →
    pools.call (.worker p i) = some (.route target task) → target = p

theorem step_inv (inv : pools.Inv) {event : Event} (own : pools.OwnPool event) :
    (pools.step event).Inv := by
  cases event with
  | submit thread target => exact submit_inv inv thread target
  | thread thread pick =>
      rw [step, threadStep]
      split
      · rename_i enqueue isCall
        refine enqueueStep_inv inv isCall fun p i target task isWorker isRoute => ?_
        subst isWorker isRoute
        exact own p i pick target task rfl isCall
      · rename_i noCall
        cases thread with
        | outside k => exact inv
        | worker q i => exact runStep_inv inv pick noCall

theorem run_append (pools : Pools) (events events' : List Event) :
    pools.run (events ++ events') = (pools.run events).run events' :=
  List.foldl_append

/-- A worker that routes a call on another pool gets to that pool's deque. -/
theorem ownPool_of_single {event : Event} (inv : pools.Inv)
    (single : (pools.step event).SingleOwner) : pools.OwnPool event := by
  rintro p i pick target task rfl isCall
  obtain ⟨-, isIndex⟩ := (inv.threads (.worker p i)).of_call (by rw [isCall]; nofun)
  have isPush : (pools.step (.thread (.worker p i) pick)).call (.worker p i) =
      some (.push target i task) := by
    rw [step, threadStep, isCall]
    dsimp only
    rw [enqueueStep, isIndex, if_pos (Int.natCast_nonneg i), Int.toNat_natCast]
    exact Function.update_self ..
  obtain ⟨isWorker, -⟩ := single _ _ _ (.push task isPush)
  cases isWorker
  rfl

end Pools

/-- With any number of pools, in every state of a run the deques are used by their owners
only, if and only if every task that calls `submit` does so on the pool that runs
it. -/
theorem single_owner_iff (arguments : List Nat) (events : List Pools.Event) :
    (∀ before, before <+: events → ((Pools.initial arguments).run before).SingleOwner) ↔
      ∀ before event, before ++ [event] <+: events →
        ((Pools.initial arguments).run before).OwnPool event := by
  have run_inv : ∀ before, (∀ earlier event, earlier ++ [event] <+: before →
      ((Pools.initial arguments).run earlier).OwnPool event) →
      ((Pools.initial arguments).run before).Inv := by
    intro before
    induction before using List.reverseRecOn with
    | nil => exact fun _ => Pools.Inv.initial arguments
    | append_singleton before event induction =>
        intro own
        have inv := induction fun earlier other inside =>
          own earlier other (inside.trans (List.prefix_append _ _))
        rw [Pools.run_append]
        exact Pools.step_inv inv (own before event (List.prefix_refl _))
  constructor
  · intro single
    -- Up to the first call on another pool the invariant holds.
    have own : ∀ before, before <+: events → ∀ earlier event, earlier ++ [event] <+: before →
        ((Pools.initial arguments).run earlier).OwnPool event := by
      intro before
      induction before using List.reverseRecOn with
      | nil =>
          intro _ earlier event inside
          have empty := List.prefix_nil.mp inside
          simp at empty
      | append_singleton before last induction =>
          intro whole earlier event inside
          have shorter := (List.prefix_append before [last]).trans whole
          rcases List.prefix_concat_iff.mp inside with same | inside
          · obtain ⟨rfl, isLast⟩ := List.append_inj' same rfl
            cases isLast
            have inv := run_inv earlier (induction shorter)
            refine Pools.ownPool_of_single inv ?_
            have after := single _ whole
            rw [Pools.run_append] at after
            exact after
          · exact induction shorter earlier event inside
    intro before event inside
    exact own _ inside before event (List.prefix_refl _)
  · intro own before inside
    exact (run_inv before fun earlier event early => own earlier event (early.trans inside)).single

/-- A task on worker 1 of a pool of two submits to a pool with one worker: the push goes to
a deque with index 1, which that pool does not have. -/
theorem foreign_submit_breaks_single_owner :
    ¬ ∀ (arguments : List Nat) (events : List Pools.Event),
      ((Pools.initial arguments).run events).SingleOwner := by
  intro claim
  let outside := Thread.outside 0
  let worker := Thread.worker 1 1
  let events : List Pools.Event := [.submit outside 1, .thread outside 0, .thread outside 0,
    .thread outside 0, .thread outside 0, .thread worker 0, .thread worker 0, .thread worker 0,
    .thread worker 0, .submit worker 0, .thread worker 0, .thread worker 0]
  have isPush : ((Pools.initial [1, 2]).run events).call worker = some (.push 0 1 1) := by
    decide +kernel
  exact absurd (claim [1, 2] events worker 0 1 (.push 1 isPush)).1 (by decide)

end FoundationsLab.WorkStealing
