import FoundationsLab.WorkStealing.Deque
import Mathlib.Data.Fintype.Basic

/-! # The thread pool

`submit`, `wait_idle`, `run` and the destructor of one pool, over the atomic steps of
its deques. Tasks are named by the order in which they are created. What a task does is
left open: while it runs it may submit any number of further tasks. -/

namespace FoundationsLab.WorkStealing

/-! ## Calls on a deque, one step at a time -/

namespace System

variable {Task : Type}

/-- What the step made a call return. -/
def given (before after : System Task) : Option Task :=
  (after.returned.drop before.returned.length).head?

/-- One step of the call `push(x)`, and whether the call has returned. -/
def pushStep (system : System Task) (x : Task) : System Task × Bool :=
  match system.owner with
  | .idle => (system.push x, false)
  | _ =>
      let after := system.ownerStep
      match after.owner with
      | .idle => (after, true)
      | _ => (after, false)

/-- One step of the call `pop()`, and the value once the call has returned. -/
def popStep (system : System Task) : System Task × Option (Option Task) :=
  match system.owner with
  | .idle => (system.pop, none)
  | _ =>
      let after := system.ownerStep
      match after.owner with
      | .idle => (after, some (system.given after))
      | _ => (after, none)

/-- One step of the call `steal()` of a thief, and the value once the call has returned. -/
def stealStep (system : System Task) (id : Nat) : System Task × Option (Option Task) :=
  match system.thieves id with
  | .idle => (system.steal id, none)
  | _ =>
      let after := system.thiefStep id
      match after.thieves id with
      | .idle => (after, some (system.given after))
      | _ => (after, none)

end System

/-! ## Program counters -/

/-- Where a running task is inside `submit`. -/
inductive Spawn where
  | none
  | count (child : Nat)
  | push (child : Nat)
  | notify (child : Nat)

/-- Where a worker is in `run`. Each place is named after the step that comes next. -/
inductive Worker (n : Nat) where
  | loop
  | pop
  | global
  | steal (tries : Nat)
  | stealing (tries : Nat) (victim : Fin n)
  | run (task : Nat) (spawn : Spawn)
  | finish (task : Nat)
  | sleep
  | exited

/-- Where an outside thread is in `submit` or `wait_idle`. -/
inductive Outside where
  | idle
  | count (task : Nat)
  | queue (task : Nat)
  | notify (task : Nat)
  | waiting
deriving DecidableEq

/-- The members of the pool, its threads, and a record of what happened: the tasks added
to `pending_`, started, run to the end and taken off `pending_` again, the tasks whose
`submit` returned, and which task submitted which. -/
structure Pool (n m : Nat) where
  deques : Fin n → System Nat
  workers : Fin n → Worker n
  threads : Fin m → Outside
  queue : List Nat
  done : Bool
  pending : Int
  steals : Nat
  created : Nat
  counted : List Nat
  started : List Nat
  ran : List Nat
  countedOff : List Nat
  submitted : List Nat
  spawned : List (Nat × Nat)

namespace Pool

/-- A pool has at least one worker. -/
def size (n : Nat) : Nat := if n = 0 then 1 else n

def initial (n m : Nat) : Pool (size n) m where
  deques _ := .initial 1024
  workers _ := .loop
  threads _ := .idle
  queue := []
  done := false
  pending := 0
  steals := 0
  created := 0
  counted := []
  started := []
  ran := []
  countedOff := []
  submitted := []
  spawned := []

variable {n m : Nat}

def setDeque (pool : Pool n m) (i : Fin n) (deque : System Nat) : Pool n m :=
  { pool with deques := Function.update pool.deques i deque }

def goto (pool : Pool n m) (i : Fin n) (worker : Worker n) : Pool n m :=
  { pool with workers := Function.update pool.workers i worker }

def setThread (pool : Pool n m) (k : Fin m) (thread : Outside) : Pool n m :=
  { pool with threads := Function.update pool.threads k thread }

/-- `pending_.fetch_add(1)` -/
def count (pool : Pool n m) (task : Nat) : Pool n m :=
  { pool with pending := pool.pending + 1, counted := pool.counted ++ [task] }

/-- `pending_.fetch_sub(1)` -/
def countOff (pool : Pool n m) (task : Nat) : Pool n m :=
  { pool with pending := pool.pending - 1, countedOff := pool.countedOff ++ [task] }

/-- `t->fn()` is entered. -/
def start (pool : Pool n m) (i : Fin n) (task : Nat) : Pool n m :=
  { pool.goto i (.run task .none) with started := pool.started ++ [task] }

/-! ## Outside threads -/

/-- An outside thread calls `submit`. No call comes once the pool is being destroyed. -/
def submit (pool : Pool n m) (k : Fin m) : Pool n m :=
  if pool.done then pool
  else
    match pool.threads k with
    | .idle => { pool.setThread k (.count pool.created) with created := pool.created + 1 }
    | _ => pool

def waitIdle (pool : Pool n m) (k : Fin m) : Pool n m :=
  if pool.done then pool
  else
    match pool.threads k with
    | .idle => pool.setThread k .waiting
    | _ => pool

def outsideStep (pool : Pool n m) (k : Fin m) : Pool n m :=
  match pool.threads k with
  | .idle => pool
  | .count task => (pool.count task).setThread k (.queue task)
  | .queue task => { pool.setThread k (.notify task) with queue := pool.queue ++ [task] }
  | .notify task => { pool.setThread k .idle with submitted := pool.submitted ++ [task] }
  | .waiting => if pool.pending = 0 then pool.setThread k .idle else pool

/-- The destructor is entered when no outside thread is inside a call. -/
def destroy (pool : Pool n m) : Pool n m :=
  if ∀ k, pool.threads k = .idle then { pool with done := true } else pool

/-! ## Workers -/

/-- A running task calls `submit`. -/
def spawn (pool : Pool n m) (i : Fin n) : Pool n m :=
  match pool.workers i with
  | .run task .none =>
      { pool.goto i (.run task (.count pool.created)) with
        created := pool.created + 1
        spawned := pool.spawned ++ [(task, pool.created)] }
  | _ => pool

/-- The rest of `submit` on a worker. Without a call in progress the task returns. -/
def runStep (pool : Pool n m) (i : Fin n) (task : Nat) : Spawn → Pool n m
  | .none => { pool.goto i (.finish task) with ran := pool.ran ++ [task] }
  | .count child => (pool.count child).goto i (.run task (.push child))
  | .push child =>
      match (pool.deques i).pushStep child with
      | (deque, false) => pool.setDeque i deque
      | (deque, true) => (pool.setDeque i deque).goto i (.run task (.notify child))
  | .notify child =>
      { pool.goto i (.run task .none) with submitted := pool.submitted ++ [child] }

/-- One step of worker `i`, where `pick` is the next random victim. -/
def workerStep (pool : Pool n m) (i pick : Fin n) : Pool n m :=
  match pool.workers i with
  | .loop => if pool.done then pool.goto i .exited else pool.goto i .pop
  | .pop =>
      match (pool.deques i).popStep with
      | (deque, none) => pool.setDeque i deque
      | (deque, some none) => (pool.setDeque i deque).goto i .global
      | (deque, some (some task)) => (pool.setDeque i deque).start i task
  | .global =>
      match pool.queue with
      | [] => pool.goto i (.steal 0)
      | task :: queue => { pool.start i task with queue := queue }
  | .steal tries =>
      if n ≤ 1 then pool.goto i .sleep
      else if tries < n * 2 then
        if pick = i then pool.goto i (.steal (tries + 1)) else pool.goto i (.stealing tries pick)
      else pool.goto i .sleep
  | .stealing tries victim =>
      match (pool.deques victim).stealStep i with
      | (deque, none) => pool.setDeque victim deque
      | (deque, some none) => (pool.setDeque victim deque).goto i (.steal (tries + 1))
      | (deque, some (some task)) =>
          { (pool.setDeque victim deque).start i task with steals := pool.steals + 1 }
  | .run task spawn => pool.runStep i task spawn
  | .finish task => (pool.countOff task).goto i .loop
  | .sleep => pool.goto i .loop
  | .exited => pool

/-! ## Interleavings -/

inductive Event (n m : Nat) where
  | submit (k : Fin m)
  | waitIdle (k : Fin m)
  | outside (k : Fin m)
  | spawn (i : Fin n)
  | worker (i pick : Fin n)
  | destroy

def step (pool : Pool n m) : Event n m → Pool n m
  | .submit k => pool.submit k
  | .waitIdle k => pool.waitIdle k
  | .outside k => pool.outsideStep k
  | .spawn i => pool.spawn i
  | .worker i pick => pool.workerStep i pick
  | .destroy => pool.destroy

def run (pool : Pool n m) (events : List (Event n m)) : Pool n m :=
  events.foldl step pool

end Pool

end FoundationsLab.WorkStealing
