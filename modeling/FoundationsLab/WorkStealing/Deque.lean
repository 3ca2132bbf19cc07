import Mathlib.Logic.Function.Basic
import Mathlib.Data.Int.Basic
import Mathlib.Tactic.Common

/-! # The Chase-Lev deque

`push`, `pop` and `steal` cut into their atomic steps: one load, store or
compare-exchange of `top_`, `bottom_`, `ring_` or a slot at a time. One owner and
any number of thieves take steps in any order. -/

namespace FoundationsLab.WorkStealing

variable {Task : Type}

/-! ## Rings -/

/-- The capacity is a power of two, so `i & mask` is `i % cap`. A slot that was
never written holds nothing. -/
structure Ring (Task : Type) where
  cap : Int
  slots : Int → Option Task

namespace Ring

def new (cap : Int) : Ring Task where
  cap := cap
  slots _ := none

def get (ring : Ring Task) (i : Int) : Option Task := ring.slots (i % ring.cap)

def put (ring : Ring Task) (i : Int) (x : Option Task) : Ring Task :=
  { ring with slots := Function.update ring.slots (i % ring.cap) x }

end Ring

/-! ## The shared memory -/

/-- All rings ever allocated, the one in `ring_` by its place: retired rings stay. -/
structure Deque (Task : Type) where
  top : Int
  bottom : Int
  rings : List (Ring Task)
  ring : Nat

namespace Deque

def new (cap : Int) : Deque Task where
  top := 0
  bottom := 0
  rings := [Ring.new cap]
  ring := 0

def slot (deque : Deque Task) (a : Nat) (i : Int) : Option Task :=
  (deque.rings[a]?).bind (·.get i)

def capacity (deque : Deque Task) (a : Nat) : Int := (deque.rings[a]?.map Ring.cap).getD 0

def putSlot (deque : Deque Task) (a : Nat) (i : Int) (x : Option Task) : Deque Task :=
  { deque with rings := deque.rings.modify a (·.put i x) }

/-- The old ring is retired. -/
def publish (deque : Deque Task) (na : Ring Task) : Deque Task :=
  { deque with rings := deque.rings ++ [na], ring := deque.rings.length }

end Deque

/-! ## Program counters -/

/-- Where the owner is, with its local variables. Each place is named after the step
that comes next. -/
inductive Owner (Task : Type) where
  | idle
  | pushTop (x : Task) (b : Int)
  | pushRing (x : Task) (b t : Int)
  | growGet (x : Task) (b t : Int) (a : Nat) (na : Ring Task) (i : Int)
  | growPut (x : Task) (b t : Int) (a : Nat) (na : Ring Task) (i : Int) (y : Option Task)
  | pushPut (x : Task) (b : Int) (a : Nat)
  | pushBottom (x : Task) (b : Int)
  | popRing (b : Int)
  | popBottom (b : Int) (a : Nat)
  | popTop (b : Int) (a : Nat)
  | popGet (b t : Int) (a : Nat)
  | popCas (b t : Int) (x : Option Task)
  | popRestore (b : Int) (x : Option Task)

inductive Thief (Task : Type) where
  | idle
  | stealBottom (t : Int)
  | stealRing (t : Int)
  | stealGet (t : Int) (a : Nat)
  | stealCas (t : Int) (x : Option Task)

/-- The deque with its users, the tasks pushed so far in order, and the tasks returned
by completed calls. -/
structure System (Task : Type) where
  deque : Deque Task
  owner : Owner Task
  thieves : Nat → Thief Task
  pushed : List Task
  returned : List Task

namespace System

def initial (cap : Int) : System Task where
  deque := .new cap
  owner := .idle
  thieves _ := .idle
  pushed := []
  returned := []

def goto (system : System Task) (owner : Owner Task) : System Task :=
  { system with owner := owner }

def setThief (system : System Task) (id : Nat) (thief : Thief Task) : System Task :=
  { system with thieves := Function.update system.thieves id thief }

def setTop (system : System Task) (top : Int) : System Task :=
  { system with deque := { system.deque with top := top } }

def setBottom (system : System Task) (bottom : Int) : System Task :=
  { system with deque := { system.deque with bottom := bottom } }

/-- A call completes with a task or with `nullptr`. -/
def give (system : System Task) (x : Option Task) : System Task :=
  { system with returned := system.returned ++ x.toList }

/-! ## The owner -/

/-- `push` begins with the load of `bottom_`. -/
def push (system : System Task) (x : Task) : System Task :=
  match system.owner with
  | .idle => system.goto (.pushTop x system.deque.bottom)
  | _ => system

/-- `pop` begins with the load of `bottom_`. -/
def pop (system : System Task) : System Task :=
  match system.owner with
  | .idle => system.goto (.popRing (system.deque.bottom - 1))
  | _ => system

def ownerStep (system : System Task) : System Task :=
  let deque := system.deque
  match system.owner with
  | .idle => system
  | .pushTop x b => system.goto (.pushRing x b deque.top)
  | .pushRing x b t =>
      let a := deque.ring
      let cap := deque.capacity a
      if b - t > cap - 1 then system.goto (.growGet x b t a (.new (cap * 2)) t)
      else system.goto (.pushPut x b a)
  | .growGet x b t a na i =>
      if i < b then system.goto (.growPut x b t a na i (deque.slot a i))
      else { system with
        deque := deque.publish na
        owner := .pushPut x b deque.rings.length }
  | .growPut x b t a na i y => system.goto (.growGet x b t a (na.put i y) (i + 1))
  | .pushPut x b a => { system with
      deque := deque.putSlot a b (some x)
      owner := .pushBottom x b }
  | .pushBottom x b => { system.setBottom (b + 1) with
      owner := .idle
      pushed := system.pushed ++ [x] }
  | .popRing b => system.goto (.popBottom b deque.ring)
  | .popBottom b a => (system.setBottom b).goto (.popTop b a)
  | .popTop b a =>
      let t := deque.top
      if t ≤ b then system.goto (.popGet b t a) else system.goto (.popRestore b none)
  | .popGet b t a =>
      let x := deque.slot a b
      if t = b then system.goto (.popCas b t x) else (system.give x).goto .idle
  | .popCas b t x =>
      if deque.top = t then (system.setTop (t + 1)).goto (.popRestore b x)
      else system.goto (.popRestore b none)
  | .popRestore b x => ((system.setBottom (b + 1)).give x).goto .idle

/-! ## Thieves -/

/-- `steal` begins with the load of `top_`. -/
def steal (system : System Task) (id : Nat) : System Task :=
  match system.thieves id with
  | .idle => system.setThief id (.stealBottom system.deque.top)
  | _ => system

def thiefStep (system : System Task) (id : Nat) : System Task :=
  let deque := system.deque
  match system.thieves id with
  | .idle => system
  | .stealBottom t =>
      if t < deque.bottom then system.setThief id (.stealRing t) else system.setThief id .idle
  | .stealRing t => system.setThief id (.stealGet t deque.ring)
  | .stealGet t a => system.setThief id (.stealCas t (deque.slot a t))
  | .stealCas t x =>
      if deque.top = t then ((system.setTop (t + 1)).give x).setThief id .idle
      else system.setThief id .idle

/-! ## Interleavings -/

inductive Event (Task : Type) where
  | push (x : Task)
  | pop
  | owner
  | steal (id : Nat)
  | thief (id : Nat)

/-- An event that is not possible changes nothing. -/
def step (system : System Task) : Event Task → System Task
  | .push x => system.push x
  | .pop => system.pop
  | .owner => system.ownerStep
  | .steal id => system.steal id
  | .thief id => system.thiefStep id

def run (system : System Task) (events : List (Event Task)) : System Task :=
  events.foldl step system

/-- No operation is in progress. -/
structure Quiescent (system : System Task) : Prop where
  owner : system.owner = .idle
  thieves : ∀ id, system.thieves id = .idle

end System

end FoundationsLab.WorkStealing
