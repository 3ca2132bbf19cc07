import FoundationsLab.Foundation.Generators
import Mathlib.Logic.Function.Basic

/-! The bookkeeping of `coroutine.c` around the context switch. A stack that is
not running is parked in some call of `co_switch`; all that the C code sees of it
is the stack pointer that was saved for it. What the switch does with registers
and memory is another matter; here it leaves the caller on its stack and
continues whatever is parked where the restored pointer points. -/

namespace FoundationsLab
namespace Coroutines

/-- A `coroutine *`, by order of creation. -/
abbrev Co := Nat

/-- `long` -/
abbrev Value := Int64

inductive Stack where
  | main
  | coroutine (co : Co)
  deriving DecidableEq, Repr

/-- A saved stack pointer: the stack it points into, and which switch it was
saved by. It is of use only while that stack is still parked in that switch. -/
structure Pointer where
  stack : Stack
  stamp : Nat
  deriving DecidableEq, Repr

/-- Where a parked stack continues, with the locals that its C code still needs. -/
inductive Frame where
  /-- the frame that `co_create` builds -/
  | trampoline
  /-- in `co_resume`, after its switch -/
  | resume (co : Co) (prev : Option Co)
  /-- in `co_yield`, after its switch -/
  | yield (co : Co)
  /-- in `co_trampoline`, at `__builtin_unreachable` -/
  | unreachable
  deriving DecidableEq, Repr

structure Coroutine where
  sp : Pointer
  callerSp : Option Pointer
  value : Value
  done : Bool
  started : Bool
  deriving DecidableEq, Repr

/-- `none` in `coroutines` is a coroutine that was freed. `self` is the local of
`co_trampoline` on each coroutine's stack. -/
structure State where
  coroutines : List (Option Coroutine)
  gCurrent : Option Co
  stack : Stack
  parked : Stack → Option (Nat × Frame)
  self : Co → Option Co
  clock : Nat

/-- What the code that is running asks for. `finish` is the return of a
coroutine's `fn`. -/
inductive Action where
  | create
  | resume (co : Co) (input : Value)
  | yield (value : Value)
  | finish
  | destroy (co : Co)
  deriving DecidableEq, Repr

/-- What happens next on the stack that is running afterwards: a call returns, or
`self->fn` is entered. -/
inductive Outcome where
  | created (co : Co)
  | started (self : Co)
  | resumeReturns (co : Co) (value : Value)
  | yieldReturns (co : Co) (value : Value)
  | destroyed (co : Co)
  deriving DecidableEq, Repr

namespace State

def initial : State where
  coroutines := []
  gCurrent := none
  stack := .main
  parked _ := none
  self _ := none
  clock := 0

/-- `*co`; there is none behind a pointer that was freed. -/
def deref (state : State) (co : Co) : Option Coroutine :=
  state.coroutines[co]?.join

def assign (state : State) (co : Co) (value : Coroutine) : State :=
  { state with coroutines := state.coroutines.set co (some value) }

def setCurrent (state : State) (co : Option Co) : State :=
  { state with gCurrent := co }

/-- Park the running stack as `frame` says and go on with another one. -/
def moveTo (state : State) (frame : Frame) (stack : Stack) : State :=
  { state with
    stack := stack
    parked := Function.update
      (Function.update state.parked state.stack (some (state.clock, frame))) stack none
    clock := state.clock + 1 }

end State

/-- The field that `save_sp` points to. -/
inductive Slot where
  | sp
  | callerSp

def Slot.store (pointer : Pointer) (co : Coroutine) : Slot → Coroutine
  | .sp => { co with sp := pointer }
  | .callerSp => { co with callerSp := some pointer }

/-- `co_switch(&co->slot, restore)`, called from where `frame` says. The stack it
leaves is parked; the one it enters is parked no longer. -/
def coSwitch (state : State) (frame : Frame) (slot : Slot) (co : Co)
    (restore : Option Pointer) : Option (State × Frame) := do
  let saved ← state.deref co
  let restore ← restore
  let (stamp, waiting) ←
    Function.update state.parked state.stack (some (state.clock, frame)) restore.stack
  if stamp = restore.stamp then
    let saving := slot.store ⟨state.stack, state.clock⟩ saved
    some ((state.assign co saving).moveTo frame restore.stack, waiting)
  else none

/-- The code after the switch that has just returned. -/
def continueAt (state : State) : Frame → Option (State × Outcome)
  | .trampoline =>
      match state.stack, state.gCurrent with
      | .coroutine co, some self =>
          some ({ state with self := Function.update state.self co (some self) }, .started self)
      | _, _ => none
  | .resume co prev => do
      let c ← state.deref co
      some (state.setCurrent prev, .resumeReturns co c.value)
  | .yield co => do
      let c ← state.deref co
      some (state, .yieldReturns co c.value)
  | .unreachable => none

def coCreate (state : State) : State × Outcome :=
  let co := state.coroutines.length
  let fresh : Coroutine :=
    { sp := ⟨.coroutine co, state.clock⟩, callerSp := none, value := 0, done := false,
      started := false }
  ({ state with
    coroutines := state.coroutines ++ [some fresh]
    parked := Function.update state.parked (.coroutine co) (some (state.clock, .trampoline))
    clock := state.clock + 1 }, .created co)

def coResume (state : State) (co : Co) (input : Value) : Option (State × Outcome) := do
  let c ← state.deref co
  if c.done then
    some (state, .resumeReturns co 0)
  else
    let prev := state.gCurrent
    let state := (state.assign co { c with value := input, started := true }).setCurrent (some co)
    let (state, waiting) ← coSwitch state (.resume co prev) .callerSp co (some c.sp)
    continueAt state waiting

def coYield (state : State) (value : Value) : Option (State × Outcome) := do
  let co ← state.gCurrent
  let c ← state.deref co
  let state := state.assign co { c with value := value }
  let (state, waiting) ← coSwitch state (.yield co) .sp co c.callerSp
  continueAt state waiting

/-- The rest of `co_trampoline` once `self->fn` has returned. -/
def coTrampolineEnd (state : State) : Option (State × Outcome) :=
  match state.stack with
  | .main => none
  | .coroutine number => do
      let self ← state.self number
      let c ← state.deref self
      let state := state.assign self { c with done := true, value := 0 }
      let (state, waiting) ← coSwitch state .unreachable .sp self c.callerSp
      continueAt state waiting

/-- Freeing takes the stack away with the coroutine, which is fatal to whoever
runs on it. -/
def coDestroy (state : State) (co : Co) : Option (State × Outcome) := do
  let _ ← state.deref co
  if state.stack = .coroutine co then none
  else
    some ({ state with
      coroutines := state.coroutines.set co none
      parked := Function.update state.parked (.coroutine co) none }, .destroyed co)

/-- One action; `none` is undefined behaviour. -/
def step (state : State) : Action → Option (State × Outcome)
  | .create => some (coCreate state)
  | .resume co input => coResume state co input
  | .yield value => coYield state value
  | .finish => coTrampolineEnd state
  | .destroy co => coDestroy state co

structure Entry where
  before : State
  action : Action
  outcome : Outcome
  after : State

def run (state : State) : List Action → Option (State × List Entry)
  | [] => some (state, [])
  | action :: rest => do
      let (next, outcome) ← step state action
      let (final, log) ← run next rest
      some (final, ⟨state, action, outcome, next⟩ :: log)

/-! ## Basic facts -/

theorem State.deref_lt {state : State} {co : Co} {c : Coroutine}
    (found : state.deref co = some c) : co < state.coroutines.length := by
  apply Decidable.byContradiction
  intro outside
  rw [State.deref, List.getElem?_eq_none (Nat.le_of_not_lt outside)] at found
  cases found

theorem deref_assign {state : State} {co : Co} {old : Coroutine}
    (found : state.deref co = some old) (new : Coroutine) (other : Co) :
    (state.assign co new).deref other = if co = other then some new else state.deref other := by
  rw [State.deref, State.assign, List.getElem?_set, if_pos (State.deref_lt found)]
  split
  next => rfl
  next => rfl

theorem assign_assign (state : State) (co : Co) (first second : Coroutine) :
    (state.assign co first).assign co second = state.assign co second := by
  simp only [State.assign, List.set_set]

@[simp] theorem deref_setCurrent (state : State) (current : Option Co) (co : Co) :
    (state.setCurrent current).deref co = state.deref co := rfl

@[simp] theorem deref_moveTo (state : State) (frame : Frame) (stack : Stack) (co : Co) :
    (state.moveTo frame stack).deref co = state.deref co := rfl

/-- A switch to a stack that is parked where the pointer says. -/
theorem coSwitch_eq {state : State} {frame waiting : Frame} {slot : Slot} {co : Co}
    {c : Coroutine} {restore : Pointer} (found : state.deref co = some c)
    (elsewhere : restore.stack ≠ state.stack)
    (holds : state.parked restore.stack = some (restore.stamp, waiting)) :
    coSwitch state frame slot co (some restore) =
      some ((state.assign co (slot.store ⟨state.stack, state.clock⟩ c)).moveTo frame
        restore.stack, waiting) := by
  have kept : Function.update state.parked state.stack (some (state.clock, frame))
      restore.stack = some (restore.stamp, waiting) := by
    rw [Function.update_of_ne elsewhere]
    exact holds
  simp only [coSwitch, found, Option.bind_eq_bind, Option.bind_some, kept, if_true]

end Coroutines
end FoundationsLab
