import FoundationsLab.Foundation.InsertionSet
import FoundationsLab.Foundation.LiveSet
import FoundationsLab.Signals.Reactive

namespace FoundationsLab.Reentrant

open Signals (Color)

/-! Signals whose functions may do anything: read, write, create and dispose effects, open
batches, and throw. The functions of the program are not part of the model. Whenever one of them
runs, or the program itself, the next action is any that code could take, and what the library
does until it returns to such code is a sequence of small steps over an explicit call stack. -/

/-- What `new Reactive` makes. -/
inductive Kind where
  | signal
  | computed
  | effect
  deriving DecidableEq

/-- The nodes a program will make, and what it needs to know of values. -/
structure Program (Value : Type) where
  kind : Nat → Kind
  isFunction : Value → Bool
  undefined : Value

/-- How a call ends. -/
inductive Ending (Value : Type) where
  | returned (value : Value)
  | thrown
  deriving DecidableEq

/-- What `runCleanups` is called for. -/
inductive Purpose where
  | update
  | dispose
  deriving DecidableEq

/-- A call that waits for another one to end, with the local variables it still needs. -/
inductive Frame (Value : Type) where
  /-- A function of the program, or the program itself, waits for the library. -/
  | user
  | getting (node : Nat) (reader : Option Nat)
  | peeking (prev : Bool)
  | checking (node index source : Nat)
  | running (node : Nat) (prevReaction : Option Nat) (prevUntracked : Bool)
  | cleaning (node index : Nat) (prev : Bool) (purpose : Purpose)
  | flushing (effects : List Nat)
  | creating (node : Nat)
  | untracking (prev : Bool)
  | batching
  /-- The flush at the end of a batch, whose function has ended. -/
  | batched (ending : Ending Value)
  deriving DecidableEq

/-- Where the execution is in the call on top of the stack. -/
inductive Control (Value : Type) where
  | user
  | complete (ending : Ending Value)
  /-- `updateIfNecessary` has returned. -/
  | pulled (node : Nat)
  /-- The head of the loop over the sources. -/
  | check (node index : Nat)
  | update (node : Nat)
  /-- The head of the loop over the cleanups. -/
  | clean (node index : Nat) (prev : Bool) (purpose : Purpose)
  /-- The part of `update` after the cleanups. -/
  | begin (node : Nat)
  /-- The part of `dispose` after the cleanups. -/
  | release (node : Nat)
  /-- Calls of `markStale` to be made, the next one first. -/
  | mark (calls : List (Color × Nat))
  | flush
  /-- The head of the loop over the effects taken from the queue. -/
  | flushing (effects : List Nat)
  deriving DecidableEq

inductive Event where
  | started (node : Nat)
  | disposerCalled (node : Nat)
  deriving DecidableEq

/-- All the state there is. What was read in the last run of a node, which disposers exist and
which have done their work, and the log, are kept for the statements about them. -/
structure State (Value : Type) where
  created : Nat → Bool
  value : Nat → Value
  state : Nat → Color
  sources : Nat → List (Option Nat)
  observers : Nat → List Nat
  cleanups : Nat → Nat
  currentReaction : Option Nat
  currentlyUntracked : Bool
  pendingEffects : List Nat
  batchDepth : Nat
  control : Control Value
  stack : List (Frame Value)
  handed : Nat → Bool
  disposed : Nat → Bool
  reads : Nat → List (Nat × Value)
  log : List Event

variable {Value : Type}

namespace State

def start (program : Program Value) : State Value where
  created _ := false
  value _ := program.undefined
  state _ := .clean
  sources _ := []
  observers _ := []
  cleanups _ := 0
  currentReaction := none
  currentlyUntracked := false
  pendingEffects := []
  batchDepth := 0
  control := .user
  stack := []
  handed _ := false
  disposed _ := false
  reads _ := []
  log := []

/-- A call of the library from the program's code. -/
def call (state : State Value) : State Value :=
  { state with stack := .user :: state.stack }

/-- The reaction that a read is recorded for. -/
def reader (state : State Value) : Option Nat :=
  if state.currentlyUntracked then none else state.currentReaction

/-- The edge between the reader and what it reads, in both directions. -/
def track (source : Nat) (state : State Value) : State Value :=
  { state with
    sources :=
      match state.reader with
      | none => state.sources
      | some reaction =>
          Function.update state.sources reaction (LiveSet.add (state.sources reaction) source)
    observers :=
      match state.reader with
      | none => state.observers
      | some reaction =>
          Function.update state.observers source
            (InsertionSet.add (state.observers source) reaction) }

/-- Notes what a read has returned. -/
def record (reader : Option Nat) (source : Nat) (state : State Value) : State Value :=
  { state with
    reads :=
      match reader with
      | none => state.reads
      | some reaction =>
          Function.update state.reads reaction
            (state.reads reaction ++ [(source, state.value source)]) }

/-- Removes a reaction from the observers of all its sources, and its sources with them. -/
def detach (node : Nat) (state : State Value) : State Value :=
  { state with
    sources := Function.update state.sources node (LiveSet.clear (state.sources node))
    observers := fun source =>
      if some source ∈ state.sources node then (state.observers source).filter (· ≠ node)
      else state.observers source }

/-! ## The pull phase -/

/-- Where `updateIfNecessary` goes first. -/
def entry (node : Nat) : Color → Control Value
  | .clean => .pulled node
  | .check => .check node 0
  | .dirty => .update node

/-- The call of `updateIfNecessary`. -/
def pull (node : Nat) (state : State Value) : State Value :=
  { state with control := entry node (state.state node) }

/-- The end of `updateIfNecessary`. -/
def settle (node : Nat) (state : State Value) : State Value :=
  { state with state := Function.update state.state node .clean, control := .pulled node }

/-- One round of the loop over the sources. The loop goes over the sources as they are when it
reaches them. -/
def checkNext (node index : Nat) (state : State Value) : State Value :=
  match (state.sources node)[index]? with
  | some (some source) =>
      pull source { state with stack := .checking node index source :: state.stack }
  | some none => { state with control := .check node (index + 1) }
  | none =>
      if state.state node = .dirty then { state with control := .update node }
      else settle node state

def afterCleanups (node : Nat) : Purpose → Control Value
  | .update => .begin node
  | .dispose => .release node

def runCleanups (node : Nat) (purpose : Purpose) (state : State Value) : State Value :=
  if state.cleanups node = 0 then { state with control := afterCleanups node purpose }
  else
    { state with
      control := .clean node 0 state.currentlyUntracked purpose
      currentlyUntracked := true }

/-- One round of the loop over the cleanups, or what follows the loop. -/
def cleanNext (node index : Nat) (prev : Bool) (purpose : Purpose) (state : State Value) :
    State Value :=
  if index < state.cleanups node then
    { state with control := .user, stack := .cleaning node index prev purpose :: state.stack }
  else
    { state with
      control := afterCleanups node purpose
      currentlyUntracked := prev
      cleanups := Function.update state.cleanups node 0 }

/-- Only effects have cleanups. -/
def update (program : Program Value) (node : Nat) (state : State Value) : State Value :=
  if program.kind node = .effect then runCleanups node .update state
  else { state with control := .begin node }

/-- The part of `update` up to the call of the node's function. -/
def begin (node : Nat) (state : State Value) : State Value :=
  { state.detach node with
    currentReaction := some node
    currentlyUntracked := false
    control := .user
    stack := .running node state.currentReaction state.currentlyUntracked :: state.stack
    reads := Function.update state.reads node []
    log := state.log ++ [.started node] }

/-- What `update` does when the recomputed value is another one than before. -/
def changeValue (node : Nat) (next : Value) (state : State Value) : State Value :=
  { state with
    value := Function.update state.value node next
    state := fun observer =>
      if observer ∈ state.observers node then .dirty else state.state observer }

/-- The rest of `update` once the function has returned, and of `updateIfNecessary`. -/
def finishRun [DecidableEq Value] (program : Program Value) (node : Nat) (next : Value)
    (state : State Value) : State Value :=
  if program.kind node = .effect then
    settle node
      { state with
        cleanups :=
          if program.isFunction next then
            Function.update state.cleanups node (state.cleanups node + 1)
          else state.cleanups }
  else if next = state.value node then settle node state
  else settle node (changeValue node next state)

def release (program : Program Value) (node : Nat) (state : State Value) : State Value :=
  { state.detach node with
    observers := Function.update (state.detach node).observers node []
    state := Function.update state.state node .clean
    control := .complete (.returned program.undefined)
    disposed := Function.update state.disposed node true }

/-! ## The push phase -/

/-- One call of `markStale`, and the calls it makes. -/
def mark (program : Program Value) (color : Color) (node : Nat) (calls : List (Color × Nat))
    (state : State Value) : State Value :=
  if color.staleness ≤ (state.state node).staleness then { state with control := .mark calls }
  else
    { state with
      state := Function.update state.state node color
      pendingEffects :=
        if state.state node = .clean ∧ program.kind node = .effect then
          state.pendingEffects ++ [node]
        else state.pendingEffects
      control := .mark ((state.observers node).map (.check, ·) ++ calls) }

/-- The head of the loop of `flush`. -/
def takeQueue (program : Program Value) (state : State Value) : State Value :=
  if state.pendingEffects = [] then
    { state with control := .complete (.returned program.undefined) }
  else { state with control := .flushing state.pendingEffects, pendingEffects := [] }

def flush (program : Program Value) (state : State Value) : State Value :=
  if 0 < state.batchDepth then { state with control := .complete (.returned program.undefined) }
  else takeQueue program state

def flushNext (program : Program Value) (effects : List Nat) (state : State Value) :
    State Value :=
  match effects with
  | [] => takeQueue program state
  | effect :: rest =>
      if state.state effect = .clean then { state with control := .flushing rest }
      else pull effect { state with stack := .flushing rest :: state.stack }

/-! ## The way back -/

/-- `updateIfNecessary` returns to its caller. -/
def returnPulled (program : Program Value) (state : State Value) : Option (State Value) :=
  match state.stack with
  | .getting node reader :: stack =>
      some
        { state.record reader node with
          stack := stack
          control := .complete (.returned (state.value node)) }
  | .checking node index _ :: stack =>
      if state.state node = .dirty then
        some { state with stack := stack, control := .update node }
      else some { state with stack := stack, control := .check node (index + 1) }
  | .flushing effects :: stack =>
      some { state with stack := stack, control := .flushing effects }
  | .creating node :: stack =>
      some
        { state with
          stack := stack
          control := .complete (.returned program.undefined)
          handed := Function.update state.handed node true }
  | _ => none

/-- A call returns to the one that waits for it. -/
def returnTo [DecidableEq Value] (program : Program Value) (value : Value)
    (state : State Value) : Option (State Value) :=
  match state.stack with
  | .user :: stack => some { state with stack := stack, control := .user }
  | .peeking prev :: stack | .untracking prev :: stack =>
      some { state with stack := stack, currentlyUntracked := prev }
  | .running node prevReaction prevUntracked :: stack =>
      some (finishRun program node value
        { state with
          stack := stack
          currentReaction := prevReaction
          currentlyUntracked := prevUntracked })
  | .cleaning node index prev purpose :: stack =>
      some { state with stack := stack, control := .clean node (index + 1) prev purpose }
  | .batching :: stack =>
      some
        { state with
          stack := .batched (.returned value) :: stack
          batchDepth := state.batchDepth - 1
          control := .flush }
  | .batched ending :: stack => some { state with stack := stack, control := .complete ending }
  | _ => none

/-- An exception leaves a call: only its `finally` is run. -/
def unwind (state : State Value) : Option (State Value) :=
  match state.stack with
  | .user :: stack => some { state with stack := stack, control := .user }
  | .getting _ _ :: stack | .checking _ _ _ :: stack | .flushing _ :: stack
  | .creating _ :: stack | .batched _ :: stack => some { state with stack := stack }
  | .peeking prev :: stack | .untracking prev :: stack =>
      some { state with stack := stack, currentlyUntracked := prev }
  | .running _ prevReaction prevUntracked :: stack =>
      some
        { state with
          stack := stack
          currentReaction := prevReaction
          currentlyUntracked := prevUntracked }
  | .cleaning node _ prev _ :: stack =>
      some
        { state with
          stack := stack
          currentlyUntracked := prev
          cleanups := Function.update state.cleanups node 0 }
  | .batching :: stack =>
      some
        { state with
          stack := .batched .thrown :: stack
          batchDepth := state.batchDepth - 1
          control := .flush }
  | [] => none

/-- What the library does next. -/
def tick [DecidableEq Value] (program : Program Value) (state : State Value) :
    Option (State Value) :=
  match state.control with
  | .user => none
  | .complete (.returned value) => returnTo program value state
  | .complete .thrown => unwind state
  | .pulled _ => returnPulled program state
  | .check node index => some (checkNext node index state)
  | .update node => some (update program node state)
  | .clean node index prev purpose => some (cleanNext node index prev purpose state)
  | .begin node => some (begin node state)
  | .release node => some (release program node state)
  | .mark [] => some { state with control := .flush }
  | .mark ((color, node) :: calls) => some (mark program color node calls state)
  | .flush => some (flush program state)
  | .flushing effects => some (flushNext program effects state)

/-! ## What the program's code may do -/

/-- `Reactive.get`. -/
def get (program : Program Value) (node : Nat) (state : State Value) : State Value :=
  if program.kind node = .computed then
    pull node { state.track node with stack := .getting node state.reader :: state.stack }
  else
    { (state.track node).record state.reader node with
      control := .complete (.returned (state.value node)) }

/-- The `peek` of a computed. -/
def peekComputed (program : Program Value) (node : Nat) (state : State Value) : State Value :=
  get program node
    { state with
      currentlyUntracked := true
      stack := .peeking state.currentlyUntracked :: state.stack }

def peek (program : Program Value) (node : Nat) (state : State Value) : State Value :=
  if program.kind node = .computed then peekComputed program node state
  else { state with control := .complete (.returned (state.value node)) }

def set [DecidableEq Value] (program : Program Value) (node : Nat) (next : Value)
    (state : State Value) : State Value :=
  if program.kind node = .computed then { state with control := .complete .thrown }
  else if next = state.value node then
    { state with control := .complete (.returned program.undefined) }
  else
    { state with
      value := Function.update state.value node next
      control := .mark ((state.observers node).map (.dirty, ·)) }

/-- The constructor of an effect, and what `effect` returns. -/
def createEffect (program : Program Value) (node : Nat) (state : State Value) : State Value :=
  if 0 < state.batchDepth then
    { state with
      pendingEffects := state.pendingEffects ++ [node]
      control := .complete (.returned program.undefined)
      handed := Function.update state.handed node true }
  else pull node { state with stack := .creating node :: state.stack }

def create (program : Program Value) (node : Nat) (initial : Value) (state : State Value) :
    State Value :=
  let born := { state with created := Function.update state.created node true }
  match program.kind node with
  | .signal =>
      { born with
        value := Function.update state.value node initial
        control := .complete (.returned program.undefined) }
  | .computed =>
      { born with
        state := Function.update state.state node .dirty
        control := .complete (.returned program.undefined) }
  | .effect =>
      createEffect program node
        { born with state := Function.update state.state node .dirty }

def dispose (node : Nat) (state : State Value) : State Value :=
  runCleanups node .dispose { state with log := state.log ++ [.disposerCalled node] }

end State

open State

inductive Action (Value : Type) where
  /-- The library goes on. -/
  | tick
  | get (node : Nat)
  | peek (node : Nat)
  | set (node : Nat) (next : Value)
  | create (node : Nat) (initial : Value)
  | dispose (node : Nat)
  | untrack
  | batch
  /-- The function that runs returns or throws. -/
  | finish (ending : Ending Value)
  deriving DecidableEq

/-- What code may do when it runs. It holds the accessors of the signals and computeds that
were made, and the disposers that `effect` has returned. -/
def act [DecidableEq Value] (program : Program Value) (state : State Value) :
    Action Value → Option (State Value)
  | .tick => none
  | .get node =>
      if state.created node ∧ program.kind node ≠ .effect then some (get program node state.call)
      else none
  | .peek node =>
      if state.created node ∧ program.kind node ≠ .effect then some (peek program node state.call)
      else none
  | .set node next =>
      if state.created node ∧ program.kind node ≠ .effect then
        some (set program node next state.call)
      else none
  | .create node initial =>
      if state.created node = false ∧
          (program.kind node = .signal → program.isFunction initial = false) then
        some (create program node initial state.call)
      else none
  | .dispose node => if state.handed node then some (dispose node state.call) else none
  | .untrack =>
      some
        { state.call with
          currentlyUntracked := true
          stack := .untracking state.currentlyUntracked :: state.call.stack }
  | .batch =>
      some
        { state.call with
          batchDepth := state.batchDepth + 1
          stack := .batching :: state.call.stack }
  | .finish ending =>
      if state.stack = [] then none else some { state with control := .complete ending }

def next [DecidableEq Value] (program : Program Value) (state : State Value)
    (action : Action Value) : Option (State Value) :=
  if state.control = .user then act program state action
  else if action = .tick then tick program state
  else none

/-- Control has returned to the top level of the program. -/
def State.AtTopLevel (state : State Value) : Prop := state.stack = [] ∧ state.control = .user

/-- An action, and so many steps of the library after it. -/
def Action.andTicks (action : Action Value) (ticks : Nat) : List (Action Value) :=
  action :: List.replicate ticks .tick

/-- A run in which every step is allowed. -/
def run [DecidableEq Value] (program : Program Value)
    (allowed : State Value → Action Value → Prop) [∀ state action, Decidable (allowed state action)] :
    List (Action Value) → State Value → Option (State Value)
  | [], state => some state
  | action :: actions, state =>
      if allowed state action then (next program state action).bind (run program allowed actions)
      else none

/-- The states of runs in which every step is allowed. -/
inductive Reaches [DecidableEq Value] (program : Program Value)
    (allowed : State Value → Action Value → Prop) : State Value → Prop where
  | start : Reaches program allowed (State.start program)
  | step {state after : State Value} {action : Action Value} :
      Reaches program allowed state → allowed state action →
      next program state action = some after → Reaches program allowed after

end FoundationsLab.Reentrant
