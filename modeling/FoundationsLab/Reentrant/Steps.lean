import FoundationsLab.Reentrant.Machine

namespace FoundationsLab.Reentrant

open Signals (Color)
open State

/-! What a step can be, with its guard and the state it leads to. The invariants of runs are
proved by cases on this relation. -/

variable {Value : Type} [DecidableEq Value]

inductive Step (program : Program Value) (state : State Value) :
    Action Value → State Value → Prop where
  | getComputed (node : Nat) (isUser : state.control = .user) (exist : state.created node = true)
      (isComputed : program.kind node = .computed) :
      Step program state (.get node)
        (pull node
          { state.track node with
            stack := .getting node state.reader :: .user :: state.stack })
  | getSignal (node : Nat) (isUser : state.control = .user) (exist : state.created node = true)
      (isSignal : program.kind node = .signal) :
      Step program state (.get node)
        { (state.track node).record state.reader node with
          stack := .user :: state.stack
          control := .complete (.returned (state.value node)) }
  | peekComputed (node : Nat) (isUser : state.control = .user)
      (exist : state.created node = true) (isComputed : program.kind node = .computed) :
      Step program state (.peek node)
        (pull node
          { state with
            currentlyUntracked := true
            stack := .getting node none :: .peeking state.currentlyUntracked :: .user ::
              state.stack })
  | peekSignal (node : Nat) (isUser : state.control = .user) :
      Step program state (.peek node)
        { state with
          stack := .user :: state.stack
          control := .complete (.returned (state.value node)) }
  | setNothing (node : Nat) (value : Value) (ending : Ending Value)
      (isUser : state.control = .user) :
      Step program state (.set node value)
        { state with stack := .user :: state.stack, control := .complete ending }
  | setSignal (node : Nat) (value : Value) (isUser : state.control = .user)
      (exist : state.created node = true) (isSignal : program.kind node = .signal)
      (changed : value ≠ state.value node) :
      Step program state (.set node value)
        { state with
          stack := .user :: state.stack
          value := Function.update state.value node value
          control := .mark ((state.observers node).map (.dirty, ·)) }
  | createSignal (node : Nat) (value : Value) (isUser : state.control = .user)
      (fresh : state.created node = false) (isSignal : program.kind node = .signal) :
      Step program state (.create node value)
        { state with
          stack := .user :: state.stack
          created := Function.update state.created node true
          value := Function.update state.value node value
          control := .complete (.returned program.undefined) }
  | createComputed (node : Nat) (value : Value) (isUser : state.control = .user)
      (fresh : state.created node = false) (isComputed : program.kind node = .computed) :
      Step program state (.create node value)
        { state with
          stack := .user :: state.stack
          created := Function.update state.created node true
          state := Function.update state.state node .dirty
          control := .complete (.returned program.undefined) }
  | createQueued (node : Nat) (value : Value) (isUser : state.control = .user)
      (fresh : state.created node = false) (isEffect : program.kind node = .effect)
      (deep : 0 < state.batchDepth) :
      Step program state (.create node value)
        { state with
          stack := .user :: state.stack
          created := Function.update state.created node true
          state := Function.update state.state node .dirty
          pendingEffects := state.pendingEffects ++ [node]
          control := .complete (.returned program.undefined)
          handed := Function.update state.handed node true }
  | createEffect (node : Nat) (value : Value) (isUser : state.control = .user)
      (fresh : state.created node = false) (isEffect : program.kind node = .effect) :
      Step program state (.create node value)
        { state with
          stack := .creating node :: .user :: state.stack
          created := Function.update state.created node true
          state := Function.update state.state node .dirty
          control := .update node }
  | dispose (node : Nat) (isUser : state.control = .user) (handed : state.handed node = true) :
      Step program state (.dispose node)
        (runCleanups node .dispose
          { state with
            stack := .user :: state.stack
            log := state.log ++ [.disposerCalled node] })
  | untrack (isUser : state.control = .user) :
      Step program state .untrack
        { state with
          currentlyUntracked := true
          stack := .untracking state.currentlyUntracked :: .user :: state.stack }
  | batch (isUser : state.control = .user) :
      Step program state .batch
        { state with
          batchDepth := state.batchDepth + 1
          stack := .batching :: .user :: state.stack }
  | finish (ending : Ending Value) (isUser : state.control = .user) (inside : state.stack ≠ []) :
      Step program state (.finish ending) { state with control := .complete ending }
  | backToUser (ending : Ending Value) (stack : List (Frame Value))
      (isComplete : state.control = .complete ending) (isStack : state.stack = .user :: stack) :
      Step program state .tick { state with stack := stack, control := .user }
  | restored (ending : Ending Value) (frame : Frame Value) (prev : Bool)
      (stack : List (Frame Value)) (isComplete : state.control = .complete ending)
      (isFrame : frame = .peeking prev ∨ frame = .untracking prev)
      (isStack : state.stack = frame :: stack) :
      Step program state .tick { state with stack := stack, currentlyUntracked := prev }
  | batchEnded (ending : Ending Value) (stack : List (Frame Value))
      (isComplete : state.control = .complete ending) (isStack : state.stack = .batching :: stack) :
      Step program state .tick
        { state with
          stack := .batched ending :: stack
          batchDepth := state.batchDepth - 1
          control := .flush }
  | batchFlushed (flushEnding ending last : Ending Value) (stack : List (Frame Value))
      (isComplete : state.control = .complete flushEnding)
      (isStack : state.stack = .batched ending :: stack)
      (isLast : last = .thrown → flushEnding = .thrown ∨ ending = .thrown) :
      Step program state .tick { state with stack := stack, control := .complete last }
  | effectReturned (node : Nat) (value : Value) (prevReaction : Option Nat) (prevUntracked : Bool)
      (stack : List (Frame Value)) (isComplete : state.control = .complete (.returned value))
      (isStack : state.stack = .running node prevReaction prevUntracked :: stack)
      (isEffect : program.kind node = .effect) (cleanups : Nat → Nat) :
      Step program state .tick
        (settle node
          { state with
            stack := stack
            currentReaction := prevReaction
            currentlyUntracked := prevUntracked
            cleanups := cleanups })
  | computedReturned (node : Nat) (value : Value) (prevReaction : Option Nat)
      (prevUntracked : Bool) (stack : List (Frame Value))
      (isComplete : state.control = .complete (.returned value))
      (isStack : state.stack = .running node prevReaction prevUntracked :: stack)
      (notEffect : program.kind node ≠ .effect) (same : value = state.value node) :
      Step program state .tick
        (settle node
          { state with
            stack := stack
            currentReaction := prevReaction
            currentlyUntracked := prevUntracked })
  | computedChanged (node : Nat) (value : Value) (prevReaction : Option Nat)
      (prevUntracked : Bool) (stack : List (Frame Value))
      (isComplete : state.control = .complete (.returned value))
      (isStack : state.stack = .running node prevReaction prevUntracked :: stack)
      (notEffect : program.kind node ≠ .effect) (changed : value ≠ state.value node) :
      Step program state .tick
        (settle node
          (changeValue node value
            { state with
              stack := stack
              currentReaction := prevReaction
              currentlyUntracked := prevUntracked }))
  | runThrew (node : Nat) (prevReaction : Option Nat) (prevUntracked : Bool)
      (stack : List (Frame Value)) (isComplete : state.control = .complete .thrown)
      (isStack : state.stack = .running node prevReaction prevUntracked :: stack) :
      Step program state .tick
        { state with
          stack := stack
          currentReaction := prevReaction
          currentlyUntracked := prevUntracked }
  | cleanupReturned (node index : Nat) (prev : Bool) (purpose : Purpose) (value : Value)
      (stack : List (Frame Value)) (isComplete : state.control = .complete (.returned value))
      (isStack : state.stack = .cleaning node index prev purpose :: stack) :
      Step program state .tick
        { state with stack := stack, control := .clean node (index + 1) prev purpose }
  | cleanupThrew (node index : Nat) (prev : Bool) (purpose : Purpose)
      (stack : List (Frame Value)) (isComplete : state.control = .complete .thrown)
      (isStack : state.stack = .cleaning node index prev purpose :: stack) :
      Step program state .tick
        { state with
          stack := stack
          currentlyUntracked := prev
          cleanups := Function.update state.cleanups node 0 }
  | getThrew (node : Nat) (reader : Option Nat) (stack : List (Frame Value))
      (isComplete : state.control = .complete .thrown)
      (isStack : state.stack = .getting node reader :: stack) :
      Step program state .tick { state with stack := stack }
  | checkThrew (node index source : Nat) (stack : List (Frame Value))
      (isComplete : state.control = .complete .thrown)
      (isStack : state.stack = .checking node index source :: stack) :
      Step program state .tick { state with stack := stack }
  | flushThrew (effects : List Nat) (stack : List (Frame Value))
      (isComplete : state.control = .complete .thrown)
      (isStack : state.stack = .flushing effects :: stack) :
      Step program state .tick { state with stack := stack }
  | createThrew (node : Nat) (stack : List (Frame Value))
      (isComplete : state.control = .complete .thrown)
      (isStack : state.stack = .creating node :: stack) :
      Step program state .tick { state with stack := stack }
  | gotten (pulled node : Nat) (reader : Option Nat) (stack : List (Frame Value))
      (isPulled : state.control = .pulled pulled)
      (isStack : state.stack = .getting node reader :: stack) :
      Step program state .tick
        { state.record reader node with
          stack := stack
          control := .complete (.returned (state.value node)) }
  | foundDirty (pulled node index source : Nat) (stack : List (Frame Value))
      (isPulled : state.control = .pulled pulled)
      (isStack : state.stack = .checking node index source :: stack)
      (isDirty : state.state node = .dirty) :
      Step program state .tick { state with stack := stack, control := .update node }
  | checkedOne (pulled node index source : Nat) (stack : List (Frame Value))
      (isPulled : state.control = .pulled pulled)
      (isStack : state.stack = .checking node index source :: stack)
      (notDirty : state.state node ≠ .dirty) :
      Step program state .tick
        { state with stack := stack, control := .check node (index + 1) }
  | ranOne (pulled : Nat) (effects : List Nat) (stack : List (Frame Value))
      (isPulled : state.control = .pulled pulled)
      (isStack : state.stack = .flushing effects :: stack) :
      Step program state .tick { state with stack := stack, control := .flushing effects }
  | constructed (pulled node : Nat) (stack : List (Frame Value))
      (isPulled : state.control = .pulled pulled) (isStack : state.stack = .creating node :: stack) :
      Step program state .tick
        { state with
          stack := stack
          control := .complete (.returned program.undefined)
          handed := Function.update state.handed node true }
  | checkSource (node index source : Nat) (isCheck : state.control = .check node index)
      (isSource : (state.sources node)[index]? = some (some source)) :
      Step program state .tick
        (pull source { state with stack := .checking node index source :: state.stack })
  | checkHole (node index : Nat) (isCheck : state.control = .check node index)
      (isHole : (state.sources node)[index]? = some none) :
      Step program state .tick { state with control := .check node (index + 1) }
  | checkDirty (node index : Nat) (isCheck : state.control = .check node index)
      (atEnd : (state.sources node)[index]? = none) (isDirty : state.state node = .dirty) :
      Step program state .tick { state with control := .update node }
  | checkedAll (node index : Nat) (isCheck : state.control = .check node index)
      (atEnd : (state.sources node)[index]? = none) (notDirty : state.state node ≠ .dirty) :
      Step program state .tick (settle node state)
  | updateEffect (node : Nat) (isUpdate : state.control = .update node)
      (isEffect : program.kind node = .effect) :
      Step program state .tick (runCleanups node .update state)
  | updateComputed (node : Nat) (isUpdate : state.control = .update node)
      (notEffect : program.kind node ≠ .effect) :
      Step program state .tick { state with control := .begin node }
  | callCleanup (node index : Nat) (prev : Bool) (purpose : Purpose)
      (isClean : state.control = .clean node index prev purpose) :
      Step program state .tick
        { state with
          control := .user
          stack := .cleaning node index prev purpose :: state.stack }
  | cleaned (node index : Nat) (prev : Bool) (purpose : Purpose)
      (isClean : state.control = .clean node index prev purpose) :
      Step program state .tick
        { state with
          control := afterCleanups node purpose
          currentlyUntracked := prev
          cleanups := Function.update state.cleanups node 0 }
  | begin (node : Nat) (isBegin : state.control = .begin node) :
      Step program state .tick (begin node state)
  | release (node : Nat) (isRelease : state.control = .release node) :
      Step program state .tick (release program node state)
  | markedAll (isMark : state.control = .mark []) :
      Step program state .tick { state with control := .flush }
  | markSkipped (color : Color) (node : Nat) (calls : List (Color × Nat))
      (isMark : state.control = .mark ((color, node) :: calls))
      (enough : color.staleness ≤ (state.state node).staleness) :
      Step program state .tick { state with control := .mark calls }
  | marked (color : Color) (node : Nat) (calls : List (Color × Nat))
      (isMark : state.control = .mark ((color, node) :: calls))
      (fresher : (state.state node).staleness < color.staleness) :
      Step program state .tick
        { state with
          state := Function.update state.state node color
          pendingEffects :=
            if state.state node = .clean ∧ program.kind node = .effect then
              state.pendingEffects ++ [node]
            else state.pendingEffects
          control := .mark ((state.observers node).map (.check, ·) ++ calls) }
  | flushDeferred (isFlush : state.control = .flush) (deep : 0 < state.batchDepth) :
      Step program state .tick { state with control := .complete (.returned program.undefined) }
  | flushStarted (isFlush : state.control = .flush) (outside : state.batchDepth = 0) :
      Step program state .tick (takeQueue program state)
  | flushRound (isFlushing : state.control = .flushing []) :
      Step program state .tick (takeQueue program state)
  | flushSkip (effect : Nat) (effects : List Nat)
      (isFlushing : state.control = .flushing (effect :: effects))
      (isClean : state.state effect = .clean) :
      Step program state .tick { state with control := .flushing effects }
  | flushPull (effect : Nat) (effects : List Nat)
      (isFlushing : state.control = .flushing (effect :: effects))
      (notClean : state.state effect ≠ .clean) :
      Step program state .tick
        (pull effect { state with stack := .flushing effects :: state.stack })

/-! ## Every step is one of these -/

section Inversion

variable {program : Program Value} {state after : State Value}

private theorem step_of_returnTo {value : Value}
    (isComplete : state.control = .complete (.returned value))
    (stepped : returnTo program value state = some after) : Step program state .tick after := by
  cases isStack : state.stack with
  | nil => simp [returnTo, isStack] at stepped
  | cons frame stack =>
      cases frame with
      | user =>
          simp only [returnTo, isStack, Option.some.injEq] at stepped
          subst stepped
          exact .backToUser _ _ isComplete isStack
      | peeking prev =>
          simp only [returnTo, isStack, Option.some.injEq] at stepped
          subst stepped
          exact .restored _ _ _ _ isComplete (Or.inl rfl) isStack
      | untracking prev =>
          simp only [returnTo, isStack, Option.some.injEq] at stepped
          subst stepped
          exact .restored _ _ _ _ isComplete (Or.inr rfl) isStack
      | running node prevReaction prevUntracked =>
          simp only [returnTo, isStack, finishRun, Option.some.injEq] at stepped
          subst stepped
          split
          next isEffect => exact .effectReturned _ _ _ _ _ isComplete isStack isEffect _
          next notEffect =>
            split
            next same => exact .computedReturned _ _ _ _ _ isComplete isStack notEffect same
            next changed => exact .computedChanged _ _ _ _ _ isComplete isStack notEffect changed
      | cleaning node index prev purpose =>
          simp only [returnTo, isStack, Option.some.injEq] at stepped
          subst stepped
          exact .cleanupReturned _ _ _ _ _ _ isComplete isStack
      | batching =>
          simp only [returnTo, isStack, Option.some.injEq] at stepped
          subst stepped
          exact .batchEnded _ _ isComplete isStack
      | batched ending =>
          simp only [returnTo, isStack, Option.some.injEq] at stepped
          subst stepped
          exact .batchFlushed _ _ _ _ isComplete isStack Or.inr
      | getting | checking | flushing | creating => simp [returnTo, isStack] at stepped

private theorem step_of_unwind (isComplete : state.control = .complete .thrown)
    (stepped : unwind state = some after) : Step program state .tick after := by
  cases isStack : state.stack with
  | nil => simp [unwind, isStack] at stepped
  | cons frame stack =>
      cases frame with
      | user =>
          simp only [unwind, isStack, Option.some.injEq] at stepped
          subst stepped
          exact .backToUser _ _ isComplete isStack
      | peeking prev =>
          simp only [unwind, isStack, Option.some.injEq] at stepped
          subst stepped
          exact .restored _ _ _ _ isComplete (Or.inl rfl) isStack
      | untracking prev =>
          simp only [unwind, isStack, Option.some.injEq] at stepped
          subst stepped
          exact .restored _ _ _ _ isComplete (Or.inr rfl) isStack
      | running node prevReaction prevUntracked =>
          simp only [unwind, isStack, Option.some.injEq] at stepped
          subst stepped
          exact .runThrew _ _ _ _ isComplete isStack
      | cleaning node index prev purpose =>
          simp only [unwind, isStack, Option.some.injEq] at stepped
          subst stepped
          exact .cleanupThrew _ _ _ _ _ isComplete isStack
      | batching =>
          simp only [unwind, isStack, Option.some.injEq] at stepped
          subst stepped
          exact .batchEnded _ _ isComplete isStack
      | batched ending =>
          simp only [unwind, isStack, Option.some.injEq] at stepped
          subst stepped
          have passes : Step program state .tick
              { state with stack := stack, control := .complete .thrown } :=
            .batchFlushed _ _ _ _ isComplete isStack fun _ => Or.inl rfl
          rw [← isComplete] at passes
          exact passes
      | getting node reader =>
          simp only [unwind, isStack, Option.some.injEq] at stepped
          subst stepped
          exact .getThrew _ _ _ isComplete isStack
      | checking node index source =>
          simp only [unwind, isStack, Option.some.injEq] at stepped
          subst stepped
          exact .checkThrew _ _ _ _ isComplete isStack
      | flushing effects =>
          simp only [unwind, isStack, Option.some.injEq] at stepped
          subst stepped
          exact .flushThrew _ _ isComplete isStack
      | creating node =>
          simp only [unwind, isStack, Option.some.injEq] at stepped
          subst stepped
          exact .createThrew _ _ isComplete isStack

omit [DecidableEq Value] in
private theorem step_of_returnPulled {pulled : Nat} (isPulled : state.control = .pulled pulled)
    (stepped : returnPulled program state = some after) : Step program state .tick after := by
  cases isStack : state.stack with
  | nil => simp [returnPulled, isStack] at stepped
  | cons frame stack =>
      cases frame with
      | getting node reader =>
          simp only [returnPulled, isStack, Option.some.injEq] at stepped
          subst stepped
          exact .gotten _ _ _ _ isPulled isStack
      | checking node index source =>
          by_cases isDirty : state.state node = .dirty
          · simp only [returnPulled, isStack, isDirty, if_true, Option.some.injEq] at stepped
            subst stepped
            exact .foundDirty _ _ _ _ _ isPulled isStack isDirty
          · simp only [returnPulled, isStack, isDirty, if_false, Option.some.injEq] at stepped
            subst stepped
            exact .checkedOne _ _ _ _ _ isPulled isStack isDirty
      | flushing effects =>
          simp only [returnPulled, isStack, Option.some.injEq] at stepped
          subst stepped
          exact .ranOne _ _ _ isPulled isStack
      | creating node =>
          simp only [returnPulled, isStack, Option.some.injEq] at stepped
          subst stepped
          exact .constructed _ _ _ isPulled isStack
      | user | peeking | running | cleaning | untracking | batching | batched =>
          simp [returnPulled, isStack] at stepped

omit [DecidableEq Value] in
private theorem step_of_checkNext {node index : Nat}
    (isCheck : state.control = .check node index) :
    Step program state .tick (checkNext node index state) := by
  rw [checkNext]
  split
  next source isSource => exact .checkSource _ _ _ isCheck isSource
  next isHole => exact .checkHole _ _ isCheck isHole
  next atEnd =>
    split
    next isDirty => exact .checkDirty _ _ isCheck atEnd isDirty
    next notDirty => exact .checkedAll _ _ isCheck atEnd notDirty

private theorem step_of_tick (stepped : tick program state = some after) :
    Step program state .tick after := by
  cases isControl : state.control with
  | user => simp [tick, isControl] at stepped
  | complete ending =>
      cases ending with
      | returned value =>
          simp only [tick, isControl] at stepped
          exact step_of_returnTo isControl stepped
      | thrown =>
          simp only [tick, isControl] at stepped
          exact step_of_unwind isControl stepped
  | pulled node =>
      simp only [tick, isControl] at stepped
      exact step_of_returnPulled isControl stepped
  | check node index =>
      simp only [tick, isControl, Option.some.injEq] at stepped
      exact stepped ▸ step_of_checkNext isControl
  | update node =>
      simp only [tick, isControl, update, Option.some.injEq] at stepped
      subst stepped
      split
      next isEffect => exact .updateEffect _ isControl isEffect
      next notEffect => exact .updateComputed _ isControl notEffect
  | clean node index prev purpose =>
      simp only [tick, isControl, cleanNext, Option.some.injEq] at stepped
      subst stepped
      split
      next => exact .callCleanup _ _ _ _ isControl
      next => exact .cleaned _ _ _ _ isControl
  | begin node =>
      simp only [tick, isControl, Option.some.injEq] at stepped
      exact stepped ▸ .begin _ isControl
  | release node =>
      simp only [tick, isControl, Option.some.injEq] at stepped
      exact stepped ▸ .release _ isControl
  | mark calls =>
      cases calls with
      | nil =>
          simp only [tick, isControl, Option.some.injEq] at stepped
          exact stepped ▸ .markedAll isControl
      | cons first calls =>
          obtain ⟨color, node⟩ := first
          simp only [tick, isControl, mark, Option.some.injEq] at stepped
          subst stepped
          split
          next enough => exact .markSkipped _ _ _ isControl enough
          next fresher => exact .marked _ _ _ isControl (Nat.lt_of_not_le fresher)
  | flush =>
      simp only [tick, isControl, flush, Option.some.injEq] at stepped
      subst stepped
      split
      next deep => exact .flushDeferred isControl deep
      next outside => exact .flushStarted isControl (Nat.eq_zero_of_not_pos outside)
  | flushing effects =>
      cases effects with
      | nil =>
          simp only [tick, isControl, flushNext, Option.some.injEq] at stepped
          exact stepped ▸ .flushRound isControl
      | cons effect effects =>
          simp only [tick, isControl, flushNext, Option.some.injEq] at stepped
          subst stepped
          split
          next isClean => exact .flushSkip _ _ isControl isClean
          next notClean => exact .flushPull _ _ isControl notClean

private theorem kind_signal {kind : Kind} (notEffect : kind ≠ .effect)
    (notComputed : kind ≠ .computed) : kind = .signal := by
  cases kind with
  | signal => rfl
  | computed => exact absurd rfl notComputed
  | effect => exact absurd rfl notEffect

private theorem step_of_act {action : Action Value} (isUser : state.control = .user)
    (stepped : act program state action = some after) : Step program state action after := by
  cases action with
  | tick => simp [act] at stepped
  | get node =>
      simp only [act, Option.ite_none_right_eq_some, Option.some.injEq] at stepped
      obtain ⟨⟨exist, notEffect⟩, rfl⟩ := stepped
      rw [State.get]
      split
      next isComputed => exact .getComputed _ isUser exist isComputed
      next notComputed => exact .getSignal _ isUser exist (kind_signal notEffect notComputed)
  | peek node =>
      simp only [act, Option.ite_none_right_eq_some, Option.some.injEq] at stepped
      obtain ⟨⟨exist, notEffect⟩, rfl⟩ := stepped
      rw [State.peek]
      split
      next isComputed =>
        rw [State.peekComputed, State.get, if_pos isComputed]
        exact .peekComputed _ isUser exist isComputed
      next => exact .peekSignal _ isUser
  | set node value =>
      simp only [act, Option.ite_none_right_eq_some, Option.some.injEq] at stepped
      obtain ⟨⟨exist, notEffect⟩, rfl⟩ := stepped
      rw [State.set]
      split
      next => exact .setNothing _ _ _ isUser
      next notComputed =>
        split
        next => exact .setNothing _ _ _ isUser
        next changed =>
          exact .setSignal _ _ isUser exist (kind_signal notEffect notComputed) changed
  | create node value =>
      simp only [act, Option.ite_none_right_eq_some, Option.some.injEq] at stepped
      obtain ⟨⟨fresh, -⟩, rfl⟩ := stepped
      cases isKind : program.kind node with
      | signal =>
          simp only [create, isKind]
          exact .createSignal _ _ isUser fresh isKind
      | computed =>
          simp only [create, isKind]
          exact .createComputed _ _ isUser fresh isKind
      | effect =>
          simp only [create, isKind, State.createEffect]
          split
          next deep => exact .createQueued _ _ isUser fresh isKind deep
          next =>
            simp only [pull, Function.update_self]
            exact .createEffect _ _ isUser fresh isKind
  | dispose node =>
      simp only [act, Option.ite_none_right_eq_some, Option.some.injEq] at stepped
      obtain ⟨handed, rfl⟩ := stepped
      exact .dispose _ isUser handed
  | untrack =>
      simp only [act, Option.some.injEq] at stepped
      subst stepped
      exact .untrack isUser
  | batch =>
      simp only [act, Option.some.injEq] at stepped
      subst stepped
      exact .batch isUser
  | finish ending =>
      simp only [act, Option.ite_none_left_eq_some, Option.some.injEq] at stepped
      obtain ⟨inside, rfl⟩ := stepped
      exact .finish _ isUser inside

theorem step_of_next {action : Action Value} (stepped : next program state action = some after) :
    Step program state action after := by
  rw [next] at stepped
  split at stepped
  next isUser => exact step_of_act isUser stepped
  next =>
    split at stepped
    next isTick => exact isTick ▸ step_of_tick stepped
    next => simp at stepped

/-- What holds at first, and after every allowed step when it held before it, holds in every
state of a run. -/
theorem Reaches.induct {allowed : State Value → Action Value → Prop} {Holds : State Value → Prop}
    (start : Holds (State.start program))
    (step : ∀ {state after : State Value} {action : Action Value}, Holds state →
      allowed state action → Step program state action after → Holds after)
    (reached : Reaches program allowed state) : Holds state := by
  induction reached with
  | start => exact start
  | step reached isAllowed stepped induction => exact step induction isAllowed (step_of_next stepped)

theorem Reaches.run {allowed : State Value → Action Value → Prop}
    [∀ state action, Decidable (allowed state action)] (actions : List (Action Value))
    (reached : Reaches program allowed state)
    (ran : Reentrant.run program allowed actions state = some after) :
    Reaches program allowed after := by
  induction actions generalizing state with
  | nil => exact Option.some.inj ran ▸ reached
  | cons action actions induction =>
      rw [Reentrant.run] at ran
      split at ran
      next isAllowed =>
        obtain ⟨middle, stepped, ran⟩ := Option.bind_eq_some_iff.mp ran
        exact induction (reached.step isAllowed stepped) ran
      next => cases ran

end Inversion

end FoundationsLab.Reentrant
