import FoundationsLab.Reentrant.Wiring
import Mathlib.Logic.Relation

namespace FoundationsLab.Reentrant

open Signals (Color)
open State

/-! No effect is lost. An effect that is not up to date is queued, or about to be run, or being
run, in exactly one of these places, unless one of three things happens, each of which is a
condition on a step. -/

variable {Value : Type}

namespace State

/-- Created, and not an effect that was disposed. -/
def live (program : Program Value) (state : State Value) (node : Nat) : Bool :=
  state.created node && !(program.kind node = .effect && state.disposed node)

/-- The nodes that are being brought up to date, or will be before control returns. -/
def inProgress (state : State Value) : List Nat :=
  state.control.engaged ++ state.stack.flatMap Frame.engaged

/-- Everywhere a node can wait to be brought up to date. -/
def places (state : State Value) : List Nat := state.pendingEffects ++ state.inProgress

/-- The node that the next step of the library declares up to date. -/
def settling (state : State Value) : Option Nat :=
  match state.control, state.stack with
  | .complete (.returned _), .running node _ _ :: _ => some node
  | .check node index, _ =>
      if (state.sources node)[index]? = none ∧ state.state node ≠ .dirty then some node else none
  | _, _ => none

/-- The node that an action reads, or that the next step of the library reads on. -/
def pulling (state : State Value) : Action Value → Option Nat
  | .get node | .peek node => some node
  | .tick =>
      match state.control with
      | .check node index => ((state.sources node)[index]?).join
      | _ => none
  | _ => none

end State

/-- No exception leaves the run of a live effect, or what is done before it, or a flush in which
a live effect still waits. No node is declared up to date while one that it has read is not,
because its own function has caught the exception of that one or has changed something below
it. No node is read while it is being brought up to date. -/
def KeepsQueue (program : Program Value) (state : State Value) (action : Action Value) : Prop :=
  (state.control = .complete .thrown → ∀ frame ∈ state.stack.take 1, ∀ node ∈ frame.engaged,
    program.kind node = .effect → state.live program node = false) ∧
  (∀ node ∈ state.settling, state.live program node = true →
    ∀ entry ∈ state.sources node, ∀ source ∈ entry, state.state source = .clean) ∧
  ∀ node ∈ state.pulling action, node ∉ state.inProgress

instance [DecidableEq Value] (program : Program Value) (state : State Value)
    (action : Action Value) : Decidable (KeepsQueue program state action) :=
  inferInstanceAs (Decidable (_ ∧ _ ∧ _))

/-- The current reaction is the innermost node whose function runs, and each such frame has saved
the one around it. -/
def Linked : Option Nat → List (Frame Value) → Prop
  | reaction, [] => reaction = none
  | reaction, .running node prevReaction _ :: rest => reaction = some node ∧ Linked prevReaction rest
  | reaction, _ :: rest => Linked reaction rest

theorem Linked.engaged {node : Nat} {stack : List (Frame Value)} (linked : Linked (some node) stack) :
    node ∈ stack.flatMap Frame.engaged := by
  induction stack with
  | nil => simp [Linked] at linked
  | cons frame stack induction =>
      rw [List.flatMap_cons, List.mem_append]
      cases frame with
      | running other prevReaction prevUntracked =>
          left
          exact List.mem_singleton.mpr (Option.some.inj linked.1)
      | _ => exact Or.inr (induction linked)

structure Queued (program : Program Value) (state : State Value) : Prop where
  known : ∀ source node, node ∈ state.observers source →
    state.created source = true ∧ state.created node = true
  placed : ∀ node ∈ state.places, state.created node = true
  effects : ∀ node ∈ state.pendingEffects, program.kind node = .effect
  called : ∀ color node, (color, node) ∈ state.control.calls →
    color ≠ .clean ∧ state.created node = true
  linked : Linked state.currentReaction state.stack
  once : ∀ node, state.live program node = true → state.places.count node ≤ 1
  stale : ∀ node ∈ state.places, state.live program node = true → state.state node ≠ .clean
  queued : ∀ node, program.kind node = .effect → state.live program node = true →
    state.state node ≠ .clean → node ∈ state.places
  above : ∀ source node, node ∈ state.observers source → state.live program node = true →
    state.state node = .clean →
    state.state source = .clean ∨ ∃ color, (color, node) ∈ state.control.calls

theorem live_of_created {program : Program Value} {state : State Value} {node : Nat}
    (exist : state.created node = true) (notEffect : program.kind node ≠ .effect) :
    state.live program node = true := by
  simp [State.live, exist, notEffect]

namespace Queued

variable {program : Program Value} {state after : State Value}

theorem start (program : Program Value) : Queued program (State.start program) where
  known _ _ member := absurd member List.not_mem_nil
  placed _ member := absurd member List.not_mem_nil
  effects _ member := absurd member List.not_mem_nil
  called _ _ member := absurd member List.not_mem_nil
  linked := rfl
  once _ isLive := absurd isLive Bool.false_ne_true
  stale _ member := absurd member List.not_mem_nil
  queued _ _ isLive := absurd isLive Bool.false_ne_true
  above _ _ member := absurd member List.not_mem_nil

/-- Steps that leave the nodes alone but for edges they remove, and take some places away from
nodes that need none. -/
theorem fewer (queued : Queued program state) (sameCreated : after.created = state.created)
    (sameDisposed : after.disposed = state.disposed) (sameState : after.state = state.state)
    (fewerObservers : ∀ source node, node ∈ after.observers source → node ∈ state.observers source)
    (sameCalls : after.control.calls = state.control.calls)
    (linked : Linked after.currentReaction after.stack)
    (fewerPending : ∀ node ∈ after.pendingEffects, node ∈ state.pendingEffects)
    (sublist : after.places.Sublist state.places)
    (dropped : ∀ node ∈ state.places, node ∈ after.places ∨ program.kind node ≠ .effect ∨
      state.live program node = false ∨ state.state node = .clean) : Queued program after := by
  have sameLive (node : Nat) : after.live program node = state.live program node := by
    simp only [live, sameCreated, sameDisposed]
  constructor
  · intro source node member
    rw [sameCreated]
    exact queued.known source node (fewerObservers source node member)
  · rw [sameCreated]
    intro node member
    exact queued.placed node (sublist.subset member)
  · intro node member
    exact queued.effects node (fewerPending node member)
  · rw [sameCalls, sameCreated]
    exact queued.called
  · exact linked
  · intro node isLive
    rw [sameLive] at isLive
    exact (sublist.count_le node).trans (queued.once node isLive)
  · intro node member isLive
    rw [sameLive] at isLive
    rw [sameState]
    exact queued.stale node (sublist.subset member) isLive
  · intro node isEffect isLive notClean
    rw [sameLive] at isLive
    rw [sameState] at notClean
    rcases dropped node (queued.queued node isEffect isLive notClean) with
      isPlaced | notEffect | notLive | isClean
    · exact isPlaced
    · exact absurd isEffect notEffect
    · rw [notLive] at isLive
      cases isLive
    · exact absurd isClean notClean
  · intro source node member isLive isClean
    rw [sameLive] at isLive
    rw [sameState] at isClean ⊢
    rw [sameCalls]
    exact queued.above source node (fewerObservers source node member) isLive isClean

/-- Steps that leave the nodes and their places alone. -/
theorem same (queued : Queued program state) (sameCreated : after.created = state.created)
    (sameDisposed : after.disposed = state.disposed) (sameState : after.state = state.state)
    (fewerObservers : ∀ source node, node ∈ after.observers source → node ∈ state.observers source)
    (sameCalls : after.control.calls = state.control.calls)
    (linked : Linked after.currentReaction after.stack)
    (fewerPending : ∀ node ∈ after.pendingEffects, node ∈ state.pendingEffects)
    (samePlaces : after.places = state.places) : Queued program after := by
  refine queued.fewer sameCreated sameDisposed sameState fewerObservers sameCalls linked
    fewerPending ?_ fun node member => ?_
  · rw [samePlaces]
  · rw [samePlaces]
    exact Or.inl member

/-- Control changes within a call, or goes to another one. -/
theorem moved (queued : Queued program state) (control : Control Value)
    (stack : List (Frame Value)) (currentReaction : Option Nat) (currentlyUntracked : Bool)
    (sameCalls : control.calls = state.control.calls) (linked : Linked currentReaction stack)
    (samePlaces : control.engaged ++ stack.flatMap Frame.engaged = state.inProgress) :
    Queued program
      { state with
        control := control
        stack := stack
        currentReaction := currentReaction
        currentlyUntracked := currentlyUntracked } :=
  queued.same rfl rfl rfl (fun _ _ => id) sameCalls linked (fun _ => id)
    (congrArg (state.pendingEffects ++ ·) samePlaces)

/-- A node that is not in progress is read. -/
theorem pulled (queued : Queued program state) {node : Nat}
    (noCalls : state.control.calls = []) (idle : state.control.engaged = [])
    (exist : state.created node = true) (notEffect : program.kind node ≠ .effect)
    (notInProgress : node ∉ state.inProgress) : Queued program (pull node state) := by
  by_cases isClean : state.state node = .clean
  · have isPulled : pull node state = { state with control := .pulled node } := by
      rw [pull, isClean]
      rfl
    rw [isPulled]
    refine queued.moved _ _ _ _ noCalls.symm queued.linked ?_
    rw [inProgress, idle]
    rfl
  · have engaged : (entry node (state.state node) : Control Value).engaged = [node] := by
      cases isState : state.state node with
      | clean => exact absurd isState isClean
      | check | dirty => rfl
    have places : (pull node state).places = state.pendingEffects ++ node :: state.inProgress := by
      simp only [State.places, inProgress, pull, engaged, idle]
      rfl
    have mem_places {other : Nat} (member : other ∈ (pull node state).places) :
        other = node ∨ other ∈ state.places := by
      rw [places] at member
      rcases List.mem_append.mp member with isPending | isInside
      · exact Or.inr (List.mem_append_left _ isPending)
      · rcases List.mem_cons.mp isInside with rfl | isInside
        · exact Or.inl rfl
        · exact Or.inr (List.mem_append_right _ isInside)
    constructor
    · exact queued.known
    · intro other member
      rcases mem_places member with rfl | isOld
      · exact exist
      · exact queued.placed other isOld
    · exact queued.effects
    · intro color other member
      rw [pull, calls_entry] at member
      exact absurd member List.not_mem_nil
    · exact queued.linked
    · intro other isLive
      rw [places]
      have old := queued.once other isLive
      rw [State.places] at old
      by_cases isNode : other = node
      · subst isNode
        have notPending : other ∉ state.pendingEffects :=
          fun member => notEffect (queued.effects other member)
        simp [List.count_eq_zero.mpr notPending, List.count_eq_zero.mpr notInProgress]
      · simpa [List.count_cons_of_ne (Ne.symm isNode)] using old
    · intro other member isLive
      rcases mem_places member with rfl | isOld
      · exact isClean
      · exact queued.stale other isOld isLive
    · intro other isEffect isLive notClean
      rw [places]
      rcases List.mem_append.mp (queued.queued other isEffect isLive notClean) with isOld | isOld
      · exact List.mem_append_left _ isOld
      · exact List.mem_append_right _ (List.mem_cons_of_mem _ isOld)
    · intro source other member isLive isClean
      rcases queued.above source other member isLive isClean with isDone | ⟨color, isCalled⟩
      · exact Or.inl isDone
      · rw [noCalls] at isCalled
        exact absurd isCalled List.not_mem_nil

/-- The end of `updateIfNecessary`, and of the run before it if there was one. A run that changes
a computed's value makes its observers dirty, which are stale already. -/
theorem settled (queued : Queued program state) (wired : Wired program state) {node : Nat}
    {colors : Nat → Color} (sameCreated : after.created = state.created)
    (sameDisposed : after.disposed = state.disposed)
    (isState : after.state = Function.update colors node .clean)
    (sameObservers : after.observers = state.observers)
    (noCalls : state.control.calls = []) (noCallsAfter : after.control.calls = [])
    (linked : Linked after.currentReaction after.stack)
    (samePending : after.pendingEffects = state.pendingEffects)
    (samePlaces : state.places.Perm (node :: after.places))
    (keptClean : ∀ other, state.live program other = true → state.state other = .clean →
      colors other = .clean)
    (wasClean : ∀ other, colors other = .clean → state.state other = .clean)
    (upToDate : state.live program node = true → ∀ source, node ∈ state.observers source →
      state.state source = .clean) : Queued program after := by
  have sameLive (other : Nat) : after.live program other = state.live program other := by
    simp only [live, sameCreated, sameDisposed]
  have mem_old {other : Nat} (member : other ∈ after.places) : other ∈ state.places :=
    samePlaces.symm.subset (List.mem_cons_of_mem _ member)
  have left_places {other : Nat} (isLive : state.live program other = true)
      (member : other ∈ after.places) : other ≠ node := by
    rintro rfl
    have once := queued.once other isLive
    rw [samePlaces.count_eq, List.count_cons_self] at once
    have present := List.count_pos_iff.mpr member
    omega
  constructor
  · rw [sameObservers, sameCreated]
    exact queued.known
  · rw [sameCreated]
    intro other member
    exact queued.placed other (mem_old member)
  · rw [samePending]
    exact queued.effects
  · intro color other member
    rw [noCallsAfter] at member
    exact absurd member List.not_mem_nil
  · exact linked
  · intro other isLive
    rw [sameLive] at isLive
    have once := queued.once other isLive
    rw [samePlaces.count_eq, List.count_cons] at once
    omega
  · intro other member isLive
    rw [sameLive] at isLive
    rw [isState, Function.update_of_ne (left_places isLive member)]
    exact fun isClean => queued.stale other (mem_old member) isLive (wasClean other isClean)
  · intro other isEffect isLive notClean
    rw [sameLive] at isLive
    have different : other ≠ node := by
      rintro rfl
      rw [isState, Function.update_self] at notClean
      exact notClean rfl
    rw [isState, Function.update_of_ne different] at notClean
    have wasStale : state.state other ≠ .clean := fun isClean =>
      notClean (keptClean other isLive isClean)
    have member := samePlaces.subset (queued.queued other isEffect isLive wasStale)
    rcases List.mem_cons.mp member with isNode | isPlaced
    · exact absurd isNode different
    · exact isPlaced
  · intro source other member isLive isClean
    rw [sameObservers] at member
    rw [sameLive] at isLive
    left
    have sourceLive : state.live program source = true :=
      live_of_created (queued.known source other member).1
        (wired.readable source other (wired.observed source other member)).1
    have sourceClean : state.state source = .clean → after.state source = .clean := by
      intro wasClean
      rw [isState]
      by_cases isNode : source = node
      · rw [isNode, Function.update_self]
      · rw [Function.update_of_ne isNode]
        exact keptClean source sourceLive wasClean
    by_cases isNode : other = node
    · subst isNode
      exact sourceClean (upToDate isLive source member)
    · rw [isState, Function.update_of_ne isNode] at isClean
      rcases queued.above source other member isLive (wasClean other isClean) with
        isDone | ⟨color, isCalled⟩
      · exact sourceClean isDone
      · rw [noCalls] at isCalled
        exact absurd isCalled List.not_mem_nil

/-- A read by a reaction: it is being brought up to date itself. -/
theorem tracked (queued : Queued program state) {source : Nat}
    (exist : state.created source = true) : Queued program (state.track source) := by
  have reading {node : Nat} (isReader : state.reader = some node) : node ∈ state.places := by
    have isReaction : state.currentReaction = some node := by
      rw [reader] at isReader
      split at isReader
      · cases isReader
      · exact isReader
    have linked := queued.linked
    rw [isReaction] at linked
    exact List.mem_append_right _ (List.mem_append_right _ linked.engaged)
  constructor
  · intro other node member
    rcases Wired.mem_track_observers.mp member with isOld | ⟨isReader, rfl⟩
    · exact queued.known other node isOld
    · exact ⟨exist, queued.placed node (reading isReader)⟩
  · exact queued.placed
  · exact queued.effects
  · exact queued.called
  · exact queued.linked
  · exact queued.once
  · exact queued.stale
  · exact queued.queued
  · intro other node member isLive isClean
    rcases Wired.mem_track_observers.mp member with isOld | ⟨isReader, rfl⟩
    · exact queued.above other node isOld isLive isClean
    · exact absurd isClean (queued.stale node (reading isReader) isLive)

theorem mem_of_mem_detach {node source other : Nat}
    (member : other ∈ (state.detach node).observers source) : other ∈ state.observers source := by
  simp only [detach] at member
  split at member
  · exact List.mem_of_mem_filter member
  · exact member

theorem release (queued : Queued program state) {node : Nat}
    (isRelease : state.control = .release node) (isEffect : program.kind node = .effect) :
    Queued program (release program node state) := by
  have notLive : (State.release program node state).live program node = false := by
    simp [live, State.release, isEffect]
  have sameLive {other : Nat} (isLive : (State.release program node state).live program other = true) :
      other ≠ node ∧ state.live program other = true := by
    have different : other ≠ node := by
      rintro rfl
      rw [notLive] at isLive
      cases isLive
    refine ⟨different, ?_⟩
    simpa [live, State.release, detach, Function.update_of_ne different] using isLive
  have samePlaces : (State.release program node state).places = state.places := by
    simp [State.places, inProgress, State.release, detach, isRelease, Control.engaged]
  have fewerObservers {source other : Nat}
      (member : other ∈ (State.release program node state).observers source) :
      other ∈ state.observers source := by
    simp only [State.release] at member
    by_cases isNode : source = node
    · subst isNode
      simp at member
    · rw [Function.update_of_ne isNode] at member
      exact mem_of_mem_detach member
  constructor
  · intro source other member
    exact queued.known source other (fewerObservers member)
  · rw [samePlaces]
    exact queued.placed
  · exact queued.effects
  · intro color other member
    exact absurd member List.not_mem_nil
  · exact queued.linked
  · intro other isLive
    rw [samePlaces]
    exact queued.once other (sameLive isLive).2
  · intro other member isLive
    obtain ⟨different, wasLive⟩ := sameLive isLive
    rw [samePlaces] at member
    simp only [State.release, Function.update_of_ne different]
    exact queued.stale other member wasLive
  · intro other otherEffect isLive notClean
    obtain ⟨different, wasLive⟩ := sameLive isLive
    simp only [State.release, Function.update_of_ne different] at notClean
    rw [samePlaces]
    exact queued.queued other otherEffect wasLive notClean
  · intro source other member isLive isClean
    obtain ⟨different, wasLive⟩ := sameLive isLive
    simp only [State.release, Function.update_of_ne different] at isClean
    left
    simp only [State.release]
    by_cases isNode : source = node
    · rw [isNode, Function.update_self]
    · rw [Function.update_of_ne isNode]
      rcases queued.above source other (fewerObservers member) wasLive isClean with
        isDone | ⟨color, isCalled⟩
      · exact isDone
      · rw [isRelease] at isCalled
        exact absurd isCalled List.not_mem_nil

/-- A call of `markStale` that makes its node staler. -/
theorem marked (queued : Queued program state) {color : Color} {node : Nat}
    {calls : List (Color × Nat)} (isMark : state.control = .mark ((color, node) :: calls)) :
    Queued program
      { state with
        state := Function.update state.state node color
        pendingEffects :=
          if state.state node = .clean ∧ program.kind node = .effect then
            state.pendingEffects ++ [node]
          else state.pendingEffects
        control := .mark ((state.observers node).map (.check, ·) ++ calls) } := by
  have called := queued.called
  have above := queued.above
  rw [isMark] at called above
  obtain ⟨stale, exist⟩ := called color node (List.mem_cons_self ..)
  have samePlaces : state.places = state.pendingEffects ++ state.stack.flatMap Frame.engaged := by
    rw [State.places, inProgress, isMark]
    rfl
  have old := queued.placed
  have once := queued.once
  have wasStale := queued.stale
  have wasQueued := queued.queued
  rw [samePlaces] at old once wasStale wasQueued
  constructor
  · exact queued.known
  · intro other member
    simp only [State.places, inProgress, Control.engaged, List.nil_append] at member
    split at member
    next =>
      simp only [List.append_assoc, List.mem_append, List.mem_singleton] at member
      rcases member with isOld | rfl | isOld
      · exact old other (List.mem_append_left _ isOld)
      · exact exist
      · exact old other (List.mem_append_right _ isOld)
    next => exact old other member
  · intro other member
    dsimp only at member
    split at member
    next queues =>
      rcases List.mem_append.mp member with isOld | isNew
      · exact queued.effects other isOld
      · cases List.mem_singleton.mp isNew
        exact queues.2
    next => exact queued.effects other member
  · intro otherColor other member
    rcases List.mem_append.mp member with isNew | isOld
    · obtain ⟨observer, isObserver, same⟩ := List.mem_map.mp isNew
      cases same
      exact ⟨by decide, (queued.known node other isObserver).2⟩
    · exact called otherColor other (List.mem_cons_of_mem _ isOld)
  · exact queued.linked
  · intro other isLive
    have atMost := once other isLive
    simp only [State.places, inProgress, Control.engaged, List.nil_append]
    split
    next queues =>
      by_cases isNode : other = node
      · subst isNode
        have unplaced := mt (fun member => wasStale other member isLive) (not_not_intro queues.1)
        rw [List.mem_append, not_or] at unplaced
        simp [List.count_eq_zero.mpr unplaced.1, List.count_eq_zero.mpr unplaced.2]
      · have notNew : [node].count other = 0 :=
          List.count_eq_zero.mpr (by simpa using isNode)
        rw [List.append_assoc, List.count_append, List.count_append, notNew, Nat.zero_add,
          ← List.count_append]
        exact atMost
    next => exact atMost
  · intro other member isLive
    by_cases isNode : other = node
    · rw [isNode]
      simp only [Function.update_self]
      exact stale
    · simp only [Function.update_of_ne isNode]
      apply wasStale other _ isLive
      simp only [State.places, inProgress, Control.engaged, List.nil_append] at member
      split at member
      next => simpa [isNode] using member
      next => exact member
  · intro other isEffect isLive notClean
    have isOld : state.state other ≠ .clean →
        other ∈ state.pendingEffects ++ state.stack.flatMap Frame.engaged :=
      wasQueued other isEffect isLive
    simp only [State.places, inProgress, Control.engaged, List.nil_append]
    by_cases isNode : other = node
    · subst isNode
      by_cases wasClean : state.state other = .clean
      · simp [wasClean, isEffect]
      · simpa [wasClean] using isOld wasClean
    · simp only [Function.update_of_ne isNode] at notClean
      rcases List.mem_append.mp (isOld notClean) with isPending | isInside
      · apply List.mem_append_left
        split
        next => exact List.mem_append_left _ isPending
        next => exact isPending
      · exact List.mem_append_right _ isInside
  · intro source other member isLive isClean
    have different : other ≠ node := by
      rintro rfl
      simp only [Function.update_self] at isClean
      exact stale isClean
    simp only [Function.update_of_ne different] at isClean
    by_cases isSource : source = node
    · subst isSource
      right
      exact ⟨.check, List.mem_append_left _ (List.mem_map.mpr ⟨other, member, rfl⟩)⟩
    · rcases above source other member isLive isClean with isDone | ⟨otherColor, isCalled⟩
      · left
        simp only [Function.update_of_ne isSource]
        exact isDone
      · right
        rcases List.mem_cons.mp isCalled with isFirst | isLater
        · cases isFirst
          exact absurd rfl different
        · exact ⟨otherColor, List.mem_append_right _ isLater⟩

theorem markSkipped (queued : Queued program state) {color : Color} {node : Nat}
    {calls : List (Color × Nat)} (isMark : state.control = .mark ((color, node) :: calls))
    (enough : color.staleness ≤ (state.state node).staleness) :
    Queued program { state with control := .mark calls } := by
  have called := queued.called
  have above := queued.above
  have placed := queued.placed
  have once := queued.once
  have stale := queued.stale
  have wasQueued := queued.queued
  rw [State.places, inProgress, isMark] at placed once stale wasQueued
  rw [isMark] at called above
  have notClean : state.state node ≠ .clean := by
    have marks := (called color node (List.mem_cons_self ..)).1
    intro isClean
    rw [isClean] at enough
    cases color with
    | clean => exact marks rfl
    | check | dirty => simp [Color.staleness] at enough
  constructor
  · exact queued.known
  · exact placed
  · exact queued.effects
  · intro otherColor other member
    exact called otherColor other (List.mem_cons_of_mem _ member)
  · exact queued.linked
  · exact once
  · exact stale
  · exact wasQueued
  · intro source other member isLive isClean
    rcases above source other member isLive isClean with isDone | ⟨otherColor, isCalled⟩
    · exact Or.inl isDone
    · rcases List.mem_cons.mp isCalled with isFirst | isLater
      · cases isFirst
        exact absurd isClean notClean
      · exact Or.inr ⟨otherColor, isLater⟩

/-- A new node has no edges. It waits somewhere if it is an effect. -/
theorem created (queued : Queued program state) {node : Nat} {color : Color} {new : List Nat}
    (fresh : state.created node = false)
    (isCreated : after.created = Function.update state.created node true)
    (sameDisposed : after.disposed = state.disposed)
    (isState : after.state = Function.update state.state node color)
    (sameObservers : after.observers = state.observers)
    (noCalls : state.control.calls = []) (noCallsAfter : after.control.calls = [])
    (linked : Linked after.currentReaction after.stack)
    (pending : ∀ other ∈ after.pendingEffects,
      other ∈ state.pendingEffects ∨ program.kind other = .effect)
    (places : after.places.Perm (new ++ state.places))
    (isNew : new = [] ∧ program.kind node ≠ .effect ∨ new = [node] ∧ color ≠ .clean) :
    Queued program after := by
  have unplaced : node ∉ state.places := by
    intro member
    rw [queued.placed node member] at fresh
    cases fresh
  have unobserved {source other : Nat} (member : other ∈ state.observers source) :
      source ≠ node ∧ other ≠ node := by
    obtain ⟨sourceExists, otherExists⟩ := queued.known source other member
    constructor
    · rintro rfl
      rw [fresh] at sourceExists
      cases sourceExists
    · rintro rfl
      rw [fresh] at otherExists
      cases otherExists
  have sameLive {other : Nat} (different : other ≠ node) :
      after.live program other = state.live program other := by
    simp only [live, isCreated, sameDisposed, Function.update_of_ne different]
  have mem_places {other : Nat} : other ∈ after.places ↔ other ∈ new ∨ other ∈ state.places := by
    rw [places.mem_iff, List.mem_append]
  have mem_new {other : Nat} (member : other ∈ new) : other = node := by
    rcases isNew with ⟨rfl, -⟩ | ⟨rfl, -⟩
    · exact absurd member List.not_mem_nil
    · exact List.mem_singleton.mp member
  constructor
  · intro source other member
    rw [sameObservers] at member
    obtain ⟨sourceExists, otherExists⟩ := queued.known source other member
    rw [isCreated]
    exact ⟨Wired.created_update sourceExists, Wired.created_update otherExists⟩
  · intro other member
    rw [isCreated]
    rcases mem_places.mp member with isFresh | isOld
    · rw [mem_new isFresh, Function.update_self]
    · exact Wired.created_update (queued.placed other isOld)
  · intro other member
    rcases pending other member with isOld | isEffect
    · exact queued.effects other isOld
    · exact isEffect
  · intro otherColor other member
    rw [noCallsAfter] at member
    exact absurd member List.not_mem_nil
  · exact linked
  · intro other isLive
    rw [places.count_eq, List.count_append]
    by_cases isNode : other = node
    · subst isNode
      rw [List.count_eq_zero.mpr unplaced]
      rcases isNew with ⟨rfl, -⟩ | ⟨rfl, -⟩ <;> simp
    · rw [sameLive isNode] at isLive
      rw [List.count_eq_zero.mpr fun member => isNode (mem_new member), Nat.zero_add]
      exact queued.once other isLive
  · intro other member isLive
    rw [isState]
    by_cases isNode : other = node
    · rw [isNode, Function.update_self]
      rcases isNew with ⟨rfl, -⟩ | ⟨-, stale⟩
      · rcases mem_places.mp member with isFresh | isOld
        · exact absurd isFresh List.not_mem_nil
        · exact absurd (isNode ▸ isOld) unplaced
      · exact stale
    · rw [Function.update_of_ne isNode]
      rw [sameLive isNode] at isLive
      rcases mem_places.mp member with isFresh | isOld
      · exact absurd (mem_new isFresh) isNode
      · exact queued.stale other isOld isLive
  · intro other isEffect isLive notClean
    rw [mem_places]
    by_cases isNode : other = node
    · left
      rcases isNew with ⟨rfl, notEffect⟩ | ⟨rfl, -⟩
      · exact absurd (isNode ▸ isEffect) notEffect
      · exact List.mem_singleton.mpr isNode
    · right
      rw [sameLive isNode] at isLive
      rw [isState, Function.update_of_ne isNode] at notClean
      exact queued.queued other isEffect isLive notClean
  · intro source other member isLive isClean
    rw [sameObservers] at member
    obtain ⟨sourceOther, otherOther⟩ := unobserved member
    rw [sameLive otherOther] at isLive
    rw [isState, Function.update_of_ne otherOther] at isClean
    rw [isState, Function.update_of_ne sourceOther]
    rcases queued.above source other member isLive isClean with isDone | ⟨otherColor, isCalled⟩
    · exact Or.inl isDone
    · rw [noCalls] at isCalled
      exact absurd isCalled List.not_mem_nil

variable {action : Action Value}

/-- The second condition, on a node that the next step declares up to date. -/
theorem upToDate (wired : Wired program state) (keeps : KeepsQueue program state action)
    {node : Nat} (isSettling : state.settling = some node)
    (isLive : state.live program node = true) (source : Nat)
    (member : node ∈ state.observers source) : state.state source = .clean :=
  keeps.2.1 node isSettling isLive _ (wired.observed source node member) source rfl

theorem runCleanups (queued : Queued program state) (node : Nat) (purpose : Purpose)
    (noCalls : state.control.calls = [])
    (sameEngaged : (afterCleanups node purpose : Control Value).engaged = state.control.engaged) :
    Queued program (runCleanups node purpose state) := by
  obtain ⟨control, untracked, isState, isControl⟩ := runCleanups_cases node purpose state
  rw [isState]
  rcases isControl with rfl | rfl
  · refine queued.moved _ _ _ _ ?_ queued.linked ?_
    · rw [calls_afterCleanups, noCalls]
    · rw [sameEngaged]
      rfl
  · refine queued.moved _ _ _ _ noCalls.symm queued.linked ?_
    rw [inProgress, ← sameEngaged]
    cases purpose <;> rfl

theorem takeQueue (queued : Queued program state) (noCalls : state.control.calls = [])
    (idle : state.control.engaged = []) : Queued program (takeQueue program state) := by
  rw [State.takeQueue]
  split
  · refine queued.moved _ _ _ _ noCalls.symm queued.linked ?_
    rw [inProgress, idle]
    rfl
  · refine queued.same rfl rfl rfl (fun _ _ => id) noCalls.symm queued.linked
      (fun _ member => absurd member List.not_mem_nil) ?_
    rw [State.places, State.places, inProgress, inProgress, idle]
    rfl

/-- A frame that is not the run of a function is popped by an exception. -/
theorem threw (queued : Queued program state) (keeps : KeepsQueue program state action)
    {frame : Frame Value} {stack : List (Frame Value)} {currentReaction : Option Nat}
    {currentlyUntracked : Bool} (isComplete : state.control = .complete .thrown)
    (isStack : state.stack = frame :: stack) (linked : Linked currentReaction stack) :
    Queued program
      { state with
        stack := stack
        currentReaction := currentReaction
        currentlyUntracked := currentlyUntracked } := by
  have oldPlaces : state.places =
      state.pendingEffects ++ (frame.engaged ++ stack.flatMap Frame.engaged) := by
    rw [State.places, inProgress, isComplete, isStack]
    rfl
  have newPlaces : State.places
      { state with
        stack := stack
        currentReaction := currentReaction
        currentlyUntracked := currentlyUntracked } =
      state.pendingEffects ++ stack.flatMap Frame.engaged := by
    simp [State.places, inProgress, isComplete, Control.engaged]
  refine queued.fewer rfl rfl rfl (fun _ _ => id) rfl linked (fun _ => id) ?_ fun node member => ?_
  · rw [newPlaces, oldPlaces]
    exact List.Sublist.append_left (List.sublist_append_right _ _) _
  · rw [newPlaces]
    rw [oldPlaces] at member
    rcases List.mem_append.mp member with isPending | isInside
    · exact Or.inl (List.mem_append_left _ isPending)
    · rcases List.mem_append.mp isInside with isPopped | isBelow
      · by_cases isEffect : program.kind node = .effect
        · refine Or.inr (Or.inr (Or.inl ?_))
          exact keeps.1 isComplete frame (by simp [isStack]) node isPopped isEffect
        · exact Or.inr (Or.inl isEffect)
      · exact Or.inl (List.mem_append_right _ isBelow)

theorem step (queued : Queued program state) (wired : Wired program state)
    (keeps : KeepsQueue program state action) (stepped : Step program state action after) :
    Queued program after := by
  have linked := queued.linked
  cases stepped with
  | getComputed node isUser exist isComputed =>
      have inside := (queued.tracked exist).moved .user
        (.getting node state.reader :: .user :: state.stack) state.currentReaction
        state.currentlyUntracked (by rw [State.track, isUser]) linked
        (by simp [inProgress, isUser, Frame.engaged, track])
      refine inside.pulled rfl rfl exist (by simp [isComputed]) ?_
      have idle := keeps.2.2 node rfl
      simpa [inProgress, isUser, Frame.engaged, track] using idle
  | getSignal node isUser exist isSignal =>
      refine (queued.tracked exist).same rfl rfl rfl (fun _ _ => id) ?_ linked (fun _ => id) ?_
      · rw [State.track, isUser]
        rfl
      · simp [State.places, inProgress, isUser, Frame.engaged, Control.engaged, track, record]
  | peekComputed node isUser exist isComputed =>
      have inside := queued.moved .user
        (.getting node none :: .peeking state.currentlyUntracked :: .user :: state.stack)
        state.currentReaction true (by rw [isUser]) linked
        (by simp [inProgress, isUser, Frame.engaged])
      refine inside.pulled rfl rfl exist (by simp [isComputed]) ?_
      have idle := keeps.2.2 node rfl
      simpa [inProgress, isUser, Frame.engaged] using idle
  | peekSignal node isUser | setNothing node value ending isUser =>
      exact queued.moved _ _ _ _ (by rw [isUser]; rfl) linked
        (by simp [inProgress, isUser, Frame.engaged, Control.engaged])
  | setSignal node value isUser exist isSignal =>
      have base := queued.moved (.complete .thrown) (.user :: state.stack) state.currentReaction
        state.currentlyUntracked (by rw [isUser]; rfl) linked
        (by simp [inProgress, isUser, Frame.engaged, Control.engaged])
      refine ⟨base.known, base.placed, base.effects, fun color other member => ?_, base.linked,
        base.once, base.stale, base.queued, fun source other member isLive isClean => ?_⟩
      · obtain ⟨observer, isObserver, same⟩ := List.mem_map.mp member
        cases same
        exact ⟨by decide, (queued.known node other isObserver).2⟩
      · rcases base.above source other member isLive isClean with isDone | ⟨color, isCalled⟩
        · exact Or.inl isDone
        · exact absurd isCalled List.not_mem_nil
  | createSignal node value isUser fresh isSignal =>
      refine @created _ _ _ _ queued _ _ [] fresh rfl rfl (Function.update_eq_self node _).symm rfl
        (by rw [isUser]; rfl) rfl linked (fun _ => Or.inl) ?_ (Or.inl ⟨rfl, by simp [isSignal]⟩)
      simp [State.places, inProgress, isUser, Frame.engaged, Control.engaged]
  | createComputed node value isUser fresh isComputed =>
      refine @created _ _ _ _ queued _ _ [] fresh rfl rfl rfl rfl
        (by rw [isUser]; rfl) rfl linked (fun _ => Or.inl) ?_ (Or.inl ⟨rfl, by simp [isComputed]⟩)
      simp [State.places, inProgress, isUser, Frame.engaged, Control.engaged]
  | createQueued node value isUser fresh isEffect =>
      refine @created _ _ _ _ queued _ _ [node] fresh rfl rfl rfl rfl (by rw [isUser]; rfl) rfl linked
        (fun other member => ?_) ?_ (Or.inr ⟨rfl, by decide⟩)
      · rcases List.mem_append.mp member with isOld | isNew
        · exact Or.inl isOld
        · exact Or.inr (List.mem_singleton.mp isNew ▸ isEffect)
      · simp only [State.places, inProgress, isUser, Control.engaged, List.flatMap_cons,
          Frame.engaged, List.nil_append, List.append_assoc]
        exact List.perm_middle
  | createEffect node value isUser fresh isEffect =>
      refine @created _ _ _ _ queued _ _ [node] fresh rfl rfl rfl rfl (by rw [isUser]; rfl) rfl linked
        (fun _ => Or.inl) ?_ (Or.inr ⟨rfl, by decide⟩)
      simp only [State.places, inProgress, isUser, Control.engaged, List.flatMap_cons,
        Frame.engaged, List.nil_append]
      exact List.perm_middle
  | dispose node isUser =>
      have base : Queued program
          { state with
            stack := .user :: state.stack
            log := state.log ++ [.disposerCalled node] } := by
        refine queued.same rfl rfl rfl (fun _ _ => id) rfl linked (fun _ => id) ?_
        simp [State.places, inProgress, Frame.engaged]
      exact base.runCleanups node .dispose (by rw [isUser]; rfl) (by rw [isUser]; rfl)
  | untrack isUser =>
      exact queued.moved _ _ _ _ rfl linked (by simp [inProgress, Frame.engaged])
  | batch isUser =>
      refine queued.same rfl rfl rfl (fun _ _ => id) rfl linked (fun _ => id) ?_
      simp [State.places, inProgress, Frame.engaged]
  | finish ending isUser =>
      exact queued.moved _ _ _ _ (by rw [isUser]; rfl) linked (by rw [inProgress, isUser]; rfl)
  | backToUser ending stack isComplete isStack
  | batchFlushed flushEnding ending last stack isComplete isStack =>
      rw [isStack] at linked
      exact queued.moved _ _ _ _ (by rw [isComplete]; rfl) linked
        (by rw [inProgress, isComplete, isStack]; rfl)
  | restored ending frame prev stack isComplete isFrame isStack =>
      rcases isFrame with rfl | rfl <;> rw [isStack] at linked <;>
        exact queued.moved _ _ _ _ rfl linked (by rw [inProgress, isComplete, isStack]; rfl)
  | batchEnded ending stack isComplete isStack =>
      rw [isStack] at linked
      refine queued.same rfl rfl rfl (fun _ _ => id) (by rw [isComplete]; rfl) linked
        (fun _ => id) ?_
      simp [State.places, inProgress, isComplete, isStack, Frame.engaged, Control.engaged]
  | effectReturned node value prevReaction prevUntracked stack isComplete isStack
  | computedReturned node value prevReaction prevUntracked stack isComplete isStack =>
      rw [isStack] at linked
      refine queued.settled wired rfl rfl rfl rfl (by rw [isComplete]; rfl) rfl linked.2 rfl ?_
        (fun _ _ => id) (fun _ => id)
        (upToDate wired keeps (by simp [settling, isComplete, isStack]))
      simp [State.places, inProgress, isComplete, isStack, Frame.engaged, Control.engaged, settle]
  | computedChanged node value prevReaction prevUntracked stack isComplete isStack notEffect =>
      rw [isStack] at linked
      have isPlaced : node ∈ state.places := by
        simp [State.places, inProgress, isStack, Frame.engaged]
      have nodeStale := queued.stale node isPlaced
        (live_of_created (queued.placed node isPlaced) notEffect)
      refine queued.settled wired rfl rfl rfl rfl (by rw [isComplete]; rfl) rfl linked.2 rfl ?_
        (fun other isLive isClean => ?_) (fun other isClean => ?_)
        (upToDate wired keeps (by simp [settling, isComplete, isStack]))
      · simp [State.places, inProgress, isComplete, isStack, Frame.engaged, Control.engaged,
          settle, changeValue]
      · rw [changeValue]
        dsimp only
        split
        next isObserver =>
          rcases queued.above node other isObserver isLive isClean with isDone | ⟨color, isCalled⟩
          · exact absurd isDone nodeStale
          · rw [isComplete] at isCalled
            exact absurd isCalled List.not_mem_nil
        next => exact isClean
      · rw [changeValue] at isClean
        dsimp only at isClean
        split at isClean
        next => cases isClean
        next => exact isClean
  | runThrew node prevReaction prevUntracked stack isComplete isStack =>
      rw [isStack] at linked
      exact queued.threw keeps isComplete isStack linked.2
  | getThrew node reader stack isComplete isStack
  | checkThrew node index source stack isComplete isStack
  | flushThrew effects stack isComplete isStack | createThrew node stack isComplete isStack =>
      rw [isStack] at linked
      exact queued.threw keeps isComplete isStack linked
  | cleanupThrew node index prev purpose stack isComplete isStack =>
      rw [isStack] at linked
      have popped := @threw _ _ _ _ queued keeps _ _ _ prev isComplete isStack linked
      exact popped.same rfl rfl rfl (fun _ _ => id) rfl popped.linked (fun _ => id) rfl
  | cleanupReturned node index prev purpose value stack isComplete isStack =>
      rw [isStack] at linked
      refine queued.moved _ _ _ _ (by rw [isComplete]; rfl) linked ?_
      rw [inProgress, isComplete, isStack]
      cases purpose <;> rfl
  | gotten pulled node reader stack isPulled isStack =>
      rw [isStack] at linked
      refine queued.same rfl rfl rfl (fun _ _ => id) (by rw [isPulled]; rfl) linked (fun _ => id) ?_
      simp [State.places, inProgress, isPulled, isStack, Frame.engaged, Control.engaged, record]
  | constructed pulled node stack isPulled isStack =>
      rw [isStack] at linked
      refine queued.same rfl rfl rfl (fun _ _ => id) (by rw [isPulled]; rfl) linked (fun _ => id) ?_
      simp [State.places, inProgress, isPulled, isStack, Frame.engaged, Control.engaged]
  | foundDirty pulled node index source stack isPulled isStack
  | checkedOne pulled node index source stack isPulled isStack
  | ranOne pulled effects stack isPulled isStack =>
      rw [isStack] at linked
      exact queued.moved _ _ _ _ (by rw [isPulled]; rfl) linked
        (by rw [inProgress, isPulled, isStack]; rfl)
  | checkSource node index source isCheck isSource =>
      by_cases isSignal : state.state source = .clean
      · have isPulled : pull source
            { state with stack := .checking node index source :: state.stack } =
            { state with
              stack := .checking node index source :: state.stack
              control := .pulled source } := by
          simp only [pull, isSignal, entry]
        rw [isPulled]
        exact queued.moved _ _ _ _ (by rw [isCheck]; rfl) linked
          (by rw [inProgress, isCheck]; rfl)
      · have inside := queued.moved .user (.checking node index source :: state.stack)
          state.currentReaction state.currentlyUntracked (by rw [isCheck]; rfl) linked
          (by rw [inProgress, isCheck]; rfl)
        have idle := keeps.2.2 source (by simp [pulling, isCheck, isSource])
        refine inside.pulled rfl rfl ?_ ?_ ?_
        · exact (wired.readable source node (List.mem_of_getElem? isSource)).2
        · exact (wired.readable source node (List.mem_of_getElem? isSource)).1
        · rw [inProgress, isCheck] at idle
          exact idle
  | checkHole node index isCheck | checkDirty node index isCheck =>
      exact queued.moved _ _ _ _ (by rw [isCheck]; rfl) linked (by rw [inProgress, isCheck]; rfl)
  | checkedAll node index isCheck atEnd notDirty =>
      refine queued.settled wired rfl rfl rfl rfl (by rw [isCheck]; rfl) rfl linked rfl ?_
        (fun _ _ => id) (fun _ => id)
        (upToDate wired keeps (by simp [settling, isCheck, atEnd, notDirty]))
      simp only [State.places, inProgress, isCheck, Control.engaged, settle, List.nil_append]
      exact List.perm_middle
  | updateEffect node isUpdate =>
      exact queued.runCleanups node .update (by rw [isUpdate]; rfl) (by rw [isUpdate]; rfl)
  | updateComputed node isUpdate =>
      exact queued.moved _ _ _ _ (by rw [isUpdate]; rfl) linked
        (by rw [inProgress, isUpdate]; rfl)
  | callCleanup node index prev purpose isClean =>
      refine queued.moved _ _ _ _ (by rw [isClean]; rfl) linked ?_
      rw [inProgress, isClean]
      cases purpose <;> rfl
  | cleaned node index prev purpose isClean =>
      refine queued.same rfl rfl rfl (fun _ _ => id) ?_ linked (fun _ => id) ?_
      · rw [isClean, calls_afterCleanups]
        rfl
      · simp only [State.places, inProgress, isClean]
        cases purpose <;> rfl
  | begin node isBegin =>
      refine queued.same rfl rfl rfl (fun _ _ => mem_of_mem_detach) ?_ ⟨rfl, linked⟩
        (fun _ => id) ?_
      · rw [isBegin]
        rfl
      · simp [State.places, inProgress, isBegin, State.begin, detach, Control.engaged,
          Frame.engaged]
  | release node isRelease =>
      refine queued.release isRelease (wired.attributed node ?_).1
      simp [State.attributed, isRelease, Control.attributed]
  | markedAll isMark =>
      exact queued.moved _ _ _ _ (by rw [isMark]; rfl) linked (by rw [inProgress, isMark]; rfl)
  | markSkipped color node calls isMark enough => exact queued.markSkipped isMark enough
  | marked color node calls isMark => exact queued.marked isMark
  | flushDeferred isFlush =>
      exact queued.moved _ _ _ _ (by rw [isFlush]; rfl) linked (by rw [inProgress, isFlush]; rfl)
  | flushStarted isFlush => exact queued.takeQueue (by rw [isFlush]; rfl) (by rw [isFlush]; rfl)
  | flushRound isFlushing =>
      exact queued.takeQueue (by rw [isFlushing]; rfl) (by rw [isFlushing]; rfl)
  | flushSkip effect effects isFlushing isClean =>
      have oldPlaces : state.places =
          state.pendingEffects ++ effect :: (effects ++ state.stack.flatMap Frame.engaged) := by
        rw [State.places, inProgress, isFlushing]
        rfl
      refine queued.fewer rfl rfl rfl (fun _ _ => id) (by rw [isFlushing]; rfl) linked
        (fun _ => id) ?_ fun node member => ?_
      · rw [oldPlaces]
        exact List.Sublist.append_left (List.sublist_cons_self _ _) _
      · rw [oldPlaces] at member
        rcases List.mem_append.mp member with isPending | isInside
        · exact Or.inl (List.mem_append_left _ isPending)
        · rcases List.mem_cons.mp isInside with rfl | isInside
          · exact Or.inr (Or.inr (Or.inr isClean))
          · exact Or.inl (List.mem_append_right _ isInside)
  | flushPull effect effects isFlushing notClean =>
      have engaged : (entry effect (state.state effect) : Control Value).engaged = [effect] := by
        cases isState : state.state effect with
        | clean => exact absurd isState notClean
        | check | dirty => rfl
      refine queued.moved _ _ _ _ ?_ linked ?_
      · rw [isFlushing, calls_entry]
        rfl
      · rw [inProgress, isFlushing, engaged]
        rfl

end Queued

/-! ## Whole runs -/

section Run

variable [DecidableEq Value] {program : Program Value} {state : State Value}

theorem Queued.reached (reached : Reaches program (KeepsQueue program) state) :
    Wired program state ∧ Queued program state := by
  apply Reaches.induct ⟨Wired.start program, Queued.start program⟩ _ reached
  intro state after action invariant keeps stepped
  exact ⟨invariant.1.step stepped, invariant.2.step invariant.1 keeps stepped⟩

/-- The next write that changes a signal which the effect depends on, directly or not, queues the
effect. -/
def Requeued (program : Program Value) (state : State Value) (effect : Nat) : Prop :=
  ∀ source value,
    Relation.TransGen (fun below node => some below ∈ state.sources node) source effect →
    program.kind source = .signal → value ≠ state.value source →
    ∃ ticks after,
      run program (fun _ _ => True) (Action.andTicks (.set source value) ticks) state =
        some after ∧ effect ∈ after.pendingEffects

/-- Every live effect that is not up to date is queued, or will be. -/
def NoneLost (program : Program Value) (state : State Value) : Prop :=
  ∀ effect, program.kind effect = .effect → state.live program effect = true →
    state.state effect ≠ .clean → effect ∈ state.pendingEffects ∨ Requeued program state effect

/-- In every run whose steps keep the three conditions, no effect is lost: those that are not up
to date are queued already. -/
theorem no_effect_is_lost (reached : Reaches program (KeepsQueue program) state)
    (atTop : state.AtTopLevel) : NoneLost program state := by
  intro effect isEffect isLive notClean
  have member := (Queued.reached reached).2.queued effect isEffect isLive notClean
  left
  simpa [State.places, inProgress, atTop.1, atTop.2, Control.engaged] using member

end Run

/-! ## A run for and a run against -/

/-- Node 0 is a signal, the others are effects. -/
def signalAndEffects : Program Nat where
  kind node := if node = 0 then .signal else .effect
  isFunction _ := false
  undefined := 0

/-- A batch writes the signal and throws; the effect runs all the same before the exception
leaves. -/
def throwingBatch : List (Action Nat) :=
  Action.andTicks (.create 0 1) 1 ++ Action.andTicks (.create 1 0) 2 ++ Action.andTicks (.get 0) 1 ++
    Action.andTicks (.finish (.returned 0)) 3 ++ Action.andTicks .batch 0 ++
    Action.andTicks (.set 0 2) 4 ++ Action.andTicks (.finish .thrown) 5 ++
    Action.andTicks (.get 0) 1 ++ Action.andTicks (.finish (.returned 0)) 5

theorem no_effect_is_lost_in_batch :
    ∃ state,
      run signalAndEffects (KeepsQueue signalAndEffects) throwingBatch
          (State.start signalAndEffects) = some state ∧
        state.log = [.started 1, .started 1] ∧ NoneLost signalAndEffects state := by
  have runs : (run signalAndEffects (KeepsQueue signalAndEffects) throwingBatch
      (State.start signalAndEffects)).isSome := by
    decide
  refine ⟨_, (Option.some_get runs).symm, by decide +revert, ?_⟩
  exact no_effect_is_lost (Reaches.start.run throwingBatch (Option.some_get runs).symm)
    ⟨by decide +revert, by decide +revert⟩

/-- Two effects read the signal. In the flush after a write the first one throws. -/
def throwingEffect : List (Action Nat) :=
  Action.andTicks (.create 0 1) 1 ++ Action.andTicks (.create 1 0) 2 ++ Action.andTicks (.get 0) 1 ++
    Action.andTicks (.finish (.returned 0)) 3 ++ Action.andTicks (.create 2 0) 2 ++
    Action.andTicks (.get 0) 1 ++ Action.andTicks (.finish (.returned 0)) 3 ++
    Action.andTicks (.set 0 2) 7 ++ Action.andTicks (.finish .thrown) 3

def afterThrow : State Nat :=
  (run signalAndEffects (fun _ _ => True) throwingEffect (State.start signalAndEffects)).get
    (by decide)

/-- The second one stays dirty without being queued, so that no write queues it any more. -/
theorem effect_is_lost :
    ¬ ∀ (program : Program Nat) (state : State Nat),
      Reaches program (fun _ _ => True) state → state.AtTopLevel → NoneLost program state := by
  intro noneLost
  have reached : Reaches signalAndEffects (fun _ _ => True) afterThrow :=
    Reaches.start.run throwingEffect (Option.some_get _).symm
  rcases noneLost _ _ reached ⟨by decide, by decide⟩ 2 rfl (by decide) (by decide) with
    isQueued | requeued
  · exact absurd isQueued (by decide)
  · obtain ⟨ticks, after, ran, isQueued⟩ := requeued 0 3 (.single (by decide)) rfl (by decide)
    -- The write marks the effect, which is dirty already, and has returned after four steps.
    have early : ∀ ticks < 5, ∀ after ∈ run signalAndEffects (fun _ _ => True)
        (Action.andTicks (.set 0 3) ticks) afterThrow, 2 ∉ after.pendingEffects := by
      decide
    rcases Nat.lt_or_ge ticks 5 with isEarly | isLate
    · exact early ticks isEarly after ran isQueued
    · obtain ⟨more, rfl⟩ := Nat.exists_eq_add_of_le' isLate
      have stuck : run signalAndEffects (fun _ _ => True)
          (Action.andTicks (.set 0 3) (more + 5)) afterThrow = none := rfl
      rw [stuck] at ran
      cases ran

end FoundationsLab.Reentrant
