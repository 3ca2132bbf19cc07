import FoundationsLab.Reentrant.Batches

namespace FoundationsLab.Reentrant

open State

/-! The edges between the nodes, and the nodes that are being brought up to date. -/

variable {Value : Type}

/-- The effect that a call is creating or disposing. -/
def Frame.attributed : Frame Value → List Nat
  | .creating node | .cleaning node _ _ .dispose => [node]
  | _ => []

def Control.attributed : Control Value → List Nat
  | .release node | .clean node _ _ .dispose => [node]
  | _ => []

def State.attributed (state : State Value) : List Nat :=
  state.control.attributed ++ state.stack.flatMap Frame.attributed

@[simp] theorem attributed_entry (node : Nat) (color : Signals.Color) :
    (entry node color : Control Value).attributed = [] := by
  cases color <;> rfl

/-- Edges go both ways, nothing reads an effect, and only effects are disposed. -/
structure Wired (program : Program Value) (state : State Value) : Prop where
  observed : ∀ source node, node ∈ state.observers source → some source ∈ state.sources node
  readable : ∀ source node, some source ∈ state.sources node →
    program.kind source ≠ .effect ∧ state.created source = true
  attributed : ∀ node ∈ state.attributed,
    program.kind node = .effect ∧ state.created node = true
  handed : ∀ node, state.handed node = true →
    program.kind node = .effect ∧ state.created node = true

/-- `runCleanups` goes into its loop, or past it. -/
theorem runCleanups_cases (node : Nat) (purpose : Purpose) (state : State Value) :
    ∃ control untracked,
      runCleanups node purpose state =
          { state with control := control, currentlyUntracked := untracked } ∧
        (control = afterCleanups node purpose ∨
          control = .clean node 0 state.currentlyUntracked purpose) := by
  rw [runCleanups]
  split
  · exact ⟨_, _, rfl, Or.inl rfl⟩
  · exact ⟨_, _, rfl, Or.inr rfl⟩

namespace Wired

variable {program : Program Value} {state after : State Value}

theorem start (program : Program Value) : Wired program (State.start program) where
  observed _ _ member := absurd member List.not_mem_nil
  readable _ _ member := absurd member List.not_mem_nil
  attributed _ member := absurd member List.not_mem_nil
  handed _ isHanded := absurd isHanded Bool.false_ne_true

theorem same (wired : Wired program state) (sameSources : after.sources = state.sources)
    (sameObservers : after.observers = state.observers) (sameHanded : after.handed = state.handed)
    (grown : ∀ node, state.created node = true → after.created node = true)
    (sameAttributed : ∀ node ∈ after.attributed, node ∈ state.attributed) :
    Wired program after := by
  constructor
  · rw [sameSources, sameObservers]
    exact wired.observed
  · rw [sameSources]
    intro source node member
    obtain ⟨notEffect, exist⟩ := wired.readable source node member
    exact ⟨notEffect, grown source exist⟩
  · intro node member
    obtain ⟨isEffect, exist⟩ := wired.attributed node (sameAttributed node member)
    exact ⟨isEffect, grown node exist⟩
  · rw [sameHanded]
    intro node isHanded
    obtain ⟨isEffect, exist⟩ := wired.handed node isHanded
    exact ⟨isEffect, grown node exist⟩

theorem mem_track_sources {source node : Nat} {other : Nat} :
    some source ∈ (state.track other).sources node ↔
      some source ∈ state.sources node ∨ state.reader = some node ∧ source = other := by
  simp only [track]
  cases isReader : state.reader with
  | none => simp
  | some reaction =>
      by_cases isNode : node = reaction
      · subst isNode
        simp
      · simp [isNode, Ne.symm isNode]

theorem mem_track_observers {source node : Nat} {other : Nat} :
    node ∈ (state.track other).observers source ↔
      node ∈ state.observers source ∨ state.reader = some node ∧ source = other := by
  simp only [track]
  cases isReader : state.reader with
  | none => simp
  | some reaction =>
      by_cases isSource : source = other
      · subst isSource
        simp [eq_comm]
      · simp [isSource]

theorem track (wired : Wired program state) {source : Nat}
    (readable : program.kind source ≠ .effect) (exist : state.created source = true) :
    Wired program (state.track source) := by
  constructor
  · intro other node
    rw [mem_track_observers, mem_track_sources]
    rintro (isOld | isNew)
    · exact Or.inl (wired.observed other node isOld)
    · exact Or.inr isNew
  · intro other node
    rw [mem_track_sources]
    rintro (isOld | ⟨-, rfl⟩)
    · exact wired.readable other node isOld
    · exact ⟨readable, exist⟩
  · exact wired.attributed
  · exact wired.handed

theorem mem_detach_sources {source node other : Nat} :
    some source ∈ (state.detach other).sources node ↔
      some source ∈ state.sources node ∧ node ≠ other := by
  simp only [detach]
  by_cases isNode : node = other
  · subst isNode
    simp
  · simp [isNode]

theorem mem_detach_observers {source node other : Nat} (wired : Wired program state) :
    node ∈ (state.detach other).observers source ↔
      node ∈ state.observers source ∧ node ≠ other := by
  simp only [detach]
  split
  next => simp
  next unread =>
    constructor
    · intro member
      refine ⟨member, ?_⟩
      rintro rfl
      exact unread (wired.observed source node member)
    · exact And.left

theorem detach (wired : Wired program state) (node : Nat) : Wired program (state.detach node) := by
  constructor
  · intro source other
    rw [wired.mem_detach_observers, mem_detach_sources]
    rintro ⟨member, different⟩
    exact ⟨wired.observed source other member, different⟩
  · intro source other
    rw [mem_detach_sources]
    rintro ⟨member, -⟩
    exact wired.readable source other member
  · exact wired.attributed
  · exact wired.handed

theorem release (wired : Wired program state) {node : Nat}
    (isRelease : state.control = .release node) : Wired program (release program node state) := by
  have detached := wired.detach node
  constructor
  · intro source other member
    apply detached.observed
    simp only [State.release] at member
    by_cases isNode : source = node
    · subst isNode
      simp at member
    · rwa [Function.update_of_ne isNode] at member
  · exact detached.readable
  · intro other member
    exact wired.attributed other (List.mem_append_right _ member)
  · exact wired.handed

theorem runCleanups (wired : Wired program state) (node : Nat) (purpose : Purpose)
    (same : purpose = .dispose → program.kind node = .effect ∧ state.created node = true) :
    Wired program (runCleanups node purpose state) := by
  obtain ⟨control, untracked, isState, isControl⟩ := runCleanups_cases node purpose state
  rw [isState]
  constructor
  · exact wired.observed
  · exact wired.readable
  · intro other member
    rcases List.mem_append.mp member with isNew | isOld
    · rcases isControl with rfl | rfl <;> cases purpose
      · exact absurd isNew List.not_mem_nil
      · cases List.mem_singleton.mp isNew
        exact same rfl
      · exact absurd isNew List.not_mem_nil
      · cases List.mem_singleton.mp isNew
        exact same rfl
    · exact wired.attributed other (List.mem_append_right _ isOld)
  · exact wired.handed

variable {action : Action Value}

theorem created_update {created : Nat → Bool} {fresh node : Nat} (exist : created node = true) :
    Function.update created fresh true node = true := by
  by_cases isNode : node = fresh
  · rw [isNode, Function.update_self]
  · rwa [Function.update_of_ne isNode]

/-- Steps that leave the nodes alone. -/
theorem step (wired : Wired program state) (stepped : Step program state action after) :
    Wired program after := by
  cases stepped with
  | getComputed node isUser exist isComputed =>
      have tracked := @track _ _ _ wired node (by simp [isComputed]) exist
      refine tracked.same rfl rfl rfl (fun _ => id) fun other member => ?_
      simp only [State.attributed, pull, attributed_entry, List.nil_append] at member
      exact List.mem_append_right _ member
  | getSignal node isUser exist isSignal =>
      have tracked := @track _ _ _ wired node (by simp [isSignal]) exist
      refine tracked.same rfl rfl rfl (fun _ => id) fun other member => ?_
      exact List.mem_append_right _ member
  | peekComputed node isUser =>
      refine wired.same rfl rfl rfl (fun _ => id) fun other member => ?_
      simp only [State.attributed, pull, attributed_entry, List.nil_append] at member
      exact List.mem_append_right _ (by simpa [Frame.attributed] using member)
  | peekSignal node isUser | setNothing node value ending isUser
  | setSignal node value isUser | untrack isUser | batch isUser =>
      refine wired.same rfl rfl rfl (fun _ => id) fun other member => ?_
      simpa [State.attributed, Frame.attributed, isUser, Control.attributed] using member
  | finish ending isUser =>
      refine wired.same rfl rfl rfl (fun _ => id) fun other member => ?_
      exact List.mem_append_right _ member
  | updateComputed | markedAll | markSkipped | marked | flushDeferred
  | flushSkip | checkHole | checkDirty | checkedAll =>
      refine wired.same rfl rfl rfl (fun _ => id) fun other member => ?_
      exact List.mem_append_right _ member
  | cleaned node index prev purpose isClean =>
      refine wired.same rfl rfl rfl (fun _ => id) fun other member => ?_
      cases purpose <;>
        simpa [State.attributed, isClean, afterCleanups, Control.attributed] using member
  | createSignal | createComputed =>
      refine wired.same rfl rfl rfl (fun _ => created_update) fun other member => ?_
      exact List.mem_append_right _ (by
        simpa [State.attributed, Control.attributed, Frame.attributed] using member)
  | createQueued node value isUser fresh isEffect =>
      constructor
      · exact wired.observed
      · intro source other member
        obtain ⟨notEffect, exist⟩ := wired.readable source other member
        exact ⟨notEffect, created_update exist⟩
      · intro other member
        have isOld : other ∈ state.stack.flatMap Frame.attributed := by
          simpa [State.attributed, Control.attributed, Frame.attributed] using member
        obtain ⟨otherEffect, exist⟩ := wired.attributed other (List.mem_append_right _ isOld)
        exact ⟨otherEffect, created_update exist⟩
      · intro other isHanded
        by_cases isNode : other = node
        · subst isNode
          exact ⟨isEffect, Function.update_self ..⟩
        · simp only [Function.update_of_ne isNode] at isHanded ⊢
          exact wired.handed other isHanded
  | createEffect node value isUser fresh isEffect =>
      constructor
      · exact wired.observed
      · intro source other member
        obtain ⟨notEffect, exist⟩ := wired.readable source other member
        exact ⟨notEffect, created_update exist⟩
      · intro other member
        have isOld : other = node ∨ other ∈ state.stack.flatMap Frame.attributed := by
          simpa [State.attributed, Control.attributed, Frame.attributed] using member
        rcases isOld with rfl | isOld
        · exact ⟨isEffect, Function.update_self ..⟩
        · obtain ⟨otherEffect, exist⟩ := wired.attributed other (List.mem_append_right _ isOld)
          exact ⟨otherEffect, created_update exist⟩
      · intro other isHanded
        obtain ⟨otherEffect, exist⟩ := wired.handed other isHanded
        exact ⟨otherEffect, created_update exist⟩
  | dispose node isUser isHanded =>
      refine runCleanups ?_ node .dispose fun _ => wired.handed node isHanded
      refine wired.same rfl rfl rfl (fun _ => id) fun other member => ?_
      simpa [State.attributed, Frame.attributed] using member
  | backToUser _ _ _ isStack | batchFlushed _ _ _ _ _ isStack
  | effectReturned _ _ _ _ _ _ isStack | computedReturned _ _ _ _ _ _ isStack
  | computedChanged _ _ _ _ _ _ isStack | gotten _ _ _ _ _ isStack
  | foundDirty _ _ _ _ _ _ isStack | checkedOne _ _ _ _ _ _ isStack | ranOne _ _ _ _ isStack =>
      refine wired.same rfl rfl rfl (fun _ => id) fun other member => ?_
      apply List.mem_append_right
      rw [isStack]
      exact List.mem_append_right _ member
  | restored _ _ _ _ _ _ isStack | runThrew _ _ _ _ _ isStack
  | cleanupThrew _ _ _ _ _ _ isStack | getThrew _ _ _ _ isStack | checkThrew _ _ _ _ _ isStack
  | flushThrew _ _ _ isStack | createThrew _ _ _ isStack =>
      refine wired.same rfl rfl rfl (fun _ => id) fun other member => ?_
      rw [State.attributed, isStack]
      rcases List.mem_append.mp member with isControl | isOld
      · exact List.mem_append_left _ isControl
      · exact List.mem_append_right _ (List.mem_append_right _ isOld)
  | cleanupReturned node index prev purpose value stack isComplete isStack =>
      refine wired.same rfl rfl rfl (fun _ => id) fun other member => ?_
      cases purpose <;>
        simpa [State.attributed, isComplete, isStack, Control.attributed, Frame.attributed]
          using member
  | batchEnded ending stack isComplete isStack =>
      refine wired.same rfl rfl rfl (fun _ => id) fun other member => ?_
      apply List.mem_append_right
      rw [isStack]
      exact member
  | constructed pulled node stack isPulled isStack =>
      have isAttributed : ∀ other, other = node ∨ other ∈ stack.flatMap Frame.attributed →
          other ∈ state.attributed := by
        intro other member
        simpa [State.attributed, isPulled, isStack, Control.attributed, Frame.attributed]
          using member
      constructor
      · exact wired.observed
      · exact wired.readable
      · intro other member
        exact wired.attributed other (isAttributed other (Or.inr member))
      · intro other isHanded
        by_cases isNode : other = node
        · exact wired.attributed other (isAttributed other (Or.inl isNode))
        · simp only [Function.update_of_ne isNode] at isHanded
          exact wired.handed other isHanded
  | checkSource node index source isCheck | flushPull node effects isCheck =>
      refine wired.same rfl rfl rfl (fun _ => id) fun other member => ?_
      simp only [State.attributed, pull, attributed_entry, List.nil_append] at member
      exact List.mem_append_right _ (by simpa [Frame.attributed] using member)
  | callCleanup node index prev purpose isClean =>
      refine wired.same rfl rfl rfl (fun _ => id) fun other member => ?_
      cases purpose <;>
        simpa [State.attributed, isClean, Control.attributed, Frame.attributed] using member
  | updateEffect node isUpdate =>
      exact wired.runCleanups node .update fun isDispose => absurd isDispose (by decide)
  | begin node isBegin =>
      refine (wired.detach node).same rfl rfl rfl (fun _ => id) fun other member => ?_
      exact List.mem_append_right _ member
  | release node isRelease => exact wired.release isRelease
  | flushStarted | flushRound =>
      rw [State.takeQueue]
      split <;> exact wired.same rfl rfl rfl (fun _ => id) fun _ => List.mem_append_right _

end Wired

/-! ## Work in progress -/

/-- The nodes that a call on the stack is bringing up to date, or will. -/
def Frame.engaged : Frame Value → List Nat
  | .checking node _ _ | .running node _ _ | .cleaning node _ _ .update => [node]
  | .flushing effects => effects
  | _ => []

def Control.engaged : Control Value → List Nat
  | .check node _ | .update node | .begin node | .clean node _ _ .update => [node]
  | .flushing effects => effects
  | _ => []

/-- The calls of `markStale` still to be made. -/
def Control.calls : Control Value → List (Signals.Color × Nat)
  | .mark calls => calls
  | _ => []

@[simp] theorem calls_entry (node : Nat) (color : Signals.Color) :
    (entry node color : Control Value).calls = [] := by
  cases color <;> rfl

@[simp] theorem calls_afterCleanups (node : Nat) (purpose : Purpose) :
    (afterCleanups node purpose : Control Value).calls = [] := by
  cases purpose <;> rfl

theorem engaged_entry {node other : Nat} {color : Signals.Color}
    (member : other ∈ (entry node color : Control Value).engaged) :
    other = node ∧ color ≠ .clean := by
  cases color with
  | clean => exact absurd member List.not_mem_nil
  | check | dirty =>
      constructor
      · exact List.mem_singleton.mp member
      · simp

end FoundationsLab.Reentrant
