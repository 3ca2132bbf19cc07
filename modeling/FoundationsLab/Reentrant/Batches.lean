import FoundationsLab.Reentrant.Steps

namespace FoundationsLab.Reentrant

open State

/-! What is open in a run: batches, flushes, and what is queued while there is no batch. -/

variable {Value : Type}

namespace Frame

def isBatching : Frame Value → Bool
  | .batching => true
  | _ => false

def isFlushing : Frame Value → Bool
  | .flushing _ => true
  | _ => false

/-- Neither the function of a batch nor the loop of a flush. -/
def isPlain (frame : Frame Value) : Bool := !frame.isBatching && !frame.isFlushing

end Frame

namespace Control

def isFlushing : Control Value → Bool
  | .flushing _ => true
  | _ => false

/-- Marking, and the flush that follows it: effects may be queued although no batch is open. -/
def isQueueing : Control Value → Bool
  | .mark _ | .flush => true
  | _ => false

/-- Neither marking nor flushing. -/
def isPlain (control : Control Value) : Bool := !control.isQueueing && !control.isFlushing

end Control

@[simp] theorem entry_isPlain (node : Nat) (color : Signals.Color) :
    (entry node color : Control Value).isPlain = true := by
  cases color <;> rfl

@[simp] theorem afterCleanups_isPlain (node : Nat) (purpose : Purpose) :
    (afterCleanups node purpose : Control Value).isPlain = true := by
  cases purpose <;> rfl

def openBatches (stack : List (Frame Value)) : Nat := stack.countP Frame.isBatching

@[simp] theorem openBatches_cons (frame : Frame Value) (rest : List (Frame Value)) :
    openBatches (frame :: rest) = openBatches rest + if frame.isBatching then 1 else 0 := by
  simp [openBatches, List.countP_cons]

theorem openBatches_pos {stack : List (Frame Value)} (opened : 0 < openBatches stack) :
    .batching ∈ stack := by
  obtain ⟨frame, member, isBatching⟩ := List.countP_pos_iff.mp opened
  cases frame with
  | batching => exact member
  | _ => simp [Frame.isBatching] at isBatching

theorem openBatches_of_mem {stack : List (Frame Value)} (member : .batching ∈ stack) :
    0 < openBatches stack :=
  List.countP_pos_iff.mpr ⟨_, member, rfl⟩

/-- No batch was open when a flush started its loop. -/
def FlushesOutside : List (Frame Value) → Prop
  | [] => True
  | frame :: rest => (frame.isFlushing = true → openBatches rest = 0) ∧ FlushesOutside rest

@[simp] theorem flushesOutside_cons (frame : Frame Value) (rest : List (Frame Value)) :
    FlushesOutside (frame :: rest) ↔
      (frame.isFlushing = true → openBatches rest = 0) ∧ FlushesOutside rest :=
  Iff.rfl

structure Batches (state : State Value) : Prop where
  depth : state.batchDepth = openBatches state.stack
  queue : state.control.isQueueing = false → state.batchDepth = 0 → state.pendingEffects = []
  flushing : state.control.isFlushing = true → openBatches state.stack = 0
  flushes : FlushesOutside state.stack

theorem Batches.start (program : Program Value) : Batches (State.start program) where
  depth := rfl
  queue _ _ := rfl
  flushing isFlushing := by simp [State.start, Control.isFlushing] at isFlushing
  flushes := trivial

namespace Batches

variable {state after : State Value}

theorem notFlushing {control : Control Value} (isPlain : control.isPlain = true) :
    control.isFlushing = false := by
  simp only [Control.isPlain, Bool.and_eq_true, Bool.not_eq_true'] at isPlain
  exact isPlain.2

section Keep

variable (batches : Batches state) (sameDepth : after.batchDepth = state.batchDepth)
  (sameQueue : after.pendingEffects = state.pendingEffects)
  (wasCalm : state.control.isQueueing = false)

include batches sameDepth

theorem pushed (queue : state.batchDepth = 0 → after.pendingEffects = [])
    (frames : List (Frame Value)) (isStack : after.stack = frames ++ state.stack)
    (plain : ∀ frame ∈ frames, frame.isPlain = true)
    (isPlain : after.control.isPlain = true) : Batches after := by
  have grown : openBatches after.stack = openBatches state.stack ∧ FlushesOutside after.stack := by
    rw [isStack]
    clear isStack
    induction frames with
    | nil => exact ⟨rfl, batches.flushes⟩
    | cons frame frames induction =>
        have isPlain := plain frame (List.mem_cons_self ..)
        obtain ⟨sameOpen, flushes⟩ :=
          induction fun frame member => plain frame (List.mem_cons_of_mem _ member)
        simp only [Frame.isPlain, Bool.and_eq_true, Bool.not_eq_true'] at isPlain
        simp [isPlain.1, isPlain.2, sameOpen, flushes]
  constructor
  · rw [sameDepth, batches.depth, grown.1]
  · intro _ outside
    exact queue (sameDepth ▸ outside)
  · intro isFlushing
    rw [notFlushing isPlain] at isFlushing
    cases isFlushing
  · exact grown.2

include sameQueue wasCalm

theorem stayed (sameStack : after.stack = state.stack)
    (flushing : after.control.isFlushing = true → state.control.isFlushing = true) :
    Batches after := by
  constructor
  · rw [sameDepth, batches.depth, sameStack]
  · intro _ outside
    rw [sameQueue]
    exact batches.queue wasCalm (sameDepth ▸ outside)
  · intro isFlushing
    rw [sameStack]
    exact batches.flushing (flushing isFlushing)
  · rw [sameStack]
    exact batches.flushes

theorem popped {frame : Frame Value} (isStack : state.stack = frame :: after.stack)
    (notBatching : frame.isBatching = false)
    (flushing : after.control.isFlushing = true → frame.isFlushing = true) : Batches after := by
  have flushes := batches.flushes
  have sameOpen : openBatches state.stack = openBatches after.stack := by
    simp [isStack, notBatching]
  rw [isStack, flushesOutside_cons] at flushes
  constructor
  · rw [sameDepth, batches.depth, sameOpen]
  · intro _ outside
    rw [sameQueue]
    exact batches.queue wasCalm (sameDepth ▸ outside)
  · intro isFlushing
    exact flushes.1 (flushing isFlushing)
  · exact flushes.2

end Keep

section Step

variable {program : Program Value} {state after : State Value} {action : Action Value}

theorem pending_of_user (batches : Batches state) (isUser : state.control = .user)
    (outside : state.batchDepth = 0) : state.pendingEffects = [] :=
  batches.queue (by rw [isUser]; rfl) outside

theorem runCleanups (batches : Batches state) (node : Nat) (purpose : Purpose)
    (wasCalm : state.control.isQueueing = false) :
    Batches (runCleanups node purpose state) := by
  rw [State.runCleanups]
  split
  next =>
    refine batches.stayed rfl rfl wasCalm rfl ?_
    intro isFlushing
    rw [notFlushing (afterCleanups_isPlain node purpose)] at isFlushing
    cases isFlushing
  next =>
    refine batches.stayed rfl rfl wasCalm rfl ?_
    intro isFlushing
    cases isFlushing

theorem takeQueue (batches : Batches state) (outside : openBatches state.stack = 0) :
    Batches (takeQueue program state) := by
  rw [State.takeQueue]
  split
  next isEmpty =>
    exact ⟨batches.depth, fun _ _ => isEmpty, fun isFlushing => absurd isFlushing Bool.false_ne_true,
      batches.flushes⟩
  next => exact ⟨batches.depth, fun _ _ => rfl, fun _ => outside, batches.flushes⟩

theorem step (batches : Batches state) (stepped : Step program state action after) :
    Batches after := by
  cases stepped with
  | getComputed node isUser =>
      exact batches.pushed rfl (batches.pending_of_user isUser) [_, _] rfl
        (by simp [Frame.isPlain, Frame.isBatching, Frame.isFlushing]) (by simp [pull])
  | getSignal node isUser | peekSignal node isUser | setNothing node value ending isUser
  | createSignal node value isUser | createComputed node value isUser =>
      exact batches.pushed rfl (batches.pending_of_user isUser) [_] rfl
        (by simp [Frame.isPlain, Frame.isBatching, Frame.isFlushing]) rfl
  | peekComputed node isUser =>
      exact batches.pushed rfl (batches.pending_of_user isUser) [_, _, _] rfl
        (by simp [Frame.isPlain, Frame.isBatching, Frame.isFlushing]) (by simp [pull])
  | setSignal node value isUser =>
      constructor
      · simp [batches.depth, Frame.isBatching]
      · intro notQueueing
        cases notQueueing
      · intro isFlushing
        cases isFlushing
      · simp [batches.flushes, Frame.isFlushing]
  | createQueued node value isUser fresh isEffect deep =>
      exact batches.pushed rfl (fun outside => absurd outside (Nat.ne_of_gt deep)) [_] rfl
        (by simp [Frame.isPlain, Frame.isBatching, Frame.isFlushing]) rfl
  | createEffect node value isUser =>
      exact batches.pushed rfl (batches.pending_of_user isUser) [_, _] rfl
        (by simp [Frame.isPlain, Frame.isBatching, Frame.isFlushing]) rfl
  | dispose node isUser =>
      apply runCleanups _ node .dispose (by simp [isUser, Control.isQueueing])
      refine batches.pushed rfl (batches.pending_of_user isUser) [.user] rfl ?_ ?_
      · simp [Frame.isPlain, Frame.isBatching, Frame.isFlushing]
      · rw [isUser]
        rfl
  | untrack isUser =>
      refine batches.pushed rfl (batches.pending_of_user isUser) [.untracking _, .user] rfl ?_ ?_
      · simp [Frame.isPlain, Frame.isBatching, Frame.isFlushing]
      · rw [isUser]
        rfl
  | batch isUser =>
      constructor
      · simp [batches.depth, Frame.isBatching]
      · intro _ outside
        cases outside
      · rw [isUser]
        intro isFlushing
        cases isFlushing
      · simp [batches.flushes, Frame.isFlushing]
  | finish ending isUser =>
      exact batches.stayed rfl rfl (by rw [isUser]; rfl) rfl fun isFlushing => absurd isFlushing Bool.false_ne_true
  | backToUser ending stack isComplete isStack =>
      exact batches.popped rfl rfl (by rw [isComplete]; rfl) isStack rfl
        fun isFlushing => absurd isFlushing Bool.false_ne_true
  | restored ending frame prev stack isComplete isFrame isStack =>
      refine batches.popped rfl rfl (by rw [isComplete]; rfl) isStack ?_ ?_
      · rcases isFrame with rfl | rfl <;> rfl
      · rw [isComplete]
        intro isFlushing
        cases isFlushing
  | batchEnded ending stack isComplete isStack =>
      have depth := batches.depth
      have flushes := batches.flushes
      rw [isStack] at depth flushes
      constructor
      · simp [depth, Frame.isBatching]
      · intro notQueueing
        cases notQueueing
      · intro isFlushing
        cases isFlushing
      · simpa [Frame.isFlushing] using flushes
  | batchFlushed flushEnding ending last stack isComplete isStack =>
      exact batches.popped rfl rfl (by rw [isComplete]; rfl) isStack rfl
        fun isFlushing => absurd isFlushing Bool.false_ne_true
  | effectReturned node value prevReaction prevUntracked stack isComplete isStack
  | computedReturned node value prevReaction prevUntracked stack isComplete isStack
  | computedChanged node value prevReaction prevUntracked stack isComplete isStack =>
      exact batches.popped rfl rfl (by rw [isComplete]; rfl) isStack rfl
        fun isFlushing => absurd isFlushing Bool.false_ne_true
  | runThrew node prevReaction prevUntracked stack isComplete isStack
  | cleanupThrew node index prev purpose stack isComplete isStack
  | getThrew node reader stack isComplete isStack
  | checkThrew node index source stack isComplete isStack
  | flushThrew effects stack isComplete isStack | createThrew node stack isComplete isStack =>
      refine batches.popped rfl rfl (by rw [isComplete]; rfl) isStack rfl ?_
      rw [isComplete]
      intro isFlushing
      cases isFlushing
  | cleanupReturned node index prev purpose value stack isComplete isStack =>
      exact batches.popped rfl rfl (by rw [isComplete]; rfl) isStack rfl
        fun isFlushing => absurd isFlushing Bool.false_ne_true
  | gotten pulled node reader stack isPulled isStack
  | foundDirty pulled node index source stack isPulled isStack
  | checkedOne pulled node index source stack isPulled isStack
  | constructed pulled node stack isPulled isStack =>
      exact batches.popped rfl rfl (by rw [isPulled]; rfl) isStack rfl
        fun isFlushing => absurd isFlushing Bool.false_ne_true
  | ranOne pulled effects stack isPulled isStack =>
      exact batches.popped rfl rfl (by rw [isPulled]; rfl) isStack rfl fun _ => rfl
  | checkSource node index source isCheck =>
      exact batches.pushed rfl (batches.queue (by rw [isCheck]; rfl)) [_] rfl
        (by simp [Frame.isPlain, Frame.isBatching, Frame.isFlushing]) (by simp [pull])
  | checkHole node index isCheck | checkDirty node index isCheck | checkedAll node index isCheck =>
      exact batches.stayed rfl rfl (by rw [isCheck]; rfl) rfl fun isFlushing => absurd isFlushing Bool.false_ne_true
  | updateEffect node isUpdate => exact batches.runCleanups node .update (by rw [isUpdate]; rfl)
  | updateComputed node isUpdate =>
      exact batches.stayed rfl rfl (by rw [isUpdate]; rfl) rfl fun isFlushing => absurd isFlushing Bool.false_ne_true
  | callCleanup node index prev purpose isClean =>
      exact batches.pushed rfl (batches.queue (by rw [isClean]; rfl)) [_] rfl
        (by simp [Frame.isPlain, Frame.isBatching, Frame.isFlushing]) rfl
  | cleaned node index prev purpose isClean =>
      refine batches.stayed rfl rfl (by rw [isClean]; rfl) rfl ?_
      intro isFlushing
      rw [notFlushing (afterCleanups_isPlain node purpose)] at isFlushing
      cases isFlushing
  | begin node isBegin =>
      exact batches.pushed rfl (batches.queue (by rw [isBegin]; rfl)) [_] rfl
        (by simp [Frame.isPlain, Frame.isBatching, Frame.isFlushing]) rfl
  | release node isRelease =>
      exact batches.stayed rfl rfl (by rw [isRelease]; rfl) rfl
        fun isFlushing => absurd isFlushing Bool.false_ne_true
  | markedAll isMark | markSkipped color node calls isMark =>
      exact ⟨batches.depth, fun notQueueing => absurd notQueueing (Bool.false_ne_true ∘ Eq.symm),
        fun isFlushing => absurd isFlushing Bool.false_ne_true, batches.flushes⟩
  | marked color node calls isMark =>
      exact ⟨batches.depth, fun notQueueing => absurd notQueueing (Bool.false_ne_true ∘ Eq.symm),
        fun isFlushing => absurd isFlushing Bool.false_ne_true, batches.flushes⟩
  | flushDeferred isFlush deep =>
      exact ⟨batches.depth, fun _ outside => absurd outside (Nat.ne_of_gt deep),
        fun isFlushing => absurd isFlushing Bool.false_ne_true, batches.flushes⟩
  | flushStarted isFlush outside => exact batches.takeQueue (batches.depth ▸ outside)
  | flushRound isFlushing => exact batches.takeQueue (batches.flushing (by rw [isFlushing]; rfl))
  | flushSkip effect effects isFlushing =>
      exact batches.stayed rfl rfl (by rw [isFlushing]; rfl) rfl fun _ => by rw [isFlushing]; rfl
  | flushPull effect effects isFlushing =>
      have outside := batches.flushing (by rw [isFlushing]; rfl)
      constructor
      · simp [pull, batches.depth, Frame.isBatching]
      · intro _ atTop
        exact batches.queue (by rw [isFlushing]; rfl) atTop
      · intro isFlushing
        rw [notFlushing (by simp [pull])] at isFlushing
        cases isFlushing
      · simp [pull, batches.flushes, outside]

end Step

end Batches

end FoundationsLab.Reentrant
