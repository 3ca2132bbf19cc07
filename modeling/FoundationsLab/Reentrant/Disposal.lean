import FoundationsLab.Reentrant.Wiring

namespace FoundationsLab.Reentrant

open State

/-! Disposal. Once the disposer of an effect has been called, the effect is not started again,
unless one of four things happens, each of which is a condition on a step. -/

variable {Value : Type}

/-! ## The stages of a disposal -/

/-- The effect is being disposed: its cleanups run somewhere down the stack, and nothing above
them is about to start it again. -/
inductive Guarded (effect : Nat) (queued : Prop) : List (Frame Value) → Prop where
  | base {index : Nat} {prev : Bool} {below : List (Frame Value)}
      (notUpdating : ∀ index prev, .cleaning effect index prev .update ∉ below)
      (inBatch : queued → .batching ∈ below) :
      Guarded effect queued (.cleaning effect index prev .dispose :: below)
  | above {frame : Frame Value} {rest : List (Frame Value)} (quiet : effect ∉ frame.engaged)
      (guarded : Guarded effect queued rest) : Guarded effect queued (frame :: rest)

/-- What the stack must be like for a disposal of the effect to begin. -/
structure Disposable (effect : Nat) (queued : Prop) (stack : List (Frame Value)) : Prop where
  notUpdating : ∀ index prev, .cleaning effect index prev .update ∉ stack
  inBatch : queued → .batching ∈ stack

theorem Disposable.cons {effect : Nat} {queued : Prop} {frame : Frame Value}
    {stack : List (Frame Value)} (disposable : Disposable effect queued stack)
    (quiet : ∀ index prev, frame ≠ .cleaning effect index prev .update) :
    Disposable effect queued (frame :: stack) where
  notUpdating index prev member := by
    rcases List.mem_cons.mp member with isFrame | isOld
    · exact quiet index prev isFrame.symm
    · exact disposable.notUpdating index prev isOld
  inBatch isQueued := List.mem_cons_of_mem _ (disposable.inBatch isQueued)

namespace Guarded

variable {effect : Nat} {queued : Prop} {stack : List (Frame Value)}

theorem disposable (guarded : Guarded effect queued stack) : Disposable effect queued stack := by
  induction guarded with
  | base notUpdating inBatch =>
      exact Disposable.cons ⟨notUpdating, inBatch⟩ (by simp)
  | above quiet guarded induction =>
      apply induction.cons
      rintro index prev rfl
      exact quiet (List.mem_singleton_self _)

theorem mono {fewer : Prop} (guarded : Guarded effect queued stack) (less : fewer → queued) :
    Guarded effect fewer stack := by
  induction guarded with
  | base notUpdating inBatch => exact .base notUpdating (inBatch ∘ less)
  | above quiet guarded induction => exact .above quiet induction

theorem cleaning_mem (guarded : Guarded effect queued stack) :
    ∃ index prev, .cleaning effect index prev .dispose ∈ stack := by
  induction guarded with
  | base notUpdating inBatch => exact ⟨_, _, List.mem_cons_self ..⟩
  | above quiet guarded induction =>
      obtain ⟨index, prev, member⟩ := induction
      exact ⟨index, prev, List.mem_cons_of_mem _ member⟩

theorem tail {frame : Frame Value} (guarded : Guarded effect queued (frame :: stack)) :
    (∃ index prev, frame = .cleaning effect index prev .dispose) ∧
        Disposable effect queued stack ∨
      effect ∉ frame.engaged ∧ Guarded effect queued stack := by
  cases guarded with
  | base notUpdating inBatch => exact Or.inl ⟨⟨_, _, rfl⟩, notUpdating, inBatch⟩
  | above quiet guarded => exact Or.inr ⟨quiet, guarded⟩

/-- Any other frame on top stands above the cleanups. -/
theorem popped {frame : Frame Value} (guarded : Guarded effect queued (frame :: stack))
    (other : ∀ index prev, frame ≠ .cleaning effect index prev .dispose) :
    effect ∉ frame.engaged ∧ Guarded effect queued stack := by
  rcases guarded.tail with ⟨⟨index, prev, isFrame⟩, -⟩ | isAbove
  · exact absurd isFrame (other index prev)
  · exact isAbove

end Guarded

inductive Disposing (effect : Nat) (state : State Value) : Prop where
  | called (purpose : (∃ index prev, state.control = .clean effect index prev .dispose) ∨
        state.control = .release effect)
      (disposable : Disposable effect (effect ∈ state.pendingEffects) state.stack)
  | guarded (quiet : effect ∉ state.control.engaged)
      (guarded : Guarded effect (effect ∈ state.pendingEffects) state.stack)

/-- The next run of the effect has been decided on. -/
def Control.starts (effect : Nat) : Control Value → Bool
  | .update node | .begin node | .clean node _ _ .update => node = effect
  | _ => false

/-- The disposal is done, and nothing can reach the effect any more. -/
structure Released (effect : Nat) (state : State Value) : Prop where
  unobserved : ∀ source, effect ∉ state.observers source
  clean : state.state effect = .clean
  notUpdating : ∀ index prev, .cleaning effect index prev .update ∉ state.stack
  idle : state.control.starts effect = false
  unmarked : ∀ color, (color, effect) ∉ state.control.calls

/-! ## The four conditions -/

def Frame.isCleaning (effect : Nat) (purpose : Purpose) : Frame Value → Bool
  | .cleaning node _ _ other => node = effect && other = purpose
  | _ => false

def Control.marks (effect : Nat) : Control Value → Bool
  | .mark ((_, node) :: _) => node = effect
  | _ => false

def Action.isGet : Action Value → Bool
  | .get _ => true
  | _ => false

/-- The disposer is not called while the cleanups before a run of the effect are running, for the
run follows them all the same. Once it has been called, the effect does not read in a tracked
way, which would subscribe it again; while it runs the cleanups, no write marks the effect, and
no cleanup throws. -/
def KeepsDisposal (effect : Nat) (state : State Value)
    (action : Action Value) : Prop :=
  (action = .dispose effect → state.stack.any (Frame.isCleaning effect .update) = false) ∧
  (action.isGet = true → .disposerCalled effect ∈ state.log → state.reader ≠ some effect) ∧
  (state.stack.any (Frame.isCleaning effect .dispose) = true →
    state.control.marks effect = true → state.state effect ≠ .clean) ∧
  ((state.stack.take 1).any (Frame.isCleaning effect .dispose) = true →
    state.control ≠ .complete .thrown)

instance [DecidableEq Value] (effect : Nat) (state : State Value) (action : Action Value) :
    Decidable (KeepsDisposal effect state action) :=
  inferInstanceAs (Decidable (_ ∧ _ ∧ _ ∧ _))

/-! ## What each step preserves -/

section Step

variable {program : Program Value} {state after : State Value} {action : Action Value}
  {effect : Nat}

theorem isCleaning_iff {purpose : Purpose} {frame : Frame Value} :
    frame.isCleaning effect purpose = true ↔
      ∃ index prev, frame = .cleaning effect index prev purpose := by
  cases frame <;> simp [Frame.isCleaning]

theorem not_cleaning_of_any {purpose : Purpose} {stack : List (Frame Value)}
    (none : stack.any (Frame.isCleaning effect purpose) = false) (index : Nat) (prev : Bool) :
    .cleaning effect index prev purpose ∉ stack := by
  intro member
  have found := List.any_eq_false.mp none _ member
  exact found (isCleaning_iff.mpr ⟨index, prev, rfl⟩)

theorem starts_entry {node : Nat} {color : Signals.Color}
    (starts : (entry node color : Control Value).starts effect = true) :
    node = effect ∧ color = .dirty := by
  cases color with
  | clean | check => exact absurd starts Bool.false_ne_true
  | dirty => exact ⟨of_decide_eq_true starts, rfl⟩

namespace Released

theorem same (released : Released effect state) (sameObservers : after.observers = state.observers)
    (sameState : after.state effect = state.state effect)
    (sameFrames : ∀ index prev, .cleaning effect index prev .update ∈ after.stack →
      .cleaning effect index prev .update ∈ state.stack)
    (idle : after.control.starts effect = false) (unmarked : after.control.calls = []) :
    Released effect after where
  unobserved := sameObservers ▸ released.unobserved
  clean := sameState.trans released.clean
  notUpdating index prev member := released.notUpdating index prev (sameFrames index prev member)
  idle := idle
  unmarked color member := by
    rw [unmarked] at member
    exact absurd member List.not_mem_nil

theorem unobserved_track (released : Released effect state) (node : Nat)
    (unread : state.reader ≠ some effect) (source : Nat) :
    effect ∉ (state.track node).observers source := by
  rw [Wired.mem_track_observers]
  rintro (isOld | ⟨isReader, -⟩)
  · exact released.unobserved source isOld
  · exact unread isReader

/-- `updateIfNecessary` on any node does not start the effect. -/
theorem idle_entry (released : Released effect state) (node : Nat) :
    (entry node (state.state node) : Control Value).starts effect = false := by
  cases starts : (entry node (state.state node) : Control Value).starts effect with
  | false => rfl
  | true =>
      obtain ⟨rfl, isDirty⟩ := starts_entry starts
      rw [released.clean] at isDirty
      cases isDirty

theorem runCleanups (released : Released effect state) (node : Nat) {purpose : Purpose}
    (other : purpose = .update → node ≠ effect) :
    Released effect (runCleanups node purpose state) := by
  rw [State.runCleanups]
  split
  · refine released.same rfl rfl (fun _ _ => id) ?_ ?_
    · cases purpose with
      | update => exact decide_eq_false (other rfl)
      | dispose => rfl
    · exact calls_afterCleanups node purpose
  · refine released.same rfl rfl (fun _ _ => id) ?_ ?_
    · cases purpose with
      | update => exact decide_eq_false (other rfl)
      | dispose => rfl
    · rfl

theorem settle (released : Released effect state) (node : Nat) :
    Released effect (settle node state) := by
  refine released.same rfl ?_ (fun _ _ => id) rfl rfl
  simp only [State.settle]
  by_cases isEffect : effect = node
  · rw [← isEffect, Function.update_self, released.clean]
  · rw [Function.update_of_ne isEffect]

theorem step (released : Released effect state) (exist : state.created effect = true)
    (called : .disposerCalled effect ∈ state.log) (keeps : KeepsDisposal effect state action)
    (stepped : Step program state action after) : Released effect after := by
  have update_other {node : Nat} {color : Signals.Color} (different : effect ≠ node) :
      Function.update state.state node color effect = state.state effect :=
    Function.update_of_ne different ..
  have not_fresh {node : Nat} (fresh : state.created node = false) : effect ≠ node := by
    rintro rfl
    rw [fresh] at exist
    cases exist
  cases stepped with
  | getComputed node isUser =>
      constructor
      · exact released.unobserved_track node (keeps.2.1 rfl called)
      · exact released.clean
      · intro index prev
        simpa [pull] using released.notUpdating index prev
      · exact released.idle_entry node
      · intro color
        rw [pull, calls_entry]
        exact List.not_mem_nil
  | getSignal node isUser =>
      constructor
      · exact released.unobserved_track node (keeps.2.1 rfl called)
      · exact released.clean
      · intro index prev
        simpa using released.notUpdating index prev
      · rfl
      · intro color
        exact List.not_mem_nil
  | peekComputed node isUser =>
      refine released.same rfl rfl (fun index prev member => by simpa [pull] using member) ?_ ?_
      · exact released.idle_entry node
      · exact calls_entry ..
  | peekSignal | setNothing | createSignal =>
      exact released.same rfl rfl (fun index prev member => by simpa using member) rfl rfl
  | setSignal node value isUser =>
      constructor
      · exact released.unobserved
      · exact released.clean
      · intro index prev
        simpa using released.notUpdating index prev
      · rfl
      · intro color member
        obtain ⟨observer, isObserver, same⟩ := List.mem_map.mp member
        cases same
        exact released.unobserved node isObserver
  | createComputed node value isUser fresh | createQueued node value isUser fresh =>
      exact released.same rfl (update_other (not_fresh fresh))
        (fun index prev member => by simpa using member) rfl rfl
  | createEffect node value isUser fresh =>
      exact released.same rfl (update_other (not_fresh fresh))
        (fun index prev member => by simpa using member)
        (decide_eq_false (not_fresh fresh).symm) rfl
  | dispose node isUser =>
      have base : Released effect
          { state with
            stack := .user :: state.stack
            log := state.log ++ [.disposerCalled node] } := by
        refine released.same rfl rfl (fun index prev member => by simpa using member) ?_ ?_
        · rw [isUser]
          rfl
        · rw [isUser]
          rfl
      exact base.runCleanups node fun isUpdate => absurd isUpdate (by decide)
  | untrack isUser | batch isUser =>
      refine released.same rfl rfl (fun index prev member => by simpa using member) ?_ ?_
      · rw [isUser]
        rfl
      · rw [isUser]
        rfl
  | finish => exact released.same rfl rfl (fun _ _ => id) rfl rfl
  | backToUser ending stack isComplete isStack
  | batchFlushed flushEnding ending last stack isComplete isStack
  | ranOne pulled effects stack isComplete isStack
  | gotten pulled node reader stack isComplete isStack
  | checkedOne pulled node index source stack isComplete isStack
  | constructed pulled node stack isComplete isStack =>
      exact released.same rfl rfl (fun _ _ member => isStack ▸ List.mem_cons_of_mem _ member)
        rfl rfl
  | restored ending frame prev stack isComplete isFrame isStack
  | runThrew node prevReaction prevUntracked stack isComplete isStack
  | cleanupThrew node index prev purpose stack isComplete isStack
  | getThrew node reader stack isComplete isStack
  | checkThrew node index source stack isComplete isStack
  | flushThrew effects stack isComplete isStack | createThrew node stack isComplete isStack =>
      refine released.same rfl rfl (fun _ _ member => isStack ▸ List.mem_cons_of_mem _ member) ?_ ?_
      · rw [isComplete]
        rfl
      · rw [isComplete]
        rfl
  | batchEnded ending stack isComplete isStack =>
      refine released.same rfl rfl (fun index prev member => ?_) rfl rfl
      rw [isStack]
      simpa using member
  | effectReturned node value prevReaction prevUntracked stack isComplete isStack
  | computedReturned node value prevReaction prevUntracked stack isComplete isStack =>
      apply settle
      refine released.same rfl rfl (fun _ _ member => isStack ▸ List.mem_cons_of_mem _ member) ?_ ?_
      · rw [isComplete]
        rfl
      · rw [isComplete]
        rfl
  | computedChanged node value prevReaction prevUntracked stack isComplete isStack =>
      apply settle
      refine released.same rfl ?_ (fun _ _ member => isStack ▸ List.mem_cons_of_mem _ member) ?_ ?_
      · exact if_neg (released.unobserved node)
      · rw [changeValue, isComplete]
        rfl
      · rw [changeValue, isComplete]
        rfl
  | cleanupReturned node index prev purpose value stack isComplete isStack =>
      have unlike : purpose = .update → node ≠ effect := by
        rintro rfl rfl
        exact released.notUpdating index prev (isStack ▸ List.mem_cons_self ..)
      refine released.same rfl rfl (fun _ _ member => isStack ▸ List.mem_cons_of_mem _ member) ?_ rfl
      cases purpose with
      | update => exact decide_eq_false (unlike rfl)
      | dispose => rfl
  | foundDirty pulled node index source stack isPulled isStack isDirty =>
      refine released.same rfl rfl (fun _ _ member => isStack ▸ List.mem_cons_of_mem _ member) ?_ rfl
      apply decide_eq_false
      rintro rfl
      rw [released.clean] at isDirty
      cases isDirty
  | checkSource node index source =>
      exact released.same rfl rfl (fun index prev member => by simpa [pull] using member)
        (released.idle_entry source) (calls_entry ..)
  | checkHole | flushDeferred | flushSkip => exact released.same rfl rfl (fun _ _ => id) rfl rfl
  | checkDirty node index isCheck atEnd isDirty =>
      refine released.same rfl rfl (fun _ _ => id) (decide_eq_false ?_) rfl
      rintro rfl
      rw [released.clean] at isDirty
      cases isDirty
  | checkedAll node index isCheck => exact released.settle node
  | updateEffect node isUpdate =>
      have idle := released.idle
      rw [isUpdate] at idle
      exact released.runCleanups node fun _ => of_decide_eq_false idle
  | updateComputed node isUpdate =>
      have idle := released.idle
      rw [isUpdate] at idle
      exact released.same rfl rfl (fun _ _ => id) idle rfl
  | callCleanup node index prev purpose isClean =>
      have idle := released.idle
      rw [isClean] at idle
      refine released.same rfl rfl (fun otherIndex otherPrev member => ?_) rfl rfl
      rcases List.mem_cons.mp member with isNew | isOld
      · cases isNew
        exact absurd rfl (of_decide_eq_false idle)
      · exact isOld
  | cleaned node index prev purpose isClean =>
      have idle := released.idle
      rw [isClean] at idle
      refine released.same rfl rfl (fun _ _ => id) ?_ (calls_afterCleanups ..)
      cases purpose with
      | update => exact idle
      | dispose => rfl
  | begin node isBegin =>
      constructor
      · intro source member
        simp only [State.begin, detach] at member
        split at member
        next => exact released.unobserved source (List.mem_of_mem_filter member)
        next => exact released.unobserved source member
      · exact released.clean
      · intro index prev
        simpa [State.begin] using released.notUpdating index prev
      · rfl
      · intro color
        exact List.not_mem_nil
  | release node isRelease =>
      constructor
      · intro source member
        simp only [State.release] at member
        by_cases isNode : source = node
        · subst isNode
          simp at member
        · rw [Function.update_of_ne isNode] at member
          simp only [detach] at member
          split at member
          next => exact released.unobserved source (List.mem_of_mem_filter member)
          next => exact released.unobserved source member
      · simp only [State.release]
        by_cases isEffect : effect = node
        · rw [← isEffect, Function.update_self]
        · rw [Function.update_of_ne isEffect, released.clean]
      · exact released.notUpdating
      · rfl
      · intro color
        exact List.not_mem_nil
  | markedAll isMark => exact released.same rfl rfl (fun _ _ => id) rfl rfl
  | markSkipped color node calls isMark =>
      have unmarked := released.unmarked
      rw [isMark] at unmarked
      exact ⟨released.unobserved, released.clean, released.notUpdating, rfl,
        fun other member => unmarked other (List.mem_cons_of_mem _ member)⟩
  | marked color node calls isMark =>
      have unmarked := released.unmarked
      rw [isMark] at unmarked
      have different : effect ≠ node := by
        rintro rfl
        exact unmarked color (List.mem_cons_self ..)
      constructor
      · exact released.unobserved
      · exact (update_other different).trans released.clean
      · exact released.notUpdating
      · rfl
      · intro other member
        rcases List.mem_append.mp member with isNew | isOld
        · obtain ⟨observer, isObserver, same⟩ := List.mem_map.mp isNew
          cases same
          exact released.unobserved node isObserver
        · exact unmarked other (List.mem_cons_of_mem _ isOld)
  | flushStarted | flushRound =>
      rw [State.takeQueue]
      split <;> exact released.same rfl rfl (fun _ _ => id) rfl rfl
  | flushPull node effects isFlushing =>
      exact released.same rfl rfl (fun index prev member => by simpa [pull] using member)
        (released.idle_entry node) (calls_entry ..)

end Released

namespace Disposing

theorem disposable (disposing : Disposing effect state) :
    Disposable effect (effect ∈ state.pendingEffects) state.stack := by
  cases disposing with
  | called purpose disposable => exact disposable
  | guarded quiet guarded => exact guarded.disposable

/-- The end of a disposal takes the effect out of the graph. -/
theorem release (disposing : Disposing effect state) (wired : Wired program state) :
    Released effect (release program effect state) where
  unobserved source member := by
    simp only [State.release] at member
    by_cases isEffect : source = effect
    · subst isEffect
      simp at member
    · rw [Function.update_of_ne isEffect, wired.mem_detach_observers] at member
      exact member.2 rfl
  clean := Function.update_self ..
  notUpdating := disposing.disposable.notUpdating
  idle := rfl
  unmarked _ := List.not_mem_nil

/-- What the code that runs during the cleanups leaves alone. -/
theorem stayed (guarded : Guarded effect (effect ∈ state.pendingEffects) state.stack)
    (sameQueue : effect ∈ after.pendingEffects → effect ∈ state.pendingEffects)
    (sameStack : after.stack = state.stack) (quiet : effect ∉ after.control.engaged) :
    Disposing effect after :=
  .guarded quiet (sameStack ▸ guarded.mono sameQueue)

theorem pushed (guarded : Guarded effect (effect ∈ state.pendingEffects) state.stack)
    (sameQueue : effect ∈ after.pendingEffects → effect ∈ state.pendingEffects)
    (frames : List (Frame Value)) (isStack : after.stack = frames ++ state.stack)
    (quietFrames : ∀ frame ∈ frames, effect ∉ frame.engaged)
    (quiet : effect ∉ after.control.engaged) : Disposing effect after := by
  refine .guarded quiet ?_
  rw [isStack]
  clear isStack quiet
  induction frames with
  | nil => exact guarded.mono sameQueue
  | cons frame frames induction =>
      exact .above (quietFrames frame (List.mem_cons_self ..))
        (induction fun other member => quietFrames other (List.mem_cons_of_mem _ member))

theorem popped (guarded : Guarded effect (effect ∈ state.pendingEffects) state.stack)
    (sameQueue : after.pendingEffects = state.pendingEffects) {frame : Frame Value}
    (isStack : state.stack = frame :: after.stack)
    (other : ∀ index prev, frame ≠ .cleaning effect index prev .dispose)
    (quiet : effect ∉ frame.engaged → effect ∉ after.control.engaged) :
    Disposing effect after := by
  rw [isStack] at guarded
  obtain ⟨quietFrame, guarded⟩ := guarded.popped other
  exact .guarded (quiet quietFrame) (sameQueue ▸ guarded)

theorem takeQueue (guarded : Guarded effect (effect ∈ state.pendingEffects) state.stack)
    (outside : openBatches state.stack = 0) : Disposing effect (takeQueue program state) := by
  have unqueued : effect ∉ state.pendingEffects := fun queued =>
    absurd (openBatches_of_mem (guarded.disposable.inBatch queued)) (by omega)
  rw [State.takeQueue]
  split
  · exact stayed guarded id rfl List.not_mem_nil
  · exact stayed guarded (fun member => absurd member List.not_mem_nil) rfl unqueued

theorem step_called (disposable : Disposable effect (effect ∈ state.pendingEffects) state.stack)
    (wired : Wired program state)
    (purpose : (∃ index prev, state.control = .clean effect index prev .dispose) ∨
      state.control = .release effect)
    (stepped : Step program state action after) :
    Disposing effect after ∨ Released effect after := by
  rcases purpose with ⟨index, prev, isClean⟩ | isRelease
  · cases stepped with
    | callCleanup node otherIndex otherPrev otherPurpose isControl =>
        rw [isClean] at isControl
        cases isControl
        exact Or.inl (.guarded List.not_mem_nil
          (.base disposable.notUpdating disposable.inBatch))
    | cleaned node otherIndex otherPrev otherPurpose isControl =>
        rw [isClean] at isControl
        cases isControl
        exact Or.inl (.called (Or.inr rfl) disposable)
    | _ => simp_all
  · cases stepped with
    | release node isControl =>
        rw [isRelease] at isControl
        cases isControl
        exact Or.inr (release (.called (Or.inr isRelease) disposable) wired)
    | _ => simp_all

theorem step_guarded (quiet : effect ∉ state.control.engaged)
    (guarded : Guarded effect (effect ∈ state.pendingEffects) state.stack)
    (wired : Wired program state) (batches : Batches state)
    (isEffect : program.kind effect = .effect) (exist : state.created effect = true)
    (keeps : KeepsDisposal effect state action) (stepped : Step program state action after) :
    Disposing effect after ∨ Released effect after := by
  have not_fresh {node : Nat} (fresh : state.created node = false) : effect ≠ node := by
    rintro rfl
    rw [fresh] at exist
    cases exist
  have not_pulled {node : Nat} (other : program.kind node ≠ .effect) :
      effect ∉ (entry node (state.state node) : Control Value).engaged := by
    intro member
    obtain ⟨rfl, -⟩ := engaged_entry member
    exact other isEffect
  cases stepped with
  | getComputed node isUser fresh isComputed =>
      exact Or.inl (pushed guarded id [_, _] rfl (by simp [Frame.engaged])
        (not_pulled (by simp [isComputed])))
  | peekComputed node isUser fresh isComputed =>
      exact Or.inl (pushed guarded id [_, _, _] rfl (by simp [Frame.engaged])
        (not_pulled (by simp [isComputed])))
  | getSignal | peekSignal | setNothing | setSignal | createSignal | createComputed =>
      exact Or.inl (pushed guarded id [_] rfl (by simp [Frame.engaged]) List.not_mem_nil)
  | createQueued node value isUser fresh =>
      refine Or.inl (pushed guarded (fun member => ?_) [_] rfl (by simp [Frame.engaged])
        List.not_mem_nil)
      rcases List.mem_append.mp member with isOld | isNew
      · exact isOld
      · exact absurd (List.mem_singleton.mp isNew) (not_fresh fresh)
  | createEffect node value isUser fresh =>
      refine Or.inl (pushed guarded id [_, _] rfl (by simp [Frame.engaged]) fun member => ?_)
      exact not_fresh fresh (List.mem_singleton.mp member)
  | dispose node isUser =>
      by_cases isNode : node = effect
      · -- The disposer is called again from a cleanup.
        subst isNode
        have disposable := @Disposable.cons _ _ _ .user _ guarded.disposable (by simp)
        rw [State.runCleanups]
        split
        · exact Or.inl (.called (Or.inr rfl) disposable)
        · exact Or.inl (.called (Or.inl ⟨_, _, rfl⟩) disposable)
      · rw [State.runCleanups]
        split <;> exact Or.inl (pushed guarded id [.user] rfl (by simp [Frame.engaged])
          List.not_mem_nil)
  | untrack isUser =>
      exact Or.inl (pushed guarded id [.untracking _, .user] rfl (by simp [Frame.engaged]) quiet)
  | batch isUser =>
      exact Or.inl (pushed guarded id [.batching, .user] rfl (by simp [Frame.engaged]) quiet)
  | finish => exact Or.inl (stayed guarded id rfl List.not_mem_nil)
  | backToUser ending stack isComplete isStack
  | batchFlushed flushEnding ending last stack isComplete isStack
  | gotten pulled node reader stack isComplete isStack
  | constructed pulled node stack isComplete isStack
  | effectReturned node value prevReaction prevUntracked stack isComplete isStack
  | computedReturned node value prevReaction prevUntracked stack isComplete isStack
  | computedChanged node value prevReaction prevUntracked stack isComplete isStack =>
      exact Or.inl (popped guarded rfl isStack (by simp) fun _ => List.not_mem_nil)
  | restored ending frame prev stack isComplete isFrame isStack =>
      refine Or.inl (popped guarded rfl isStack ?_ fun _ => quiet)
      rcases isFrame with rfl | rfl <;> simp
  | runThrew node prevReaction prevUntracked stack isComplete isStack
  | getThrew node reader stack isComplete isStack
  | checkThrew node index source stack isComplete isStack
  | flushThrew effects stack isComplete isStack | createThrew node stack isComplete isStack =>
      exact Or.inl (popped guarded rfl isStack (by simp) fun _ => quiet)
  | batchEnded ending stack isComplete isStack =>
      rw [isStack] at guarded
      obtain ⟨-, guarded⟩ := guarded.popped (by simp)
      exact Or.inl (.guarded List.not_mem_nil (.above List.not_mem_nil guarded))
  | cleanupReturned node index prev purpose value stack isComplete isStack =>
      rw [isStack] at guarded
      rcases guarded.tail with ⟨⟨otherIndex, otherPrev, isFrame⟩, disposable⟩ | ⟨other, guarded⟩
      · cases isFrame
        exact Or.inl (.called (Or.inl ⟨_, _, rfl⟩) disposable)
      · exact Or.inl (.guarded (by cases purpose <;> exact other) guarded)
  | cleanupThrew node index prev purpose stack isComplete isStack =>
      have notThrown := keeps.2.2.2
      rw [isStack] at guarded notThrown
      rcases guarded.tail with ⟨⟨otherIndex, otherPrev, isFrame⟩, -⟩ | ⟨-, guarded⟩
      · cases isFrame
        exact absurd isComplete (notThrown (by simp [Frame.isCleaning]))
      · exact Or.inl (.guarded quiet guarded)
  | foundDirty pulled node index source stack isPulled isStack
  | checkedOne pulled node index source stack isPulled isStack
  | ranOne pulled effects stack isPulled isStack =>
      exact Or.inl (popped guarded rfl isStack (by simp) id)
  | checkSource node index source isCheck isSource =>
      rw [isCheck] at quiet
      have other := (wired.readable source node (List.mem_of_getElem? isSource)).1
      refine Or.inl (pushed guarded id [_] rfl ?_ (not_pulled other))
      intro frame member
      cases List.mem_singleton.mp member
      exact quiet
  | checkHole node index isCheck | checkDirty node index isCheck =>
      rw [isCheck] at quiet
      exact Or.inl (stayed guarded id rfl quiet)
  | checkedAll => exact Or.inl (stayed guarded id rfl List.not_mem_nil)
  | updateEffect node isUpdate =>
      rw [isUpdate] at quiet
      rw [State.runCleanups]
      split <;> exact Or.inl (stayed guarded id rfl quiet)
  | updateComputed node isUpdate =>
      rw [isUpdate] at quiet
      exact Or.inl (stayed guarded id rfl quiet)
  | callCleanup node index prev purpose isClean =>
      rw [isClean] at quiet
      refine Or.inl (pushed guarded id [_] rfl ?_ List.not_mem_nil)
      intro frame member
      cases List.mem_singleton.mp member
      cases purpose <;> exact quiet
  | cleaned node index prev purpose isClean =>
      rw [isClean] at quiet
      exact Or.inl (stayed guarded id rfl (by cases purpose <;> exact quiet))
  | begin node isBegin =>
      rw [isBegin] at quiet
      refine Or.inl (pushed guarded id [_] rfl ?_ List.not_mem_nil)
      intro frame member
      cases List.mem_singleton.mp member
      exact quiet
  | release node isRelease =>
      by_cases isNode : node = effect
      · subst isNode
        exact Or.inr (release (.guarded quiet guarded) wired)
      · exact Or.inl (stayed guarded id rfl List.not_mem_nil)
  | markedAll | markSkipped | flushDeferred => exact Or.inl (stayed guarded id rfl List.not_mem_nil)
  | marked color node calls isMark =>
      refine Or.inl (stayed guarded (fun member => ?_) rfl List.not_mem_nil)
      dsimp only at member
      split at member
      next queues =>
        rcases List.mem_append.mp member with isOld | isNew
        · exact isOld
        · cases List.mem_singleton.mp isNew
          obtain ⟨index, prev, isCleaning⟩ := guarded.cleaning_mem
          refine absurd queues.1 (keeps.2.2.1 ?_ ?_)
          · exact List.any_eq_true.mpr ⟨_, isCleaning, isCleaning_iff.mpr ⟨_, _, rfl⟩⟩
          · simp [isMark, Control.marks]
      next => exact member
  | flushStarted isFlush outside => exact Or.inl (takeQueue guarded (batches.depth ▸ outside))
  | flushRound isFlushing =>
      exact Or.inl (takeQueue guarded (batches.flushing (by rw [isFlushing]; rfl)))
  | flushSkip node effects isFlushing =>
      rw [isFlushing] at quiet
      exact Or.inl (stayed guarded id rfl fun member => quiet (List.mem_cons_of_mem _ member))
  | flushPull node effects isFlushing =>
      rw [isFlushing] at quiet
      refine Or.inl (pushed guarded id [_] rfl ?_ fun member => ?_)
      · intro frame member
        cases List.mem_singleton.mp member
        exact fun isLater => quiet (List.mem_cons_of_mem _ isLater)
      · obtain ⟨rfl, -⟩ := engaged_entry member
        exact quiet (List.mem_cons_self ..)

theorem step (disposing : Disposing effect state) (wired : Wired program state)
    (batches : Batches state) (isEffect : program.kind effect = .effect)
    (exist : state.created effect = true) (keeps : KeepsDisposal effect state action)
    (stepped : Step program state action after) :
    Disposing effect after ∨ Released effect after := by
  cases disposing with
  | called purpose disposable => exact step_called disposable wired purpose stepped
  | guarded quiet guarded =>
      exact step_guarded quiet guarded wired batches isEffect exist keeps stepped

end Disposing

end Step

/-! ## Whole runs -/

/-- After a call of the effect's disposer its function has not been called again. -/
def NotRestarted (effect : Nat) (log : List Event) : Prop :=
  ∀ before after, log = before ++ .disposerCalled effect :: after → .started effect ∉ after

namespace NotRestarted

variable {effect : Nat} {log : List Event}

theorem of_not_mem (notCalled : .disposerCalled effect ∉ log) : NotRestarted effect log := by
  rintro before after rfl
  simp at notCalled

theorem concat (notRestarted : NotRestarted effect log) {event : Event}
    (other : event ≠ .started effect) : NotRestarted effect (log ++ [event]) := by
  intro before after isLog
  rcases List.eq_nil_or_concat after with rfl | ⟨shorter, last, rfl⟩
  · exact List.not_mem_nil
  · rw [List.concat_eq_append, ← List.cons_append, ← List.append_assoc] at isLog
    obtain ⟨isFront, isLast⟩ := List.append_inj' isLog rfl
    cases isLast
    intro member
    rcases List.mem_append.mp (List.concat_eq_append ▸ member) with isOld | isNew
    · exact notRestarted before shorter isFront isOld
    · exact other (List.mem_singleton.mp isNew).symm

end NotRestarted

section Run

variable {program : Program Value} {state after : State Value} {action : Action Value}
  {effect : Nat}

@[simp] theorem log_runCleanups (node : Nat) (purpose : Purpose) (state : State Value) :
    (runCleanups node purpose state).log = state.log := by
  rw [runCleanups]
  split <;> rfl

@[simp] theorem log_takeQueue (program : Program Value) (state : State Value) :
    (takeQueue program state).log = state.log := by
  rw [takeQueue]
  split <;> rfl

theorem log_of_step (stepped : Step program state action after) :
    after.log = state.log ∨
      (∃ node, action = .dispose node ∧ after.log = state.log ++ [.disposerCalled node]) ∨
      ∃ node, state.control = .begin node ∧ after.log = state.log ++ [.started node] := by
  cases stepped with
  | dispose node => exact Or.inr (Or.inl ⟨node, rfl, log_runCleanups ..⟩)
  | begin node isBegin => exact Or.inr (Or.inr ⟨node, isBegin, rfl⟩)
  | updateEffect node => exact Or.inl (log_runCleanups ..)
  | flushStarted | flushRound => exact Or.inl (log_takeQueue ..)
  | _ => exact Or.inl rfl

/-- What the disposal of an effect has come to. -/
structure Settled (program : Program Value) (effect : Nat) (state : State Value) : Prop where
  isEffect : program.kind effect = .effect
  exist : state.created effect = true
  notRestarted : NotRestarted effect state.log
  stage : Disposing effect state ∨ Released effect state

theorem created_of_step (exist : state.created effect = true)
    (stepped : Step program state action after) : after.created effect = true := by
  cases stepped with
  | createSignal | createComputed | createQueued | createEffect =>
      exact Wired.created_update exist
  | dispose node =>
      rw [runCleanups]
      split <;> exact exist
  | updateEffect node =>
      rw [runCleanups]
      split <;> exact exist
  | flushStarted | flushRound =>
      rw [takeQueue]
      split <;> exact exist
  | _ => exact exist

theorem Settled.step (settled : Settled program effect state)
    (called : .disposerCalled effect ∈ state.log) (wired : Wired program state)
    (batches : Batches state) (keeps : KeepsDisposal effect state action)
    (stepped : Step program state action after) : Settled program effect after where
  isEffect := settled.isEffect
  exist := created_of_step settled.exist stepped
  notRestarted := by
    rcases log_of_step stepped with same | ⟨node, -, isLog⟩ | ⟨node, isBegin, isLog⟩
    · exact same ▸ settled.notRestarted
    · exact isLog ▸ settled.notRestarted.concat (by simp)
    · rw [isLog]
      apply settled.notRestarted.concat
      rintro isStart
      cases isStart
      rcases settled.stage with disposing | released
      · cases disposing with
        | called purpose => simp [isBegin] at purpose
        | guarded quiet =>
            rw [isBegin] at quiet
            exact quiet (List.mem_singleton_self _)
      · have idle := released.idle
        rw [isBegin] at idle
        exact of_decide_eq_false idle rfl
  stage := by
    rcases settled.stage with disposing | released
    · exact disposing.step wired batches settled.isEffect settled.exist keeps stepped
    · exact Or.inr (released.step settled.exist called keeps stepped)

/-- The first call of the disposer. -/
theorem Settled.of_dispose (wired : Wired program state) (batches : Batches state)
    (notCalled : .disposerCalled effect ∉ state.log)
    (keeps : KeepsDisposal effect state (.dispose effect))
    (stepped : Step program state (.dispose effect) after) : Settled program effect after := by
  cases stepped with
  | dispose _ isUser handed =>
      obtain ⟨isEffect, exist⟩ := wired.handed effect handed
      have notRestarted : NotRestarted effect (state.log ++ [.disposerCalled effect]) :=
        (NotRestarted.of_not_mem notCalled).concat (by simp)
      have disposable : Disposable effect (effect ∈ state.pendingEffects) state.stack := by
        constructor
        · exact not_cleaning_of_any (keeps.1 rfl)
        · intro queued
          apply openBatches_pos
          rw [← batches.depth]
          apply Nat.pos_of_ne_zero
          intro outside
          rw [batches.pending_of_user isUser outside] at queued
          exact absurd queued List.not_mem_nil
      have inside := @Disposable.cons _ _ _ .user _ disposable (by simp)
      rw [runCleanups]
      split
      · exact ⟨isEffect, exist, notRestarted, Or.inl (.called (Or.inr rfl) inside)⟩
      · exact ⟨isEffect, exist, notRestarted, Or.inl (.called (Or.inl ⟨_, _, rfl⟩) inside)⟩

/-- The disposal of the effect is final. -/
def DisposalFinal (effect : Nat) (state : State Value) : Prop :=
  NotRestarted effect state.log ∧
    (state.AtTopLevel → .disposerCalled effect ∈ state.log → ∀ node, effect ∉ state.observers node)

/-- The wiring and the batches of the state, and the disposal if there is one. -/
structure Accounted (program : Program Value) (effect : Nat) (state : State Value) : Prop where
  wired : Wired program state
  batches : Batches state
  settled : .disposerCalled effect ∈ state.log → Settled program effect state

theorem Accounted.start (program : Program Value) (effect : Nat) :
    Accounted program effect (State.start program) where
  wired := Wired.start program
  batches := Batches.start program
  settled called := absurd called List.not_mem_nil

theorem Accounted.step (accounted : Accounted program effect state)
    (keeps : KeepsDisposal effect state action) (stepped : Step program state action after) :
    Accounted program effect after where
  wired := accounted.wired.step stepped
  batches := accounted.batches.step stepped
  settled called := by
    by_cases before : .disposerCalled effect ∈ state.log
    · exact (accounted.settled before).step before accounted.wired accounted.batches keeps stepped
    · have isDispose : action = .dispose effect := by
        rcases log_of_step stepped with same | ⟨node, isDispose, isLog⟩ | ⟨node, -, isLog⟩
        · exact absurd (same ▸ called) before
        · rw [isLog] at called
          rcases List.mem_append.mp called with isOld | isNew
          · exact absurd isOld before
          · cases List.mem_singleton.mp isNew
            exact isDispose
        · rw [isLog] at called
          rcases List.mem_append.mp called with isOld | isNew
          · exact absurd isOld before
          · cases List.mem_singleton.mp isNew
      subst isDispose
      exact Settled.of_dispose accounted.wired accounted.batches before keeps stepped

theorem Accounted.final (accounted : Accounted program effect state) :
    DisposalFinal effect state := by
  constructor
  · by_cases called : .disposerCalled effect ∈ state.log
    · exact (accounted.settled called).notRestarted
    · exact NotRestarted.of_not_mem called
  · intro atTop called
    rcases (accounted.settled called).stage with disposing | released
    · cases disposing with
      | called purpose => simp [atTop.2] at purpose
      | guarded quiet guarded =>
          rw [atTop.1] at guarded
          cases guarded
    · exact released.unobserved

/-- In every run whose steps keep the four conditions, disposal is final. -/
theorem disposal_is_final [DecidableEq Value]
    (reached : Reaches program (KeepsDisposal effect) state) :
    DisposalFinal effect state := by
  have accounted : Accounted program effect state := by
    apply Reaches.induct (Accounted.start program effect) _ reached
    intro state after action accounted keeps stepped
    exact accounted.step keeps stepped
  exact accounted.final

end Run

/-! ## A run for and a run against -/

/-- Node 0 is a signal and node 1 an effect. -/
def signalAndEffect : Program Nat where
  kind node := if node = 0 then .signal else .effect
  isFunction _ := false
  undefined := 0

/-- The effect reads the signal and is created; then the signal is written. -/
def subscribed : List (Action Nat) :=
  Action.andTicks (.create 0 1) 1 ++ Action.andTicks (.create 1 0) 2 ++ Action.andTicks (.get 0) 1 ++
    Action.andTicks (.finish (.returned 0)) 3 ++ Action.andTicks (.set 0 2) 6

/-- The effect's second run calls the effect's disposer and ends; a later write finds nothing. -/
def disposedInside : List (Action Nat) :=
  subscribed ++ Action.andTicks (.dispose 1) 2 ++ Action.andTicks (.finish (.returned 0)) 4 ++
    Action.andTicks (.set 0 3) 3

theorem disposal_is_final_inside :
    ∃ state,
      run signalAndEffect (KeepsDisposal 1) disposedInside (State.start signalAndEffect) =
        some state ∧
      state.log = [.started 1, .started 1, .disposerCalled 1] ∧ DisposalFinal 1 state := by
  have runs : (run signalAndEffect (KeepsDisposal 1) disposedInside
      (State.start signalAndEffect)).isSome := by
    decide
  refine ⟨_, (Option.some_get runs).symm, by decide +revert, ?_⟩
  exact disposal_is_final (Reaches.start.run disposedInside (Option.some_get runs).symm)

/-- The second run calls the disposer and then reads the signal; a later write starts the effect
again. -/
def readAfterDisposal : List (Action Nat) :=
  subscribed ++ Action.andTicks (.dispose 1) 2 ++ Action.andTicks (.get 0) 1 ++
    Action.andTicks (.finish (.returned 0)) 4 ++ Action.andTicks (.set 0 3) 6 ++
    Action.andTicks (.finish (.returned 0)) 4

theorem disposed_effect_restarts :
    ¬ ∀ (program : Program Nat) (effect : Nat) (state : State Nat),
      Reaches program (fun _ _ => True) state → DisposalFinal effect state := by
  intro isFinal
  have runs : (run signalAndEffect (fun _ _ => True) readAfterDisposal
      (State.start signalAndEffect)).isSome := by
    decide
  have isLog : (Option.get _ runs).log =
      [.started 1, .started 1] ++ .disposerCalled 1 :: [.started 1] := by
    decide +revert
  have reached := Reaches.start.run readAfterDisposal (Option.some_get runs).symm
  exact (isFinal _ 1 _ reached).1 _ _ isLog (List.mem_singleton_self _)

end FoundationsLab.Reentrant
