import FoundationsLab.Foundation.Generators

/-! What holds between two calls of a run of generators: who waits, whose status
stays, and with that the rules that a run owes its users. -/

namespace FoundationsLab
namespace Generators

section

variable {Value : Type} {ended : Value}

/-! ## Who is not the running party -/

theorem partyOf_ne {number : Nat} {upper rest : List Nat}
    (nodup : (upper ++ number :: rest).Nodup) :
    partyOf (upper ++ number :: rest) ≠ partyOf rest := by
  have apart : ∀ {first : Nat} {others : List Nat}, first ∉ others →
      Party.generator first ≠ partyOf others := by
    intro first others fresh isParty
    cases others with
    | nil => cases isParty
    | cons head tail =>
        cases isParty
        exact fresh List.mem_cons_self
  cases upper with
  | nil =>
      rw [List.nil_append, List.nodup_cons] at nodup
      exact apart nodup.1
  | cons head tail =>
      rw [List.cons_append, List.nodup_cons] at nodup
      apply apart
      intro member
      exact nodup.1 (List.mem_append_right _ (List.mem_cons_of_mem _ member))

theorem State.running_eq_generator {state : State} {number : Nat}
    (isRunning : state.running = .generator number) :
    ∃ rest, state.chain = number :: rest := by
  rw [State.running] at isRunning
  cases isChain : state.chain with
  | nil =>
      rw [isChain] at isRunning
      cases isRunning
  | cons head rest =>
      rw [isChain] at isRunning
      cases isRunning
      exact ⟨rest, rfl⟩

theorem State.Orderly.running_active {state : State} (orderly : state.Orderly) {number : Nat}
    (isRunning : state.running = .generator number) :
    state.statuses[number]? = some .active := by
  obtain ⟨rest, isChain⟩ := State.running_eq_generator isRunning
  rw [← orderly.active, isChain]
  exact List.mem_cons_self

/-! ## What stays while a generator is left alone -/

/-- An active generator keeps those below it in the chain until it hands control
back itself, and nobody below it runs. -/
theorem chain_kept {state final : State} {log : List (Observation Value)} {number : Nat}
    {upper rest : List Nat} (orderly : state.Orderly)
    (isChain : state.chain = upper ++ number :: rest) (ran : Runs ended state log final)
    (stays : ∀ other ∈ log, other.actor = .generator number → other.call.output ended = none) :
    (∃ upper', final.chain = upper' ++ number :: rest) ∧
      ∀ other ∈ log, other.actor ≠ partyOf rest := by
  induction log generalizing state upper with
  | nil =>
      cases ran
      constructor
      · exact ⟨upper, isChain⟩
      · intro other member
        cases member
  | cons observation tail induction =>
      obtain ⟨actor, next, stepped, onward⟩ := ran
      have steps := steps_of_step stepped
      have keeps : ∃ upper', next.chain = upper' ++ number :: rest := by
        have leaves : ∀ {first : Nat} {others : List Nat}, state.chain = first :: others →
            (∃ output, observation.call.output ended = some output) →
            ∃ upper', others = upper' ++ number :: rest := by
          rintro first others isFirst ⟨output, isOutput⟩
          cases upper with
          | nil =>
              have isNumber : observation.actor = .generator number := by
                rw [actor, State.running, isChain]
                rfl
              have none := stays observation List.mem_cons_self isNumber
              rw [isOutput] at none
              cases none
          | cons head tail =>
              rw [isFirst, List.cons_append, List.cons.injEq] at isChain
              exact ⟨tail, isChain.2⟩
        generalize isCall : observation.call = call at steps leaves
        generalize observation.answer = answer at steps
        cases steps with
        | create => exact ⟨upper, isChain⟩
        | start fresh input isFresh => exact ⟨fresh :: upper, by simp [isChain]⟩
        | «continue» suspended input isSuspended =>
            exact ⟨suspended :: upper, by simp [isChain]⟩
        | exhausted finished input isFinished => exact ⟨upper, isChain⟩
        | yield first others output isFirst => exact leaves isFirst ⟨output, rfl⟩
        | finish first others isFirst => exact leaves isFirst ⟨ended, rfl⟩
        | discard idle isIdle => exact ⟨upper, isChain⟩
      obtain ⟨upper', isNext⟩ := keeps
      have later := induction (orderly.step steps) isNext onward
        fun other member => stays other (List.mem_cons_of_mem _ member)
      constructor
      · exact later.1
      · intro other member
        rcases List.mem_cons.mp member with isFirst | isLater
        · rw [isFirst, actor, State.running, isChain]
          apply partyOf_ne
          rw [← isChain]
          exact orderly.nodup
        · exact later.2 other isLater

/-- A step changes the status of one generator at most: the one that it
resumes or discards, or the one that runs. -/
theorem Steps.status_kept {state next : State} {call : Call Value} {answer : Answer Value}
    (steps : Steps ended state call next answer) {number : Nat} {status : Status}
    (found : state.statuses[number]? = some status)
    (notResumed : ∀ input, call = .resume number input → status = .finished)
    (notDiscarded : call ≠ .discard number)
    (notRunning : state.running ≠ .generator number) :
    next.statuses[number]? = some status := by
  have elsewhere : ∀ {other : Nat} (changed : Status), other ≠ number →
      (state.statuses.set other changed)[number]? = some status := by
    intro other changed different
    rw [List.getElem?_set_ne different]
    exact found
  cases steps with
  | create =>
      rw [List.getElem?_append_left]
      · exact found
      · exact (List.getElem?_eq_some_iff.mp found).1
  | start other input isFresh =>
      apply elsewhere
      rintro rfl
      have isFinished := notResumed input rfl
      rw [found, isFinished] at isFresh
      cases isFresh
  | «continue» other input isSuspended =>
      apply elsewhere
      rintro rfl
      have isFinished := notResumed input rfl
      rw [found, isFinished] at isSuspended
      cases isSuspended
  | exhausted other input isFinished => exact found
  | yield other rest output isChain =>
      apply elsewhere
      rintro rfl
      rw [State.running, isChain] at notRunning
      exact notRunning rfl
  | finish other rest isChain =>
      apply elsewhere
      rintro rfl
      rw [State.running, isChain] at notRunning
      exact notRunning rfl
  | discard other isIdle =>
      apply elsewhere
      rintro rfl
      exact notDiscarded rfl

/-- Discarding leaves the generator discarded. -/
theorem Steps.discarded {state next : State} {call : Call Value} {answer : Answer Value}
    (steps : Steps ended state call next answer) {number : Nat}
    (isDiscard : call = .discard number) :
    next.statuses[number]? = some .discarded := by
  subst isDiscard
  cases steps with
  | discard _ isIdle =>
      obtain ⟨status, found, _, _⟩ := isIdle
      rw [getElem?_set_of_some found, if_pos rfl]

/-- A generator that was thrown away is not resumed. -/
theorem Steps.not_resumed {state next : State} {number : Nat} {input : Value}
    {answer : Answer Value} (steps : Steps ended state (.resume number input) next answer)
    (isDiscarded : state.statuses[number]? = some .discarded) : False := by
  cases steps with
  | start _ _ isFresh =>
      rw [isDiscarded] at isFresh
      cases isFresh
  | «continue» _ _ isSuspended =>
      rw [isDiscarded] at isSuspended
      cases isSuspended
  | exhausted _ _ isFinished =>
      rw [isDiscarded] at isFinished
      cases isFinished

/-- An idle generator stays as it is, unless it is thrown away, and does nothing
until it is resumed. -/
theorem idle_kept {state final : State} {log : List (Observation Value)} {number : Nat}
    {kept : Status} (orderly : state.Orderly) (notActive : kept ≠ .active)
    (isKept : state.statuses[number]? = some kept ∨ state.statuses[number]? = some .discarded)
    (ran : Runs ended state log final)
    (notResumed : ∀ other ∈ log, ∀ input, other.call = .resume number input → kept = .finished) :
    (final.statuses[number]? = some kept ∨ final.statuses[number]? = some .discarded) ∧
      ∀ other ∈ log, other.actor ≠ .generator number := by
  induction log generalizing state with
  | nil =>
      cases ran
      constructor
      · exact isKept
      · intro other member
        cases member
  | cons observation tail induction =>
      obtain ⟨actor, next, stepped, onward⟩ := ran
      have steps := steps_of_step stepped
      have notRunning : state.running ≠ .generator number := by
        intro isRunning
        have isActive := orderly.running_active isRunning
        rcases isKept with isKept | isDiscarded
        · rw [isKept] at isActive
          exact notActive (Option.some.inj isActive)
        · rw [isDiscarded] at isActive
          cases isActive
      have nextKept : next.statuses[number]? = some kept ∨
          next.statuses[number]? = some .discarded := by
        by_cases isDiscard : observation.call = .discard number
        · exact Or.inr (steps.discarded isDiscard)
        · rcases isKept with isKept | isDiscarded
          · exact Or.inl (steps.status_kept isKept
              (notResumed observation List.mem_cons_self) isDiscard notRunning)
          · apply Or.inr
            apply steps.status_kept isDiscarded _ isDiscard notRunning
            intro input isResume
            rw [isResume] at steps
            exact (steps.not_resumed isDiscarded).elim
      have later := induction (orderly.step steps) nextKept onward
        fun other member => notResumed other (List.mem_cons_of_mem _ member)
      constructor
      · exact later.1
      · intro other member
        rcases List.mem_cons.mp member with isFirst | isLater
        · rw [isFirst, actor]
          exact notRunning
        · exact later.2 other isLater

/-- A generator becomes finished only when its body ends. -/
theorem not_finished {state final : State} {log : List (Observation Value)} {number : Nat}
    (unfinished : state.statuses[number]? ≠ some .finished) (ran : Runs ended state log final)
    (goesOn : ∀ other ∈ log, other.actor = .generator number → other.call ≠ .finish) :
    final.statuses[number]? ≠ some .finished := by
  induction log generalizing state with
  | nil =>
      cases ran
      exact unfinished
  | cons observation tail induction =>
      obtain ⟨actor, next, stepped, onward⟩ := ran
      apply induction _ onward fun other member => goesOn other (List.mem_cons_of_mem _ member)
      have steps := steps_of_step stepped
      have notNow := goesOn observation List.mem_cons_self
      rw [actor] at notNow
      have elsewhere : ∀ {other : Nat} {status : Status}, status ≠ .finished →
          (state.statuses.set other status)[number]? ≠ some .finished := by
        intro other status different isFinished
        rw [List.getElem?_set] at isFinished
        split at isFinished
        next =>
          split at isFinished
          next => exact different (Option.some.inj isFinished)
          next => cases isFinished
        next => exact unfinished isFinished
      generalize observation.call = call at steps notNow
      generalize observation.answer = answer at steps
      cases steps with
      | create =>
          intro isFinished
          by_cases inside : number < state.statuses.length
          · rw [List.getElem?_append_left inside] at isFinished
            exact unfinished isFinished
          · rw [List.getElem?_append_right (by omega)] at isFinished
            have member := List.mem_of_getElem? isFinished
            simp at member
      | start other input isFresh => exact elsewhere (by decide)
      | «continue» other input isSuspended => exact elsewhere (by decide)
      | exhausted other input isFinished => exact unfinished
      | yield other rest output isChain => exact elsewhere (by decide)
      | finish other rest isChain =>
          intro isFinished
          by_cases isNumber : other = number
          · subst isNumber
            apply notNow _ rfl
            rw [State.running, isChain]
            rfl
          · rw [List.getElem?_set_ne isNumber] at isFinished
            exact unfinished isFinished
      | discard other isIdle => exact elsewhere (by decide)

/-- A generator that was never resumed has not started. -/
theorem not_started {state final : State} {log : List (Observation Value)} {number : Nat}
    (orderly : state.Orderly)
    (unstarted : ∀ status, state.statuses[number]? = some status →
      status = .fresh ∨ status = .discarded)
    (ran : Runs ended state log final)
    (notResumed : ∀ other ∈ log, ∀ input, other.call ≠ .resume number input) :
    ∀ status, final.statuses[number]? = some status → status = .fresh ∨ status = .discarded := by
  induction log generalizing state with
  | nil =>
      cases ran
      exact unstarted
  | cons observation tail induction =>
      obtain ⟨actor, next, stepped, onward⟩ := ran
      have steps := steps_of_step stepped
      apply induction (orderly.step steps) _ onward
        fun other member => notResumed other (List.mem_cons_of_mem _ member)
      intro status found
      have notNow := notResumed observation List.mem_cons_self
      have notRunning : state.running ≠ .generator number := by
        intro isRunning
        rcases unstarted _ (orderly.running_active isRunning) with isFresh | isDiscarded
        · cases isFresh
        · cases isDiscarded
      by_cases isDiscard : observation.call = .discard number
      · rw [steps.discarded isDiscard] at found
        exact Or.inr (Option.some.inj found).symm
      · cases isOld : state.statuses[number]? with
        | some old =>
            have kept := steps.status_kept isOld (fun input isResume =>
              absurd isResume (notNow input)) isDiscard notRunning
            rw [kept, Option.some.injEq] at found
            rw [← found]
            exact unstarted old isOld
        | none =>
            have outside := List.getElem?_eq_none_iff.mp isOld
            have gone : ∀ {other : Nat} {changed : Status},
                (state.statuses.set other changed)[number]? = none := by
              intro other changed
              apply List.getElem?_eq_none
              rw [List.length_set]
              exact outside
            generalize observation.call = call at steps
            generalize observation.answer = answer at steps
            cases steps with
            | create =>
                rw [List.getElem?_append_right outside] at found
                have member := List.mem_of_getElem? found
                exact Or.inl (List.mem_singleton.mp member)
            | start other input isFresh =>
                rw [gone] at found
                cases found
            | «continue» other input isSuspended =>
                rw [gone] at found
                cases found
            | exhausted other input isFinished =>
                rw [isOld] at found
                cases found
            | yield other rest output isChain =>
                rw [gone] at found
                cases found
            | finish other rest isChain =>
                rw [gone] at found
                cases found
            | discard other isIdle =>
                rw [gone] at found
                cases found

/-! ## The rules hold of every run -/

theorem Steps.hands_over {state next : State} {call : Call Value} {answer : Answer Value}
    (steps : Steps ended state call next answer) {number : Nat} {rest : List Nat}
    (isChain : state.chain = number :: rest) {output : Value}
    (isOutput : call.output ended = some output) :
    answer = .resumeReturns (partyOf rest) number output := by
  cases steps with
  | create => cases isOutput
  | start other input isFresh => cases isOutput
  | «continue» other input isSuspended => cases isOutput
  | exhausted other input isFinished => cases isOutput
  | yield other others output isOther =>
      rw [isChain, List.cons.injEq] at isOther
      rw [← isOther.1, ← isOther.2]
      cases isOutput
      rfl
  | finish other others isOther =>
      rw [isChain, List.cons.injEq] at isOther
      rw [← isOther.1, ← isOther.2]
      cases isOutput
      rfl
  | discard other isIdle => cases isOutput

theorem resumes_return {state final : State} {log : List (Observation Value)}
    (orderly : state.Orderly)
    (unfinished : ∀ number : Nat, state.statuses[number]? ≠ some .finished)
    (ran : Runs ended state log final) : ResumesReturn ended log := by
  intro before call between reply after number input output isLog isResume goesOn stays
    isActor isOutput
  subst isLog
  obtain ⟨atCall, toCall, fromCall⟩ := runs_append.mp ran
  obtain ⟨caller, afterCall, called, onward⟩ := fromCall
  obtain ⟨atReply, toReply, fromReply⟩ := runs_append.mp onward
  obtain ⟨replier, afterReply, replied, _⟩ := fromReply
  have orderlyCall := orderly.runs toCall
  have callSteps := steps_of_step called
  rw [isResume] at callSteps
  have isChain : afterCall.chain = [] ++ number :: atCall.chain := by
    generalize call.answer = answer at callSteps
    cases callSteps with
    | start _ _ isFresh => rfl
    | «continue» _ _ isSuspended => rfl
    | exhausted _ _ isFinished =>
        exact absurd isFinished (not_finished (unfinished number) toCall goesOn)
  have orderlyAfter := orderlyCall.step callSteps
  obtain ⟨⟨upper, isReply⟩, elsewhere⟩ := chain_kept orderlyAfter isChain toReply stays
  have orderlyReply := orderlyAfter.runs toReply
  obtain ⟨rest, isFront⟩ := State.running_eq_generator (replier.symm.trans isActor)
  have isRest : rest = atCall.chain := by
    cases upper with
    | nil =>
        rw [isFront, List.nil_append, List.cons.injEq] at isReply
        exact isReply.2
    | cons head others =>
        have nodup := orderlyReply.nodup
        rw [isFront, List.cons_append, List.cons.injEq] at isReply
        rw [isFront, isReply.2, List.nodup_cons] at nodup
        exact absurd (List.mem_append_right others List.mem_cons_self) nodup.1
  constructor
  · rw [caller, State.running, ← isRest]
    exact (steps_of_step replied).hands_over isFront isOutput
  · rw [caller]
    exact elsewhere

theorem yields_return {state final : State} {log : List (Observation Value)}
    (orderly : state.Orderly) (ran : Runs ended state log final) : YieldsReturn log := by
  intro before leave between call after number input output isLog isActor isYield notResumed
    isResume
  subst isLog
  obtain ⟨atLeave, toLeave, fromLeave⟩ := runs_append.mp ran
  obtain ⟨leaver, afterLeave, left, onward⟩ := fromLeave
  obtain ⟨atCall, toCall, fromCall⟩ := runs_append.mp onward
  obtain ⟨_, afterCall, called, _⟩ := fromCall
  have orderlyLeave := orderly.runs toLeave
  have leaveSteps := steps_of_step left
  rw [isYield] at leaveSteps
  obtain ⟨rest, isFront⟩ := State.running_eq_generator (leaver.symm.trans isActor)
  have isSuspended : afterLeave.statuses[number]? = some .suspended := by
    have isActive := orderlyLeave.running_active (leaver.symm.trans isActor)
    generalize leave.answer = answer at leaveSteps
    cases leaveSteps with
    | yield other others _ isOther =>
        rw [isFront, List.cons.injEq] at isOther
        rw [← isOther.1, getElem?_set_of_some isActive, if_pos rfl]
  obtain ⟨kept, elsewhere⟩ := idle_kept (orderlyLeave.step leaveSteps) (by decide)
    (Or.inl isSuspended) toCall
    fun other member given isCall => absurd isCall (notResumed other member given)
  constructor
  · have callSteps := steps_of_step called
    rw [isResume] at callSteps
    rcases kept with isKept | isDiscarded
    · generalize call.answer = answer at callSteps
      cases callSteps with
      | start _ _ isFresh =>
          rw [isKept] at isFresh
          cases isFresh
      | «continue» _ _ _ => rfl
      | exhausted _ _ isFinished =>
          rw [isKept] at isFinished
          cases isFinished
    · exact (callSteps.not_resumed isDiscarded).elim
  · exact elsewhere

theorem first_resume_starts {state final : State} {log : List (Observation Value)}
    (orderly : state.Orderly)
    (unstarted : ∀ (number : Nat) (status : Status), state.statuses[number]? = some status →
      status = .fresh ∨ status = .discarded)
    (ran : Runs ended state log final) : FirstResumeStarts log := by
  intro before call after number input isLog isResume notResumed
  subst isLog
  obtain ⟨atCall, toCall, fromCall⟩ := runs_append.mp ran
  obtain ⟨_, afterCall, called, _⟩ := fromCall
  have fresh := not_started orderly (unstarted number) toCall notResumed
  have callSteps := steps_of_step called
  rw [isResume] at callSteps
  generalize call.answer = answer at callSteps
  cases callSteps with
  | start _ _ _ => rfl
  | «continue» _ _ isSuspended =>
      rcases fresh _ isSuspended with isFresh | isDiscarded
      · cases isFresh
      · cases isDiscarded
  | exhausted _ _ isFinished =>
      rcases fresh _ isFinished with isFresh | isDiscarded
      · cases isFresh
      · cases isDiscarded

theorem finished_stays {state final : State} {log : List (Observation Value)}
    (orderly : state.Orderly) (ran : Runs ended state log final) : FinishedStays ended log := by
  intro before last after number isLog isActor isFinish
  subst isLog
  obtain ⟨atLast, toLast, fromLast⟩ := runs_append.mp ran
  obtain ⟨leaver, afterLast, left, onward⟩ := fromLast
  have orderlyLast := orderly.runs toLast
  have lastSteps := steps_of_step left
  rw [isFinish] at lastSteps
  obtain ⟨rest, isFront⟩ := State.running_eq_generator (leaver.symm.trans isActor)
  have isFinished : afterLast.statuses[number]? = some .finished := by
    have isActive := orderlyLast.running_active (leaver.symm.trans isActor)
    generalize last.answer = answer at lastSteps
    cases lastSteps with
    | finish other others isOther =>
        rw [isFront, List.cons.injEq] at isOther
        rw [← isOther.1, getElem?_set_of_some isActive, if_pos rfl]
  have orderlyAfter := orderlyLast.step lastSteps
  constructor
  · exact (idle_kept orderlyAfter (by decide) (Or.inl isFinished) onward
      fun other member input isResume => rfl).2
  · intro later member input isResume
    obtain ⟨middle, others, isAfter⟩ := List.append_of_mem member
    subst isAfter
    obtain ⟨atCall, toCall, fromCall⟩ := runs_append.mp onward
    obtain ⟨caller, afterCall, called, _⟩ := fromCall
    have kept := (idle_kept orderlyAfter (by decide) (Or.inl isFinished) toCall
      fun other member input isResume => rfl).1
    have callSteps := steps_of_step called
    rw [isResume] at callSteps
    rcases kept with isKept | isDiscarded
    · generalize isAnswer : later.answer = answer at callSteps
      cases callSteps with
      | start _ _ isFresh =>
          rw [isKept] at isFresh
          cases isFresh
      | «continue» _ _ isSuspended =>
          rw [isKept] at isSuspended
          cases isSuspended
      | exhausted _ _ _ => rw [caller]
    · exact (callSteps.not_resumed isDiscarded).elim

end
end Generators
end FoundationsLab
