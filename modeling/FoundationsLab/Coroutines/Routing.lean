import FoundationsLab.Coroutines.Refinement

/-! Control and values in whole runs: who returns from which call, and with what. -/

namespace FoundationsLab
namespace Coroutines

open Generators (Party Call Answer Observation Steps Legal Runs)

/-- `g_current` names the coroutine whose code runs. -/
def Named (state : State) : Prop :=
  match state.stack with
  | .main => state.gCurrent = none
  | .coroutine co => state.self co = some co ∧ state.gCurrent = some co

/-- What every action of a run keeps to. -/
structure Entry.Faithful (entry : Entry) : Prop where
  before : Named entry.before
  after : Named entry.after
  /-- the stack that goes on is the one whose call returns, or whose body starts -/
  continues : entry.after.stack.party =
    entry.observation.answer.party entry.before.stack.party
  inert : Inert entry.before entry.action entry.outcome entry.after

/-- Control and values take the way that the users of the coroutines expect. -/
structure Routed (log : List Entry) : Prop where
  faithful : ∀ entry ∈ log, entry.Faithful
  resumes : Generators.ResumesReturn 0 (log.map Entry.observation)
  yields : Generators.YieldsReturn (log.map Entry.observation)
  starts : Generators.FirstResumeStarts (log.map Entry.observation)
  stays : Generators.FinishedStays 0 (log.map Entry.observation)
  /-- resuming a finished coroutine returns 0 and runs nothing -/
  finished : ∀ before last after co, log = before ++ last :: after →
    last.before.stack = .coroutine co → last.action = .finish →
    ∀ later ∈ after, ∀ input, later.action = .resume co input →
      later.outcome = .resumeReturns co 0 ∧ later.after = later.before

theorem Simulates.named {abstract : Generators.State} {state : State}
    (simulates : Simulates abstract state) : Named state := by
  have isStack := simulates.stack
  have isCurrent := simulates.current
  cases isChain : abstract.chain with
  | nil =>
      rw [isChain] at isStack isCurrent
      simp only [Named, isStack, stackOf]
      exact isCurrent
  | cons co rest =>
      obtain ⟨_, _, _, _, isSelf, _⟩ := simulates.front isChain
      rw [isChain] at isStack isCurrent
      simp only [Named, isStack, stackOf]
      exact ⟨isSelf, isCurrent⟩

/-- A program that keeps to the rules of generators runs, and its run is one of
generators. -/
theorem Simulates.run {abstract : Generators.State} {state : State} {actions : List Action}
    (simulates : Simulates abstract state)
    (legal : Legal (0 : Value) abstract (actions.map Action.call)) :
    ∃ final log abstractFinal, run state actions = some (final, log) ∧
      Runs 0 abstract (log.map Entry.observation) abstractFinal ∧
      ∀ entry ∈ log, entry.Faithful := by
  induction actions generalizing abstract state with
  | nil =>
      refine ⟨state, [], abstract, rfl, rfl, ?_⟩
      intro entry member
      cases member
  | cons action rest induction =>
      obtain ⟨allowed, onward⟩ := legal
      obtain ⟨next, answer, stepped⟩ := @Generators.exists_step _ (0 : Value) _ _ allowed
      have steps := Generators.steps_of_step stepped
      obtain ⟨state', outcome, taken, nextSimulates, isAnswer, inert⟩ := simulates.step steps
      obtain ⟨final, log, abstractFinal, ran, isRun, faithful⟩ :=
        induction nextSimulates (onward next answer stepped)
      have isActor : state.stack.party = abstract.running := by
        rw [simulates.stack, stackOf_party]
        rfl
      refine ⟨final, ⟨state, action, outcome, state'⟩ :: log, abstractFinal, ?_, ?_, ?_⟩
      · simp only [Coroutines.run, taken, ran, Option.bind_eq_bind, Option.bind_some]
      · refine ⟨isActor, next, ?_, isRun⟩
        rw [← isAnswer] at stepped
        exact stepped
      · intro entry member
        rcases List.mem_cons.mp member with isFirst | isLater
        · rw [isFirst]
          refine ⟨simulates.named, nextSimulates.named, ?_, inert⟩
          change state'.stack.party =
            (outcome.answer state'.stack.party).party state.stack.party
          rw [isAnswer, isActor, ← steps.party, nextSimulates.stack, stackOf_party]
          rfl
        · exact faithful entry isLater

theorem map_cons_append {log before after : List Entry} {last : Entry}
    (isLog : log = before ++ last :: after) :
    log.map Entry.observation = before.map Entry.observation ++
      last.observation :: after.map Entry.observation := by
  rw [isLog, List.map_append, List.map_cons]

theorem answer_resumeReturns {outcome : Outcome} {party caller : Party} {co : Co}
    {value : Value} (isAnswer : outcome.answer party = .resumeReturns caller co value) :
    outcome = .resumeReturns co value := by
  cases outcome <;> cases isAnswer
  rfl

/-- Every program whose resumes are of coroutines that are not active and that
yields only inside a coroutine. -/
theorem control_and_routing (actions : List Action)
    (legal : Legal (0 : Value) .initial (actions.map Action.call)) :
    ∃ final log, run .initial actions = some (final, log) ∧ Routed log := by
  obtain ⟨final, log, abstractFinal, ran, isRun, faithful⟩ := initial_simulates.run legal
  have orderly := Generators.State.initial_orderly
  have stays := Generators.finished_stays orderly isRun
  refine ⟨final, log, ran, faithful, ?_, ?_, ?_, stays, ?_⟩
  · apply Generators.resumes_return orderly _ isRun
    intro number isFinished
    cases isFinished
  · exact Generators.yields_return orderly isRun
  · apply Generators.first_resume_starts orderly _ isRun
    intro number status found
    cases found
  · intro before last after co isLog isStack isFinish later member input isResume
    have isObserved := map_cons_append isLog
    have isActor : last.observation.actor = .generator co := by
      change last.before.stack.party = _
      rw [isStack]
      rfl
    have isLast : last.observation.call = .finish := by
      change last.action.call = _
      rw [isFinish]
      rfl
    have isCall : later.observation.call = .resume co input := by
      change later.action.call = _
      rw [isResume]
      rfl
    have returns := (stays _ _ _ co isObserved isActor isLast).2 later.observation
      (List.mem_map_of_mem member) input isCall
    have isOutcome := answer_resumeReturns returns
    have inside : later ∈ log := by
      rw [isLog]
      exact List.mem_append_right _ (List.mem_cons_of_mem _ member)
    constructor
    · exact isOutcome
    · exact (faithful later inside).inert co input co 0 isResume isOutcome

/-- A coroutine that resumes another one, as in the test of nesting, and a
resume after the end. -/
def nested : List Action :=
  [.create, .create, .resume 1 0, .resume 0 0, .yield 100, .yield 100, .resume 1 7,
    .resume 0 0, .yield 200, .yield 200, .resume 0 1, .finish, .resume 0 2]

theorem control_and_routing_nested :
    ∃ final log, run .initial nested = some (final, log) ∧ Routed log :=
  control_and_routing nested (by decide)

end Coroutines
end FoundationsLab
