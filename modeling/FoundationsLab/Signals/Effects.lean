import FoundationsLab.Signals.Pull

namespace FoundationsLab.Signals

variable {Value : Type} {graph : DemandGraph Value} {inputs : Nat → Value} {world : World Value}
  {pull : Nat → World Value → Option (World Value)}

/-! ## Cleanups run untracked -/

/-- All of the graph lies below this. -/
def everything (graph : DemandGraph Value) : Nat := graph.size + 2

theorem depth_lt_everything (source : Nat) : graph.depth inputs source < everything graph := by
  have := graph.depth_le_size inputs source
  rw [everything]
  omega

theorem runAll_spec (spec : PullSpec graph inputs pull (graph.size + 1))
    (cleanups : List (Cleanup Value)) (ready : Ready graph inputs world)
    (untracked : world.tracker = none) :
    ∃ after, runAll graph pull cleanups world = some after ∧ Ready graph inputs after ∧
      Pulled graph inputs none (everything graph) world after := by
  induction cleanups generalizing world with
  | nil => exact ⟨world, rfl, ready, Pulled.refl world⟩
  | cons cleanup rest induction =>
      obtain ⟨middle, isRun, middleReady, pulled, -⟩ :=
        runFn_spec spec (Nat.le_refl (everything graph)) cleanup
          (fun source _ => depth_lt_everything source) ready (by simp [untracked])
      rw [untracked] at pulled
      obtain ⟨after, isRest, afterReady, restPulled⟩ :=
        induction middleReady ((congrArg Context.tracker pulled.context).trans untracked)
      refine ⟨after, ?_, afterReady, pulled.trans restPulled⟩
      simp [runAll, isRun, isRest]

theorem runCleanups_spec (spec : PullSpec graph inputs pull (graph.size + 1)) (index : Nat)
    (ready : Ready graph inputs world) :
    ∃ after, runCleanups graph pull index world = some after ∧ Ready graph inputs after ∧
      Pulled graph inputs none (everything graph) world after := by
  rw [runCleanups]
  split
  next => exact ⟨world, rfl, ready, Pulled.refl world⟩
  next =>
    let entered : World Value := { world with currentlyUntracked := true }
    have enteredReady : Ready graph inputs entered :=
      ⟨ready.consistent, ready.inputs, ready.readings, ready.runs⟩
    obtain ⟨middle, isRun, middleReady, pulled⟩ :=
      runAll_spec spec (world.cleanups index) enteredReady rfl
    refine ⟨{ middle with
        currentlyUntracked := world.currentlyUntracked
        cleanups := Function.update middle.cleanups index [] }, ?_,
      ⟨middleReady.consistent, middleReady.inputs, middleReady.readings, middleReady.runs⟩,
      ⟨pulled.deepValues, pulled.cleanValues, pulled.clean, pulled.deep, ?_, pulled.agenda,
        pulled.lastRuns⟩⟩
    · change (runAll graph pull (world.cleanups index) entered).bind _ = _
      rw [isRun]
      rfl
    · have sameReaction : middle.currentReaction = entered.currentReaction :=
        congrArg Context.currentReaction pulled.context
      change Context.mk middle.currentReaction world.currentlyUntracked = world.toContext
      rw [sameReaction]

/-! ## One effect -/

theorem lastRun_append_self (runs : List (EffectRun Value)) (run : EffectRun Value) :
    lastRun (runs ++ [run]) run.effect = some run := by
  simp [lastRun]

theorem lastRun_append_of_ne (runs : List (EffectRun Value)) (run : EffectRun Value) {index : Nat}
    (different : run.effect ≠ index) : lastRun (runs ++ [run]) index = lastRun runs index := by
  simp [lastRun, different]

theorem updateEffect_spec (spec : PullSpec graph inputs pull (graph.size + 1)) {index : Nat}
    {fn : EffectFn Value} (isLive : world.live index = some fn) (ready : Ready graph inputs world)
    (isDirty : world.state (.effect index) = .dirty) :
    ∃ after, updateEffect graph pull index fn world = some after ∧ Ready graph inputs after ∧
      Pulled graph inputs (some (.effect index)) (everything graph) world after ∧
      Finished graph after (.effect index) := by
  obtain ⟨cleaned, isCleaned, cleanedReady, cleanedPulled⟩ := runCleanups_spec spec index ready
  have stillDirty : cleaned.state (.effect index) = .dirty := by
    rcases (cleanedPulled.deep (.effect index) id nofun).2 with same | ⟨-, isLater⟩
    · exact same.trans isDirty
    · exact isLater
  have stillLive : cleaned.live index = some fn := by rw [cleanedPulled.agenda, isLive]
  have isRunning : Runs graph cleaned.toAgenda (.effect index) := by
    rw [Runs, stillLive]
    rfl
  obtain ⟨middle, isReact, middleReady, reacted, middleDirty, isSources, areClean⟩ :=
    react_spec spec (Nat.le_refl (everything graph)) fn (fun source _ => depth_lt_everything source)
      cleanedReady ⟨stillDirty, isRunning, id⟩
  let run : EffectRun Value := ⟨index, fn, fn.reads (graph.eval inputs), middle.value⟩
  obtain ⟨-, sameReads⟩ := middleReady.agree fn areClean
  refine ⟨{ middle with
      cleanups := Function.update middle.cleanups index
        (middle.cleanups index ++ (fn.run (graph.eval inputs)).toList)
      runs := middle.runs ++ [run] }, ?_, ⟨?_, middleReady.inputs, middleReady.readings, ?_⟩, ?_,
    ⟨?_, ?_⟩⟩
  · simp only [updateEffect, isCleaned, Option.bind_eq_bind, Option.bind_some, isReact]
    rfl
  · refine ⟨middleReady.consistent.edges, middleReady.consistent.closed,
      middleReady.consistent.idle, fun id notDirty => ?_, middleReady.consistent.uncreated⟩
    refine (middleReady.consistent.upToDate id notDirty).congr rfl (fun _ _ => rfl)
      (fun _ _ => rfl) fun other isOther => ⟨rfl, lastRun_append_of_ne _ run ?_⟩
    rintro rfl
    exact notDirty (isOther ▸ middleDirty)
  · intro last member
    rcases List.mem_append.mp member with old | new
    · exact middleReady.runs last old
    · rw [List.mem_singleton.mp new]
      exact congrArg fn.reads middleReady.eval_eq.symm
  · have whole := (cleanedPulled.mono (some (.effect index)) (Nat.le_refl _)).trans reacted
    refine ⟨whole.deepValues, whole.cleanValues, whole.clean, whole.deep, whole.context,
      whole.agenda, fun other notMoving => ?_⟩
    refine (lastRun_append_of_ne _ run ?_).trans (whole.lastRuns other notMoving)
    rintro rfl
    exact notMoving rfl
  · intro source member
    have isSource : source ∈ InsertionSet.addAll [] (fn.sources (graph.eval inputs)) :=
      isSources ▸ member
    rw [InsertionSet.mem_addAll] at isSource
    exact areClean source (isSource.resolve_left List.not_mem_nil)
  · intro other isOther
    have middleLive : middle.live index = some fn := by rw [reacted.agenda, stillLive]
    cases middleLive.symm.trans isOther
    refine ⟨?_, run, lastRun_append_self _ run, rfl, sameReads.symm⟩
    rw [ReadTree.sources_eq_of_reads_eq sameReads]
    exact isSources

/-! ## The queue -/

/-- Every effect that is not clean is waiting in a list. -/
def Waiting (world : World Value) (effects : List Nat) : Prop :=
  ∀ index, world.state (.effect index) ≠ .clean → index ∈ effects

/-- An effect that is not clean is live. -/
theorem exists_live (ready : Ready graph inputs world) {index : Nat}
    (isStale : world.state (.effect index) ≠ .clean) : ∃ fn, world.live index = some fn := by
  by_contra notLive
  refine isStale (ready.consistent.idle (.effect index) ?_).1
  rw [Runs, Option.isSome_iff_exists]
  exact notLive

/-- What holds between operations: the queue holds every stale effect, and outside a batch
there is none. -/
structure Settled (graph : DemandGraph Value) (inputs : Nat → Value) (world : World Value) :
    Prop where
  ready : Ready graph inputs world
  waiting : Waiting world world.pendingEffects
  outside : world.currentReaction = none
  unbatched : world.batchDepth = 0 → world.pendingEffects = []

/-- The cells do not depend on the queue. -/
theorem Ready.requeue (ready : Ready graph inputs world) (pending : List Nat) (depth : Nat) :
    Ready graph inputs { world with pendingEffects := pending, batchDepth := depth } where
  consistent :=
    { edges := ready.consistent.edges
      closed := ready.consistent.closed
      idle := ready.consistent.idle
      upToDate := fun id notDirty => (ready.consistent.upToDate id notDirty).congr rfl
        (fun _ _ => rfl) (fun _ _ => rfl) fun _ _ => ⟨rfl, rfl⟩
      uncreated := ready.consistent.uncreated }
  inputs := ready.inputs
  readings := ready.readings
  runs := ready.runs

/-! ## Effects brought up to date -/

variable [DecidableEq Value]

theorem updateIfDirty_effect_spec (spec : PullSpec graph inputs pull (graph.size + 1)) {index : Nat}
    {fn : EffectFn Value} (isLive : world.live index = some fn) (ready : Ready graph inputs world)
    (outcome : world.state (.effect index) = .dirty ∨ Finished graph world (.effect index)) :
    ∃ after, updateIfDirty graph pull (.effect index) world = some after ∧
      Ready graph inputs after ∧
      Pulled graph inputs (some (.effect index)) (everything graph) world after ∧
      Finished graph after (.effect index) := by
  rw [updateIfDirty]
  split
  next isDirty =>
    have isFn : world.effectFn index = some fn := by
      rw [Agenda.live] at isLive
      split at isLive
      next => cases isLive
      next => exact isLive
    rw [update, isFn]
    exact updateEffect_spec spec isLive ready isDirty
  next notDirty => exact ⟨world, rfl, ready, Pulled.refl world, outcome.resolve_left notDirty⟩

theorem pullEffect_spec {index : Nat} {fn : EffectFn Value} (isLive : world.live index = some fn)
    (ready : Ready graph inputs world) :
    ∃ after, pullEffect graph index world = some after ∧ Ready graph inputs after ∧
      Pulled graph inputs (some (.effect index)) (everything graph) world after ∧
      after.state (.effect index) = .clean := by
  have spec : PullSpec graph inputs (pullNode graph) (graph.size + 1) := pullNode_spec inputs
  have recorded : ∀ other, Ready graph inputs other → other.toAgenda = world.toAgenda →
      other.state (.effect index) ≠ .dirty → other.sources (.effect index) =
        InsertionSet.addAll [] (fn.sources other.value) := by
    intro other otherReady sameAgenda notDirty
    refine (otherReady.consistent.upToDate (.effect index) notDirty fn ?_).1
    rw [sameAgenda, isLive]
  obtain ⟨checked, isCheck, checkedReady, checkPulled, outcome⟩ :=
    checkIfMarked_spec spec (Nat.le_refl (everything graph)) fn
      (fun source _ => depth_lt_everything source) id recorded ready
  have stillLive : checked.live index = some fn := by rw [checkPulled.agenda, isLive]
  obtain ⟨updated, isUpdate, updatedReady, updatePulled, finished⟩ :=
    updateIfDirty_effect_spec spec stillLive checkedReady outcome
  obtain ⟨finalReady, finalPulled, isClean⟩ := setClean_spec updatedReady finished
    (some (.effect index)) (everything graph) (Or.inr rfl)
  have isPull : pullEffect graph index world =
      some (updated.setState (.effect index) .clean) := by
    change bringUpToDate graph (pullNode graph) (.effect index) world = _
    simp [bringUpToDate, isCheck, isUpdate]
  exact ⟨_, isPull, finalReady,
    (checkPulled.mono _ (Nat.le_refl _)).trans (updatePulled.trans finalPulled), isClean⟩

/-- Running the queue once cleans every effect, and the effects queue nothing themselves. -/
theorem runEffects_spec (effects : List Nat) (ready : Ready graph inputs world)
    (waiting : Waiting world effects) :
    ∃ after, runEffects graph effects world = some after ∧ Ready graph inputs after ∧
      Waiting after [] ∧ after.toAgenda = world.toAgenda ∧ after.toContext = world.toContext := by
  induction effects generalizing world with
  | nil => exact ⟨world, rfl, ready, waiting, rfl, rfl⟩
  | cons effect rest induction =>
      have ran : ∃ middle, runIfStale graph effect world = some middle ∧
          Ready graph inputs middle ∧ Waiting middle rest ∧
          middle.toAgenda = world.toAgenda ∧ middle.toContext = world.toContext := by
        rw [runIfStale]
        split
        next isClean =>
          refine ⟨world, rfl, ready, fun index isStale => ?_, rfl, rfl⟩
          refine (List.mem_cons.mp (waiting index isStale)).resolve_left ?_
          rintro rfl
          exact isStale isClean
        next isStale =>
          obtain ⟨fn, isLive⟩ := exists_live ready isStale
          obtain ⟨middle, isPull, middleReady, pulled, isClean⟩ := pullEffect_spec isLive ready
          refine ⟨middle, isPull, middleReady, fun index stillStale => ?_, pulled.agenda,
            pulled.context⟩
          have wasStale : world.state (.effect index) ≠ .clean :=
            fun wasClean => stillStale (pulled.clean _ wasClean).1
          refine (List.mem_cons.mp (waiting index wasStale)).resolve_left ?_
          rintro rfl
          exact stillStale isClean
      obtain ⟨middle, isRun, middleReady, middleWaiting, sameAgenda, sameContext⟩ := ran
      obtain ⟨after, isRest, afterReady, nothing, restAgenda, restContext⟩ :=
        induction middleReady middleWaiting
      refine ⟨after, ?_, afterReady, nothing, restAgenda.trans sameAgenda,
        restContext.trans sameContext⟩
      simp [runEffects, isRun, isRest]

theorem flush_spec (ready : Ready graph inputs world)
    (waiting : Waiting world world.pendingEffects) (outside : world.currentReaction = none) :
    ∃ after, flush graph world = some after ∧ Settled graph inputs after := by
  rw [flush]
  split
  next isOpen => exact ⟨world, rfl, ready, waiting, outside, fun isZero => by omega⟩
  next =>
    rw [flushRounds]
    split
    next isEmpty => exact ⟨world, rfl, ready, waiting, outside, fun _ => isEmpty⟩
    next =>
      let emptied : World Value := { world with pendingEffects := [] }
      obtain ⟨after, isRun, afterReady, nothing, sameAgenda, sameContext⟩ :=
        runEffects_spec world.pendingEffects (ready.requeue [] world.batchDepth) waiting
      have isEmpty : after.pendingEffects = [] := congrArg Agenda.pendingEffects sameAgenda
      refine ⟨after, ?_, afterReady, by rw [isEmpty]; exact nothing,
        (congrArg Context.currentReaction sameContext).trans outside, fun _ => isEmpty⟩
      change (runEffects graph world.pendingEffects emptied).bind _ = _
      rw [isRun, Option.bind_some, flushRounds, if_pos isEmpty]

end FoundationsLab.Signals
