import FoundationsLab.Signals.Consistent

namespace FoundationsLab.Signals

variable {Value : Type} (graph : DemandGraph Value) (inputs : Nat → Value)

/-! ## What a pull may change

A pull of a node reaches only nodes below it in the evaluation of the current signals. Above
them it changes nothing, save that a stale reaction may learn that a source has changed. -/

/-- The id lies strictly below `bound` in the evaluation. No effect lies below anything. -/
def Below (bound : Nat) : Id → Prop
  | .node index => graph.depth inputs index < bound
  | .effect _ => False

/-- What holds between the worlds before and after steps below `bound`, by or for `moving`. -/
structure Pulled (moving : Option Id) (bound : Nat) (before after : World Value) : Prop where
  deepValues : ∀ node, bound ≤ graph.depth inputs node →
    after.value node = before.value node
  cleanValues : ∀ node, before.state (.node node) = .clean →
    after.value node = before.value node
  clean : ∀ id, before.state id = .clean →
    after.state id = .clean ∧ after.sources id = before.sources id
  deep : ∀ id, ¬ Below graph inputs bound id → moving ≠ some id →
    after.sources id = before.sources id ∧
      (after.state id = before.state id ∨ before.state id ≠ .clean ∧ after.state id = .dirty)
  context : after.toContext = before.toContext
  agenda : after.toAgenda = before.toAgenda
  lastRuns : ∀ index, moving ≠ some (.effect index) →
    lastRun after.runs index = lastRun before.runs index

namespace Pulled

variable {graph inputs} {moving : Option Id} {bound : Nat} {first second third : World Value}

theorem refl (world : World Value) : Pulled graph inputs moving bound world world where
  deepValues _ _ := rfl
  cleanValues _ _ := rfl
  clean _ isClean := ⟨isClean, rfl⟩
  deep _ _ _ := ⟨rfl, Or.inl rfl⟩
  context := rfl
  agenda := rfl
  lastRuns _ _ := rfl

theorem trans (before : Pulled graph inputs moving bound first second)
    (after : Pulled graph inputs moving bound second third) :
    Pulled graph inputs moving bound first third where
  deepValues node isDeep := (after.deepValues node isDeep).trans (before.deepValues node isDeep)
  cleanValues node isClean :=
    (after.cleanValues node (before.clean _ isClean).1).trans (before.cleanValues node isClean)
  clean id isClean := by
    obtain ⟨stillClean, sameFirst⟩ := before.clean id isClean
    obtain ⟨isLast, sameSecond⟩ := after.clean id stillClean
    exact ⟨isLast, sameSecond.trans sameFirst⟩
  deep id notBelow notMoving := by
    obtain ⟨sameFirst, stateFirst⟩ := before.deep id notBelow notMoving
    obtain ⟨sameSecond, stateSecond⟩ := after.deep id notBelow notMoving
    refine ⟨sameSecond.trans sameFirst, ?_⟩
    rcases stateFirst with sameState | ⟨wasStale, isDirty⟩
    · rcases stateSecond with sameLast | ⟨isStale, isLast⟩
      · exact Or.inl (sameLast.trans sameState)
      · exact Or.inr ⟨sameState ▸ isStale, isLast⟩
    · refine Or.inr ⟨wasStale, ?_⟩
      rcases stateSecond with sameLast | ⟨-, isLast⟩
      · exact sameLast.trans isDirty
      · exact isLast
  context := after.context.trans before.context
  agenda := after.agenda.trans before.agenda
  lastRuns index notMoving :=
    (after.lastRuns index notMoving).trans (before.lastRuns index notMoving)

theorem mono {smaller : Nat} (pulled : Pulled graph inputs none smaller first second)
    (moving : Option Id) (isLess : smaller ≤ bound) :
    Pulled graph inputs moving bound first second where
  deepValues node isDeep := pulled.deepValues node (isLess.trans isDeep)
  cleanValues := pulled.cleanValues
  clean := pulled.clean
  deep id notBelow _ := by
    refine pulled.deep id (fun isBelow => notBelow ?_) nofun
    cases id with
    | node index => exact Nat.lt_of_lt_of_le isBelow isLess
    | effect index => exact isBelow
  context := pulled.context
  agenda := pulled.agenda
  lastRuns index _ := pulled.lastRuns index nofun

/-- What a node below the bound does for itself is done below the bound. -/
theorem forget {index smaller : Nat}
    (pulled : Pulled graph inputs (some (.node index)) smaller first second)
    (isLess : smaller ≤ bound) (isBelow : graph.depth inputs index < bound) :
    Pulled graph inputs none bound first second where
  deepValues node isDeep := pulled.deepValues node (isLess.trans isDeep)
  cleanValues := pulled.cleanValues
  clean := pulled.clean
  deep id notBelow _ := by
    refine pulled.deep id (fun below => notBelow ?_) fun same => notBelow ?_
    · cases id with
      | node other => exact Nat.lt_of_lt_of_le below isLess
      | effect other => exact below
    · cases same
      exact isBelow
  context := pulled.context
  agenda := pulled.agenda
  lastRuns other _ := pulled.lastRuns other nofun

end Pulled

variable {graph inputs}

/-- What a pull on the sources of a node has to do, at every depth up to `bound`. -/
def PullSpec (graph : DemandGraph Value) (inputs : Nat → Value)
    (pull : Nat → World Value → Option (World Value)) (bound : Nat) : Prop :=
  ∀ node, graph.depth inputs node ≤ bound → ∀ world, Ready graph inputs world →
    ∃ after, pull node world = some after ∧ Ready graph inputs after ∧
      Pulled graph inputs none (graph.depth inputs node + 1) world after ∧
      after.state (.node node) = .clean

/-! ## Reads -/

/-- The reaction for which reads are recorded. -/
def Context.tracker (context : Context) : Option Id :=
  if context.currentlyUntracked then none else context.currentReaction

/-- The reaction that records its reads, if any, is dirty and above all it may read. -/
structure Reacting (graph : DemandGraph Value) (inputs : Nat → Value) (bound : Nat)
    (world : World Value) (reaction : Id) : Prop where
  dirty : world.state reaction = .dirty
  runs : Runs graph world.toAgenda reaction
  above : ¬ Below graph inputs bound reaction

theorem track_eq (world : World Value) (source : Nat) :
    world.track source = match world.tracker with
      | none => world
      | some reaction =>
          { world with
            sources := Function.update world.sources reaction
              (InsertionSet.add (world.sources reaction) source)
            observers := Function.update world.observers source
              (InsertionSet.add (world.observers source) reaction) } := by
  rw [World.track, Context.tracker]
  cases world.currentReaction with
  | none => simp
  | some reaction => cases world.currentlyUntracked <;> rfl

variable {bound : Nat} {world : World Value}

theorem track_spec (ready : Ready graph inputs world) (source : Nat)
    (reacting : ∀ reaction, world.tracker = some reaction →
      Reacting graph inputs bound world reaction) :
    Ready graph inputs (world.track source) ∧
      Pulled graph inputs world.tracker bound world (world.track source) ∧
      (world.track source).state = world.state ∧
      ∀ reaction, world.tracker = some reaction →
        (world.track source).sources reaction =
          InsertionSet.add (world.sources reaction) source := by
  rw [track_eq]
  split
  next isNone => exact ⟨ready, Pulled.refl world, rfl, by simp [isNone]⟩
  next reaction isReaction =>
    have isReacting := reacting reaction isReaction
    have other : ∀ id, id ≠ reaction →
        Function.update world.sources reaction
          (InsertionSet.add (world.sources reaction) source) id = world.sources id :=
      fun id different => Function.update_of_ne different _ _
    have notClean : ∀ id, world.state id = .clean → id ≠ reaction := by
      rintro _ isClean rfl
      rw [isReacting.dirty] at isClean
      cases isClean
    refine ⟨⟨⟨?_, ?_, ?_, ?_, ready.consistent.uncreated⟩, ready.inputs, ready.readings,
      ready.runs⟩, ⟨fun _ _ => rfl, fun _ _ => rfl, fun id isClean =>
        ⟨isClean, other id (notClean id isClean)⟩, fun id _ notMoving => ⟨other id ?_, Or.inl rfl⟩,
        rfl, rfl, fun _ _ => rfl⟩, rfl, ?_⟩
    · -- The new edge appears on both sides, and no other one does.
      intro node id
      have edges := ready.consistent.edges
      rcases eq_or_ne node source with rfl | differentNode <;>
        rcases eq_or_ne id reaction with rfl | differentId
      · simp
      · simp [edges, differentId]
      · simp [edges, differentNode]
      · simp [Function.update_of_ne differentId, Function.update_of_ne differentNode, edges]
    · intro id isClean node member
      exact ready.consistent.closed id isClean node (other id (notClean id isClean) ▸ member)
    · intro id isIdle
      have different : id ≠ reaction := fun same => isIdle (same ▸ isReacting.runs)
      obtain ⟨isClean, isEmpty⟩ := ready.consistent.idle id isIdle
      exact ⟨isClean, (other id different).trans isEmpty⟩
    · intro id notDirty
      have different : id ≠ reaction := fun same => notDirty (same ▸ isReacting.dirty)
      exact (ready.consistent.upToDate id notDirty).congr (other id different)
        (fun _ _ => rfl) (fun _ _ => rfl) fun _ _ => ⟨rfl, rfl⟩
    · rw [isReaction] at notMoving
      exact fun same => notMoving (congrArg some same.symm)
    · intro current isCurrent
      cases isReaction.symm.trans isCurrent
      exact Function.update_self ..

theorem Reacting.of_pulled {reaction : Id} {after : World Value}
    (reacting : Reacting graph inputs bound world reaction)
    (pulled : Pulled graph inputs none bound world after) :
    Reacting graph inputs bound after reaction where
  dirty := by
    rcases (pulled.deep reaction reacting.above nofun).2 with same | ⟨-, isDirty⟩
    · exact same.trans reacting.dirty
    · exact isDirty
  runs := pulled.agenda ▸ reacting.runs
  above := reacting.above

variable {pull : Nat → World Value → Option (World Value)}

/-- A call of `get` returns what an evaluation from scratch gives, and records the read. -/
theorem get_spec (spec : PullSpec graph inputs pull bound) (ready : Ready graph inputs world)
    {source level : Nat} (isLevel : graph.depth inputs source < level) (inside : level ≤ bound + 1)
    (reacting : ∀ reaction, world.tracker = some reaction →
      Reacting graph inputs level world reaction) :
    ∃ after, get graph pull source world = some (graph.eval inputs source, after) ∧
      Ready graph inputs after ∧ Pulled graph inputs world.tracker level world after ∧
      after.state (.node source) = .clean ∧
      ∀ reaction, world.tracker = some reaction →
        Reacting graph inputs level after reaction ∧
          after.sources reaction = InsertionSet.add (world.sources reaction) source := by
  obtain ⟨trackedReady, trackPulled, sameState, isAdded⟩ := track_spec ready source reacting
  have pulls : ∃ pulled, refresh graph pull source (world.track source) = some pulled ∧
      Ready graph inputs pulled ∧ Pulled graph inputs none level (world.track source) pulled ∧
      pulled.state (.node source) = .clean := by
    rw [refresh]
    split
    next =>
      obtain ⟨pulled, isPull, pulledReady, isPulled, isClean⟩ :=
        spec source (by omega) _ trackedReady
      exact ⟨pulled, isPull, pulledReady, isPulled.mono none (by omega), isClean⟩
    next isSignal =>
      exact ⟨_, rfl, trackedReady, Pulled.refl _,
        (trackedReady.consistent.idle (.node source) isSignal).1⟩
  obtain ⟨pulled, isPull, pulledReady, isPulled, isClean⟩ := pulls
  have isValue := pulledReady.eval_of_clean source isClean
  refine ⟨{ pulled with readings :=
    pulled.readings ++ [⟨source, pulled.value source, pulled.value⟩] }, ?_, ?_, ?_, isClean, ?_⟩
  · rw [get, isPull, ← isValue]
    rfl
  · refine ⟨pulledReady.consistent, pulledReady.inputs, fun reading member => ?_,
      pulledReady.runs⟩
    rcases List.mem_append.mp member with old | new
    · exact pulledReady.readings reading old
    · rw [List.mem_singleton.mp new]
      exact isValue.trans (congrFun pulledReady.eval_eq source).symm
  · have whole := trackPulled.trans (isPulled.mono world.tracker (Nat.le_refl level))
    exact ⟨whole.deepValues, whole.cleanValues, whole.clean, whole.deep, whole.context,
      whole.agenda, whole.lastRuns⟩
  · intro reaction isReaction
    have trackedReacting : Reacting graph inputs level (world.track source) reaction :=
      { dirty := (congrFun sameState reaction).trans (reacting reaction isReaction).dirty
        runs := trackPulled.agenda ▸ (reacting reaction isReaction).runs
        above := (reacting reaction isReaction).above }
    obtain ⟨isDirty, isRunning, isAbove⟩ := trackedReacting.of_pulled isPulled
    refine ⟨⟨isDirty, isRunning, isAbove⟩, ?_⟩
    exact (isPulled.deep reaction trackedReacting.above nofun).1.trans (isAdded reaction isReaction)

/-- A run of a function reads and returns what a run over the evaluation does: by induction on
what is left of it. -/
theorem runFn_spec {Result : Type} (spec : PullSpec graph inputs pull bound) {level : Nat}
    (inside : level ≤ bound + 1) (fn : ReadTree Value Result)
    (isDeep : ∀ source ∈ fn.sources (graph.eval inputs), graph.depth inputs source < level)
    (ready : Ready graph inputs world)
    (reacting : ∀ reaction, world.tracker = some reaction →
      Reacting graph inputs level world reaction) :
    ∃ after, runFn graph pull fn world =
        some (fn.run (graph.eval inputs), fn.reads (graph.eval inputs), after) ∧
      Ready graph inputs after ∧ Pulled graph inputs world.tracker level world after ∧
      (∀ source ∈ fn.sources (graph.eval inputs), after.state (.node source) = .clean) ∧
      ∀ reaction, world.tracker = some reaction → after.state reaction = .dirty ∧
        after.sources reaction =
          InsertionSet.addAll (world.sources reaction) (fn.sources (graph.eval inputs)) := by
  induction fn generalizing world with
  | ret result =>
      exact ⟨world, rfl, ready, Pulled.refl world, nofun, fun reaction isReaction =>
        ⟨(reacting reaction isReaction).dirty, rfl⟩⟩
  | read source next induction =>
      obtain ⟨middle, isGet, middleReady, gotten, isClean, isAdded⟩ :=
        get_spec spec ready (isDeep source List.mem_cons_self) inside reacting
      have sameTracker : middle.tracker = world.tracker := congrArg Context.tracker gotten.context
      obtain ⟨after, isRun, afterReady, isPulled, areClean, areAdded⟩ :=
        induction (graph.eval inputs source)
          (fun later member => isDeep later (List.mem_cons_of_mem _ member)) middleReady
          fun reaction isReaction => (isAdded reaction (sameTracker ▸ isReaction)).1
      rw [sameTracker] at isPulled areAdded
      refine ⟨after, ?_, afterReady, gotten.trans isPulled, ?_, ?_⟩
      · simp only [runFn, isGet, Option.bind_eq_bind, Option.bind_some, isRun]
        rfl
      · intro later member
        rcases List.mem_cons.mp member with rfl | member
        · exact (isPulled.clean _ isClean).1
        · exact areClean later member
      · intro reaction isReaction
        obtain ⟨isDirty, isSources⟩ := areAdded reaction isReaction
        refine ⟨isDirty, ?_⟩
        rw [isSources, (isAdded reaction isReaction).2]
        rfl

/-- Detaching a dirty reaction keeps the cells consistent. -/
theorem detach_spec (ready : Ready graph inputs world) {id : Id} (level : Nat)
    (isDirty : world.state id = .dirty) :
    Ready graph inputs (world.detach id) ∧
      Pulled graph inputs (some id) level world (world.detach id) := by
  have other : ∀ other, other ≠ id → (world.detach id).sources other = world.sources other :=
    fun other different => Function.update_of_ne different _ _
  have notClean : ∀ other, world.state other = .clean → other ≠ id := by
    rintro _ isClean rfl
    rw [isDirty] at isClean
    cases isClean
  refine ⟨⟨⟨edges_detach ready.consistent.edges id, ?_, ?_, ?_, ready.consistent.uncreated⟩,
    ready.inputs, ready.readings, ready.runs⟩, ⟨fun _ _ => rfl, fun _ _ => rfl,
      fun reaction isClean => ⟨isClean, other reaction (notClean reaction isClean)⟩,
      fun reaction _ notMoving => ⟨other reaction ?_, Or.inl rfl⟩, rfl, rfl, fun _ _ => rfl⟩⟩
  · intro reaction isClean source member
    exact ready.consistent.closed reaction isClean source
      (other reaction (notClean reaction isClean) ▸ member)
  · intro reaction isIdle
    obtain ⟨isClean, isEmpty⟩ := ready.consistent.idle reaction isIdle
    exact ⟨isClean, (other reaction (notClean reaction isClean)).trans isEmpty⟩
  · intro reaction notDirty
    have different : reaction ≠ id := fun same => notDirty (same ▸ isDirty)
    exact (ready.consistent.upToDate reaction notDirty).congr (other reaction different)
      (fun _ _ => rfl) (fun _ _ => rfl) fun _ _ => ⟨rfl, rfl⟩
  · exact fun same => notMoving (congrArg some same.symm)

/-- The run of a reaction leaves it attached to exactly what it read, all of it clean. -/
theorem react_spec {Result : Type} (spec : PullSpec graph inputs pull bound) {level : Nat}
    (inside : level ≤ bound + 1) (fn : ReadTree Value Result)
    (isDeep : ∀ source ∈ fn.sources (graph.eval inputs), graph.depth inputs source < level)
    (ready : Ready graph inputs world) {id : Id} (reacting : Reacting graph inputs level world id) :
    ∃ after, react graph pull id fn (world.detach id) =
        some (fn.run (graph.eval inputs), fn.reads (graph.eval inputs), after) ∧
      Ready graph inputs after ∧ Pulled graph inputs (some id) level world after ∧
      after.state id = .dirty ∧
      after.sources id = InsertionSet.addAll [] (fn.sources (graph.eval inputs)) ∧
      ∀ source ∈ fn.sources (graph.eval inputs), after.state (.node source) = .clean := by
  obtain ⟨detachedReady, detached⟩ := detach_spec ready level reacting.dirty
  let entered : World Value :=
    { world.detach id with
      currentReaction := some id
      currentlyUntracked := false
      computations := (world.detach id).computations + 1
      invocations := (world.detach id).invocations ++ [id] }
  have enteredReady : Ready graph inputs entered :=
    ⟨detachedReady.consistent, detachedReady.inputs, detachedReady.readings, detachedReady.runs⟩
  have isTracker : entered.tracker = some id := rfl
  obtain ⟨after, isRun, afterReady, isPulled, areClean, areAdded⟩ :=
    runFn_spec spec inside fn isDeep enteredReady fun reaction isReaction => by
      cases isReaction
      exact ⟨reacting.dirty, reacting.runs, reacting.above⟩
  obtain ⟨isDirty, isSources⟩ := areAdded id isTracker
  rw [isTracker] at isPulled
  refine ⟨{ after with
      currentReaction := world.currentReaction
      currentlyUntracked := world.currentlyUntracked }, ?_,
    ⟨afterReady.consistent, afterReady.inputs, afterReady.readings, afterReady.runs⟩,
    detached.trans ⟨isPulled.deepValues, isPulled.cleanValues, isPulled.clean, isPulled.deep, rfl,
      isPulled.agenda, isPulled.lastRuns⟩, isDirty, ?_, areClean⟩
  · rw [react]
    change (runFn graph pull fn entered).bind _ = _
    rw [isRun]
    rfl
  · refine isSources.trans ?_
    have isEmpty : entered.sources id = [] := Function.update_self ..
    rw [isEmpty]

/-! ## The sources of a node that might be stale -/

/-- As long as no source has changed, the next one recorded is one that the evaluation reads. -/
theorem mem_sources_of_checked {Result : Type} (ready : Ready graph inputs world)
    (fn : ReadTree Value Result) {done rest : List Nat} {source : Nat}
    (isSources : done ++ source :: rest = InsertionSet.addAll [] (fn.sources world.value))
    (areDone : ∀ source ∈ done, world.state (.node source) = .clean) :
    source ∈ fn.sources (graph.eval inputs) := by
  obtain ⟨before, after, isPrefix, earlier⟩ :=
    InsertionSet.exists_first_occurrence _ done rest source isSources.symm
  exact fn.mem_sources_of_prefix isPrefix fun other member =>
    ready.eval_of_clean other (areDone other (earlier other member))

/-- Checking the sources never leaves the evaluation of the node. -/
theorem checkSources_spec {Result : Type} (spec : PullSpec graph inputs pull bound) {level : Nat}
    (inside : level ≤ bound + 1) (fn : ReadTree Value Result)
    (isDeep : ∀ source ∈ fn.sources (graph.eval inputs), graph.depth inputs source < level)
    {id : Id} (above : ¬ Below graph inputs level id) {agenda : Agenda Value}
    (recorded : ∀ world, Ready graph inputs world → world.toAgenda = agenda →
      world.state id ≠ .dirty →
      world.sources id = InsertionSet.addAll [] (fn.sources world.value))
    (ready : Ready graph inputs world) (sameAgenda : world.toAgenda = agenda)
    (isCheck : world.state id = .check) (done rest : List Nat)
    (isSources : world.sources id = done ++ rest)
    (areDone : ∀ source ∈ done, world.state (.node source) = .clean) :
    ∃ after, checkSources pull id rest world = some after ∧ Ready graph inputs after ∧
      Pulled graph inputs none level world after ∧
      (after.state id = .dirty ∨ after.state id = .check ∧
        ∀ source ∈ after.sources id, after.state (.node source) = .clean) := by
  induction rest generalizing done world with
  | nil =>
      refine ⟨world, rfl, ready, Pulled.refl world, Or.inr ⟨isCheck, ?_⟩⟩
      rw [isSources, List.append_nil]
      exact areDone
  | cons source rest induction =>
      have isFirst := recorded world ready sameAgenda (by rw [isCheck]; decide)
      have isRead := mem_sources_of_checked ready fn (isSources.symm.trans isFirst) areDone
      have isShallow := isDeep source isRead
      obtain ⟨middle, isPull, middleReady, isPulled, isClean⟩ := spec source (by omega) world ready
      have pulled : Pulled graph inputs none level world middle := isPulled.mono none (by omega)
      obtain ⟨sameSources, sameState⟩ := pulled.deep id above nofun
      rw [isCheck] at sameState
      have stays : middle.state id = .check ∨ middle.state id = .dirty :=
        sameState.imp (fun same => same) And.right
      rcases stays with stillCheck | isDirty
      · obtain ⟨after, isAfter, afterReady, rested, outcome⟩ :=
          induction middleReady (pulled.agenda.trans sameAgenda) stillCheck (done ++ [source]) (by simp [sameSources, isSources]) fun other member => by
              rcases List.mem_append.mp member with old | new
              · exact (pulled.clean _ (areDone other old)).1
              · rw [List.mem_singleton.mp new]
                exact isClean
        refine ⟨after, ?_, afterReady, pulled.trans rested, outcome⟩
        simp [checkSources, isPull, stillCheck, isAfter]
      · refine ⟨middle, ?_, middleReady, pulled, Or.inl isDirty⟩
        simp [checkSources, isPull, isDirty]

/-! ## A node made current -/

/-- A changed value dirties the observers, which were stale already. -/
theorem changeValue_spec (ready : Ready graph inputs world) {index : Nat} (next : Value)
    (isFn : (graph.fn index).isSome) (isDirty : world.state (.node index) = .dirty) (level : Nat)
    (isBelow : graph.depth inputs index < level) :
    Ready graph inputs (world.changeValue index next) ∧
      Pulled graph inputs none level world (world.changeValue index next) := by
  have stale : ∀ id ∈ world.observers index, world.state id ≠ .clean := by
    intro id member isClean
    have sourceClean :=
      ready.consistent.closed id isClean index ((ready.consistent.edges index id).mp member)
    rw [isDirty] at sourceClean
    cases sourceClean
  have isState : ∀ id, (world.changeValue index next).state id =
      if id ∈ world.observers index then .dirty else world.state id := fun _ => rfl
  have notObserver : ∀ id, (world.changeValue index next).state id ≠ .dirty →
      id ∉ world.observers index ∧ world.state id ≠ .dirty := by
    intro id notDirty
    rw [isState] at notDirty
    split at notDirty
    next => exact absurd rfl notDirty
    next isOther => exact ⟨isOther, notDirty⟩
  have cleanStays : ∀ id, world.state id = .clean →
      (world.changeValue index next).state id = .clean := by
    intro id isClean
    rw [isState, if_neg fun member => stale id member isClean]
    exact isClean
  have sameValue : ∀ node, node ≠ index →
      (world.changeValue index next).value node = world.value node :=
    fun node different => Function.update_of_ne different _ _
  have differs : ∀ node, world.state (.node node) ≠ .dirty → node ≠ index := by
    rintro _ notDirty rfl
    exact notDirty isDirty
  refine ⟨⟨⟨ready.consistent.edges, ?_, ?_, ?_, ready.consistent.uncreated⟩, ?_, ready.readings,
    ready.runs⟩, ⟨?_, ?_, ?_, ?_, rfl, rfl, fun _ _ => rfl⟩⟩
  · intro id isClean source member
    rw [isState] at isClean
    split at isClean
    next => cases isClean
    next => exact cleanStays _ (ready.consistent.closed id isClean source member)
  · intro id isIdle
    obtain ⟨isClean, isEmpty⟩ := ready.consistent.idle id isIdle
    exact ⟨cleanStays id isClean, isEmpty⟩
  · intro id notDirty
    obtain ⟨isOther, wasNotDirty⟩ := notObserver id notDirty
    refine (ready.consistent.upToDate id wasNotDirty).congr rfl (fun source member => ?_)
      (fun node isNode => ?_) fun _ _ => ⟨rfl, rfl⟩
    · refine sameValue source ?_
      rintro rfl
      exact isOther ((ready.consistent.edges source id).mpr member)
    · exact sameValue node (differs node (isNode ▸ wasNotDirty))
  · intro node isInput
    rw [sameValue node ?_, ready.inputs node isInput]
    rintro rfl
    rw [isInput] at isFn
    cases isFn
  · intro node isDeep
    refine sameValue node ?_
    rintro rfl
    omega
  · intro node isClean
    exact sameValue node (differs node (by rw [isClean]; decide))
  · exact fun id isClean => ⟨cleanStays id isClean, rfl⟩
  · intro id _ _
    refine ⟨rfl, ?_⟩
    rw [isState]
    split
    next member => exact Or.inr ⟨stale id member, rfl⟩
    next => exact Or.inl rfl

/-- What the update of a reaction leaves behind for it to be called clean. -/
structure Finished (graph : DemandGraph Value) (world : World Value) (id : Id) : Prop where
  sources : ∀ source ∈ world.sources id, world.state (.node source) = .clean
  upToDate : UpToDate graph world.toCells world.toAgenda world.runs id

/-- Either the check found every source unchanged, or the node is dirty. -/
theorem checkIfMarked_spec {Result : Type} (spec : PullSpec graph inputs pull bound) {level : Nat}
    (inside : level ≤ bound + 1) (fn : ReadTree Value Result)
    (isDeep : ∀ source ∈ fn.sources (graph.eval inputs), graph.depth inputs source < level)
    {id : Id} (above : ¬ Below graph inputs level id)
    (recorded : ∀ other, Ready graph inputs other → other.toAgenda = world.toAgenda →
      other.state id ≠ .dirty →
      other.sources id = InsertionSet.addAll [] (fn.sources other.value))
    (ready : Ready graph inputs world) :
    ∃ after, checkIfMarked pull id world = some after ∧ Ready graph inputs after ∧
      Pulled graph inputs none level world after ∧
      (after.state id = .dirty ∨ Finished graph after id) := by
  rw [checkIfMarked]
  split
  next isCheck =>
    obtain ⟨after, isAfter, afterReady, pulled, outcome⟩ :=
      checkSources_spec spec inside fn isDeep above recorded ready rfl isCheck [] _ rfl nofun
    refine ⟨after, isAfter, afterReady, pulled, outcome.imp_right fun ⟨stillCheck, areClean⟩ => ?_⟩
    exact ⟨areClean, afterReady.consistent.upToDate id (by rw [stillCheck]; decide)⟩
  next notCheck =>
    refine ⟨world, rfl, ready, Pulled.refl world, ?_⟩
    cases isState : world.state id with
    | clean =>
        exact Or.inr ⟨ready.consistent.closed id isState,
          ready.consistent.upToDate id (by rw [isState]; decide)⟩
    | check => exact absurd isState notCheck
    | dirty => exact Or.inl rfl

/-- Calling a node clean once it is finished. -/
theorem setClean_spec (ready : Ready graph inputs world) {id : Id}
    (finished : Finished graph world id) (moving : Option Id) (level : Nat)
    (isOwn : Below graph inputs level id ∨ moving = some id) :
    Ready graph inputs (world.setState id .clean) ∧
      Pulled graph inputs moving level world (world.setState id .clean) ∧
      (world.setState id .clean).state id = .clean := by
  have isState : ∀ other, other ≠ id →
      (world.setState id .clean).state other = world.state other :=
    fun other different => Function.update_of_ne different _ _
  have isClean : (world.setState id .clean).state id = .clean := Function.update_self ..
  refine ⟨ready.setClean id finished.sources finished.upToDate, ⟨fun _ _ => rfl, fun _ _ => rfl,
    fun other wasClean => ⟨?_, rfl⟩, fun other notBelow notMoving => ⟨rfl, Or.inl ?_⟩, rfl, rfl,
    fun _ _ => rfl⟩, isClean⟩
  · rcases eq_or_ne other id with rfl | different
    · exact isClean
    · exact (isState other different).trans wasClean
  · refine isState other ?_
    rintro rfl
    exact isOwn.elim notBelow notMoving

variable [DecidableEq Value]

theorem updateNode_spec (spec : PullSpec graph inputs pull bound) {index : Nat}
    (shallow : graph.depth inputs index ≤ bound + 1) {fn : ReadTree Value Value}
    (isFn : graph.fn index = some fn) (ready : Ready graph inputs world)
    (isDirty : world.state (.node index) = .dirty) :
    ∃ after, updateNode graph pull index fn world = some after ∧ Ready graph inputs after ∧
      Pulled graph inputs none (graph.depth inputs index + 1) world after ∧
      Finished graph after (.node index) := by
  obtain ⟨isRun, isDeep⟩ := graph.eval_computed inputs isFn
  have isRunning : Runs graph world.toAgenda (.node index) := by
    rw [Runs, isFn]
    rfl
  obtain ⟨middle, isReact, middleReady, reacted, stillDirty, isSources, areClean⟩ :=
    react_spec spec shallow fn isDeep ready ⟨isDirty, isRunning, Nat.lt_irrefl _⟩
  have below := reacted.forget (Nat.le_succ _) (Nat.lt_succ_self (graph.depth inputs index))
  have isUpdate : updateNode graph pull index fn world =
      some (if fn.run (graph.eval inputs) = middle.value index then middle
        else middle.changeValue index (fn.run (graph.eval inputs))) := by
    rw [updateNode, isReact]
    rfl
  have sourcesClean : ∀ source ∈ middle.sources (.node index),
      middle.state (.node source) = .clean := by
    intro source member
    rw [isSources, InsertionSet.mem_addAll] at member
    exact areClean source (member.resolve_left (List.not_mem_nil))
  refine ⟨_, isUpdate, ?_⟩
  split
  next same =>
    refine ⟨middleReady, below, sourcesClean, fun run isSame => ?_⟩
    cases isFn.symm.trans isSame
    obtain ⟨sameRun, sameReads⟩ := middleReady.agree fn areClean
    rw [ReadTree.sources_eq_of_reads_eq sameReads, sameRun]
    exact ⟨isSources, same.symm⟩
  next different =>
    obtain ⟨changedReady, changed⟩ := changeValue_spec middleReady
      (fn.run (graph.eval inputs)) (by rw [isFn]; rfl) stillDirty
      (graph.depth inputs index + 1) (Nat.lt_succ_self _)
    have stillClean : ∀ source ∈ fn.sources (graph.eval inputs),
        (middle.changeValue index (fn.run (graph.eval inputs))).state (.node source) = .clean :=
      fun source member => (changed.clean _ (areClean source member)).1
    refine ⟨changedReady, below.trans changed, fun source member =>
      (changed.clean _ (sourcesClean source member)).1, fun run isSame => ?_⟩
    cases isFn.symm.trans isSame
    obtain ⟨sameRun, sameReads⟩ := changedReady.agree fn stillClean
    rw [ReadTree.sources_eq_of_reads_eq sameReads, sameRun]
    exact ⟨isSources, Function.update_self ..⟩

theorem updateIfDirty_node_spec (spec : PullSpec graph inputs pull bound) {index : Nat}
    (shallow : graph.depth inputs index ≤ bound + 1) {fn : ReadTree Value Value}
    (isFn : graph.fn index = some fn) (ready : Ready graph inputs world)
    (outcome : world.state (.node index) = .dirty ∨ Finished graph world (.node index)) :
    ∃ after, updateIfDirty graph pull (.node index) world = some after ∧
      Ready graph inputs after ∧
      Pulled graph inputs none (graph.depth inputs index + 1) world after ∧
      Finished graph after (.node index) := by
  rw [updateIfDirty]
  split
  next isDirty =>
    rw [update, isFn]
    exact updateNode_spec spec shallow isFn ready isDirty
  next notDirty =>
    exact ⟨world, rfl, ready, Pulled.refl world, outcome.resolve_left notDirty⟩

theorem bringUpToDate_node_spec (spec : PullSpec graph inputs pull bound) :
    PullSpec graph inputs (fun index => bringUpToDate graph pull (.node index)) (bound + 1) := by
  intro index shallow world ready
  cases isFn : graph.fn index with
  | none =>
      have isIdle : ¬ Runs graph world.toAgenda (.node index) := by
        rw [Runs, isFn]
        exact Bool.false_ne_true
      obtain ⟨isClean, isEmpty⟩ := ready.consistent.idle _ isIdle
      have finished : Finished graph world (.node index) :=
        ⟨by rw [isEmpty]; exact nofun,
          ready.consistent.upToDate _ (by rw [isClean]; decide)⟩
      have isPull : bringUpToDate graph pull (.node index) world =
          some (world.setState (.node index) .clean) := by
        simp [bringUpToDate, checkIfMarked, updateIfDirty, isClean]
      exact ⟨_, isPull, setClean_spec ready finished none _ (Or.inl (Nat.lt_succ_self _))⟩
  | some fn =>
      have recorded : ∀ other, Ready graph inputs other → other.toAgenda = world.toAgenda →
          other.state (.node index) ≠ .dirty → other.sources (.node index) =
            InsertionSet.addAll [] (fn.sources other.value) :=
        fun other otherReady _ notDirty =>
          (otherReady.consistent.upToDate (.node index) notDirty fn isFn).1
      obtain ⟨-, isDeep⟩ := graph.eval_computed inputs isFn
      obtain ⟨checked, isCheck, checkedReady, checkPulled, outcome⟩ :=
        checkIfMarked_spec spec shallow fn isDeep (Nat.lt_irrefl _) recorded ready
      obtain ⟨updated, isUpdate, updatedReady, updatePulled, finished⟩ :=
        updateIfDirty_node_spec spec shallow isFn checkedReady outcome
      obtain ⟨finalReady, finalPulled, isClean⟩ := setClean_spec updatedReady finished
        none _ (Or.inl (Nat.lt_succ_self (graph.depth inputs index)))
      have isPull : bringUpToDate graph pull (.node index) world =
          some (updated.setState (.node index) .clean) := by
        simp [bringUpToDate, isCheck, isUpdate]
      exact ⟨_, isPull, finalReady,
        (checkPulled.mono none (Nat.le_succ _)).trans (updatePulled.trans finalPulled), isClean⟩

/-- Pulling as deep as the fuel allows: by induction on it. -/
theorem updateIfNecessary_spec (inputs : Nat → Value) (fuel : Nat) :
    PullSpec graph inputs (fun index => updateIfNecessary graph fuel (.node index)) fuel := by
  induction fuel with
  | zero =>
      intro index shallow
      have := graph.depth_pos inputs index
      omega
  | succ fuel induction => exact bringUpToDate_node_spec induction

theorem pullNode_spec (inputs : Nat → Value) :
    PullSpec graph inputs (pullNode graph) (graph.size + 1) :=
  updateIfNecessary_spec inputs (graph.size + 1)

end FoundationsLab.Signals
