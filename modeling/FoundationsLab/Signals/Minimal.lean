import FoundationsLab.Signals.GlitchFree

namespace FoundationsLab.Signals

variable {Value : Type} {graph : DemandGraph Value} {inputs : Nat → Value}
  {origin world : World Value}

/-! ## What has been recomputed since a write

A function is invoked only for a node that is dirty, and afterwards the node is clean and stays
so. A node that was clean before the write becomes dirty only with a source that holds another
value than before. -/

/-- The functions that were invoked since then. -/
def since (origin world : World Value) : List Id :=
  world.invocations.drop origin.invocations.length

/-- The reactions whose functions run, and those whose values are not there yet. -/
structure Frugal (origin : World Value) (signal : Nat) (running computing : List Id)
    (world : World Value) : Prop where
  continues : origin.invocations <+: world.invocations
  once : (since origin world).Nodup
  finished : ∀ id ∈ since origin world, id ∈ running ∨ world.state id = .clean
  sameSources : ∀ id, id ∉ since origin world → world.sources id = origin.sources id
  changed : ∀ index, world.value index ≠ origin.value index →
    index = signal ∨ .node index ∈ since origin world ∧ .node index ∉ computing
  reason : ∀ id, origin.state id = .clean →
    world.state id = .dirty ∨ id ∈ since origin world →
      ∃ source ∈ origin.sources id, world.value source ≠ origin.value source
  invoked : ∀ id ∈ running, id ∈ since origin world

section Steps

variable {signal : Nat} {running computing : List Id} {after : World Value}

/-- Neither the context nor the records of readings matter. -/
theorem Frugal.of_same (frugal : Frugal origin signal running computing world)
    (sameInvocations : after.invocations = world.invocations) (sameState : after.state = world.state)
    (sameSources : after.sources = world.sources) (sameValue : after.value = world.value) :
    Frugal origin signal running computing after := by
  have sameSince : since origin after = since origin world := by rw [since, since, sameInvocations]
  constructor
  · rw [sameInvocations]
    exact frugal.continues
  · rw [sameSince]
    exact frugal.once
  · rw [sameSince, sameState]
    exact frugal.finished
  · rw [sameSince, sameSources]
    exact frugal.sameSources
  · rw [sameSince, sameValue]
    exact frugal.changed
  · rw [sameSince, sameState, sameValue]
    exact frugal.reason
  · rw [sameSince]
    exact frugal.invoked

/-- Reads are recorded for a reaction that runs. -/
theorem frugal_track (frugal : Frugal origin signal running computing world) (source : Nat)
    (isRunning : ∀ reaction, world.tracker = some reaction → reaction ∈ running) :
    Frugal origin signal running computing (world.track source) := by
  rw [track_eq]
  split
  next => exact frugal
  next reaction isReaction =>
    have isInvoked := frugal.invoked reaction (isRunning reaction isReaction)
    refine ⟨frugal.continues, frugal.once, frugal.finished, fun id notInvoked => ?_,
      frugal.changed, frugal.reason, frugal.invoked⟩
    have different : id ≠ reaction := fun same => notInvoked (same ▸ isInvoked)
    exact (Function.update_of_ne different _ _).trans (frugal.sameSources id notInvoked)

theorem since_append (continues : origin.invocations <+: world.invocations) (id : Id) :
    since origin { world with invocations := world.invocations ++ [id] } =
      since origin world ++ [id] :=
  List.drop_append_of_le_length continues.length_le

/-- A dirty reaction is invoked; what runs already lies above it. -/
theorem frugal_enter (frugal : Frugal origin signal running running world) {id : Id}
    (isDirty : world.state id = .dirty) (notRunning : id ∉ running)
    (isAfter : after.invocations = world.invocations ++ [id])
    (sameState : after.state = world.state) (sameValue : after.value = world.value)
    (sameSources : ∀ other, other ≠ id → after.sources other = world.sources other) :
    Frugal origin signal (id :: running) (id :: running) after := by
  have isSince : since origin after = since origin world ++ [id] := by
    rw [since, isAfter]
    exact since_append frugal.continues id
  have notInvoked : id ∉ since origin world := by
    intro member
    rcases frugal.finished id member with isRunning | isClean
    · exact notRunning isRunning
    · rw [isDirty] at isClean
      cases isClean
  constructor
  · rw [isAfter]
    exact frugal.continues.trans (List.prefix_append _ _)
  · rw [isSince]
    exact List.nodup_append.mpr ⟨frugal.once, List.nodup_singleton id, fun other member last isLast =>
      fun same => notInvoked (List.mem_singleton.mp isLast ▸ same ▸ member)⟩
  · intro other member
    rw [isSince] at member
    rcases List.mem_append.mp member with member | isLast
    · rw [sameState]
      exact (frugal.finished other member).imp_left (List.mem_cons_of_mem id)
    · exact Or.inl (List.mem_cons.mpr (Or.inl (List.mem_singleton.mp isLast)))
  · intro other notMember
    rw [isSince] at notMember
    have different : other ≠ id := fun same =>
      notMember (List.mem_append_right _ (List.mem_singleton.mpr same))
    exact (sameSources other different).trans
      (frugal.sameSources other fun member => notMember (List.mem_append_left _ member))
  · intro index isChanged
    rw [sameValue] at isChanged
    rcases frugal.changed index isChanged with isSignal | ⟨member, notComputing⟩
    · exact Or.inl isSignal
    · rw [isSince]
      refine Or.inr ⟨List.mem_append_left _ member, fun isComputing => ?_⟩
      rcases List.mem_cons.mp isComputing with same | isComputing
      · exact notInvoked (same ▸ member)
      · exact notComputing isComputing
  · intro other wasClean isStale
    rw [sameValue]
    rw [sameState, isSince] at isStale
    refine frugal.reason other wasClean (isStale.elim Or.inl fun member => ?_)
    rcases List.mem_append.mp member with member | isLast
    · exact Or.inr member
    · exact Or.inl (List.mem_singleton.mp isLast ▸ isDirty)
  · intro other isRunning
    rw [isSince]
    rcases List.mem_cons.mp isRunning with same | isRunning
    · exact List.mem_append_right _ (List.mem_singleton.mpr same)
    · exact List.mem_append_left _ (frugal.invoked other isRunning)

/-- The value that is stored may be the one that was there. -/
theorem Frugal.computed (frugal : Frugal origin signal running computing world)
    {later : List Id} (fewer : ∀ id ∈ later, id ∈ computing) :
    Frugal origin signal running later world := by
  refine ⟨frugal.continues, frugal.once, frugal.finished, frugal.sameSources, ?_, frugal.reason,
    frugal.invoked⟩
  intro index isChanged
  rcases frugal.changed index isChanged with isSignal | ⟨member, notComputing⟩
  · exact Or.inl isSignal
  · exact Or.inr ⟨member, fun isComputing => notComputing (fewer _ isComputing)⟩

/-- A value that changes is a reason for everything that reads the node. -/
theorem frugal_changeValue {index : Nat} {next : Value}
    (frugal : Frugal origin signal (.node index :: running) (.node index :: running) world)
    (notRunning : .node index ∉ running) (notSignal : index ≠ signal)
    (edges : ∀ source id, id ∈ world.observers source ↔ source ∈ world.sources id)
    (stale : ∀ id ∈ world.observers index, world.state id ≠ .clean) (isNew : next ≠ world.value index) :
    Frugal origin signal (.node index :: running) running (world.changeValue index next) := by
  have wasOld : world.value index = origin.value index := by
    by_contra isChanged
    rcases frugal.changed index isChanged with isSignal | ⟨-, notComputing⟩
    · exact notSignal isSignal
    · exact notComputing List.mem_cons_self
  have isValue : (world.changeValue index next).value index = next := Function.update_self ..
  have sameValue : ∀ other, other ≠ index →
      (world.changeValue index next).value other = world.value other :=
    fun other different => Function.update_of_ne different _ _
  have isState : ∀ id, (world.changeValue index next).state id =
      if id ∈ world.observers index then .dirty else world.state id := fun _ => rfl
  have stillChanged : ∀ source, world.value source ≠ origin.value source →
      (world.changeValue index next).value source ≠ origin.value source := by
    intro source isChanged
    have different : source ≠ index := fun same => isChanged (same ▸ wasOld)
    rw [sameValue source different]
    exact isChanged
  have isInvoked : .node index ∈ since origin world := frugal.invoked _ List.mem_cons_self
  refine ⟨frugal.continues, frugal.once, fun id member => ?_, frugal.sameSources,
    fun other isChanged => ?_, fun id wasClean isStale => ?_, frugal.invoked⟩
  · rcases frugal.finished id member with isRunning | isClean
    · exact Or.inl isRunning
    · rw [isState, if_neg fun member => stale id member isClean]
      exact Or.inr isClean
  · by_cases same : other = index
    · exact Or.inr ⟨same ▸ isInvoked, same ▸ notRunning⟩
    · rw [sameValue other same] at isChanged
      rcases frugal.changed other isChanged with isSignal | ⟨member, notComputing⟩
      · exact Or.inl isSignal
      · exact Or.inr ⟨member, fun isRunning => notComputing (List.mem_cons_of_mem _ isRunning)⟩
  · by_cases known : world.state id = .dirty ∨ id ∈ since origin world
    · obtain ⟨source, isSource, isChanged⟩ := frugal.reason id wasClean known
      exact ⟨source, isSource, stillChanged source isChanged⟩
    · obtain ⟨notDirty, notInvoked⟩ := not_or.mp known
      have isObserver : id ∈ world.observers index := by
        by_contra notObserver
        rw [isState, if_neg notObserver] at isStale
        exact known isStale
      refine ⟨index, ?_, ?_⟩
      · rw [← frugal.sameSources id notInvoked]
        exact (edges index id).mp isObserver
      · rw [isValue, ← wasOld]
        exact isNew

/-- What has been recomputed, or need not be, is called clean. -/
theorem frugal_setClean {before : List Id} (frugal : Frugal origin signal before computing world)
    (id : Id) (others : ∀ other ∈ before, other ≠ id → other ∈ running)
    (stillRunning : ∀ other ∈ running, other ∈ before) :
    Frugal origin signal running computing (world.setState id .clean) := by
  have isClean : (world.setState id .clean).state id = .clean := Function.update_self ..
  have sameState : ∀ other, other ≠ id →
      (world.setState id .clean).state other = world.state other :=
    fun other different => Function.update_of_ne different _ _
  refine ⟨frugal.continues, frugal.once, fun other member => ?_, frugal.sameSources,
    frugal.changed, fun other wasClean isStale => ?_, fun other isRunning =>
      frugal.invoked other (stillRunning other isRunning)⟩
  · by_cases same : other = id
    · exact Or.inr (same ▸ isClean)
    · rw [sameState other same]
      exact (frugal.finished other member).imp_left fun isRunning => others other isRunning same
  · refine frugal.reason other wasClean (isStale.imp_left fun isDirty => ?_)
    by_cases same : other = id
    · rw [same, isClean] at isDirty
      cases isDirty
    · exact (sameState other same).symm.trans isDirty

end Steps

/-! ## The pull phase is frugal -/

/-- What a pull does while the functions of `running` run, all of them above the node. -/
def PullFrugal (graph : DemandGraph Value) (inputs : Nat → Value) (origin : World Value)
    (signal : Nat) (pull : Nat → World Value → Option (World Value)) (bound : Nat) : Prop :=
  ∀ node, graph.depth inputs node ≤ bound → ∀ running : List Id,
    (∀ id ∈ running, ¬ Below graph inputs (graph.depth inputs node + 1) id) →
      ∀ world after, Ready graph inputs world → Frugal origin signal running running world →
        pull node world = some after → Frugal origin signal running running after

theorem Below.mono {low high : Nat} {id : Id} (below : Below graph inputs low id)
    (isLess : low ≤ high) : Below graph inputs high id := by
  cases id with
  | node index => exact Nat.lt_of_lt_of_le below isLess
  | effect index => exact below

section Pulls

variable {signal : Nat} {running : List Id} {after : World Value} {bound level : Nat}
  {pull : Nat → World Value → Option (World Value)}

theorem get_frugal (frugalPull : PullFrugal graph inputs origin signal pull bound)
    (ready : Ready graph inputs world) (frugal : Frugal origin signal running running world)
    {source : Nat} (isLevel : graph.depth inputs source < level) (inside : level ≤ bound + 1)
    (reacting : ∀ reaction, world.tracker = some reaction →
      Reacting graph inputs level world reaction ∧ reaction ∈ running)
    (above : ∀ id ∈ running, ¬ Below graph inputs level id) {value : Value}
    (isGet : get graph pull source world = some (value, after)) :
    Frugal origin signal running running after := by
  obtain ⟨trackedReady, -⟩ := track_spec ready source fun reaction isReaction =>
    (reacting reaction isReaction).1
  have tracked := frugal_track frugal source fun reaction isReaction =>
    (reacting reaction isReaction).2
  obtain ⟨pulled, isPull, isAfter⟩ := Option.bind_eq_some_iff.mp isGet
  have pulledFrugal : Frugal origin signal running running pulled := by
    rw [refresh] at isPull
    split at isPull
    next =>
      refine frugalPull source (by omega) running (fun id isRunning below => ?_) _ _ trackedReady
        tracked isPull
      exact above id isRunning (below.mono isLevel)
    next => exact Option.some.inj isPull ▸ tracked
  cases isAfter
  exact pulledFrugal.of_same rfl rfl rfl rfl

theorem runFn_frugal {Result : Type} (spec : PullSpec graph inputs pull bound)
    (frugalPull : PullFrugal graph inputs origin signal pull bound) (inside : level ≤ bound + 1)
    (fn : ReadTree Value Result)
    (isDeep : ∀ source ∈ fn.sources (graph.eval inputs), graph.depth inputs source < level)
    (ready : Ready graph inputs world) (frugal : Frugal origin signal running running world)
    (reacting : ∀ reaction, world.tracker = some reaction →
      Reacting graph inputs level world reaction ∧ reaction ∈ running)
    (above : ∀ id ∈ running, ¬ Below graph inputs level id) {result : Result}
    {reads : List (Nat × Value)} (isRun : runFn graph pull fn world = some (result, reads, after)) :
    Frugal origin signal running running after := by
  induction fn generalizing world reads with
  | ret stop =>
      cases isRun
      exact frugal
  | read source next induction =>
      have isLevel := isDeep source List.mem_cons_self
      obtain ⟨middle, isGet, middleReady, gotten, -, isAdded⟩ :=
        get_spec spec ready isLevel inside fun reaction isReaction =>
          (reacting reaction isReaction).1
      have middleFrugal := get_frugal frugalPull ready frugal isLevel inside reacting above isGet
      have sameTracker : middle.tracker = world.tracker := congrArg Context.tracker gotten.context
      simp only [runFn, isGet, Option.bind_eq_bind, Option.bind_some] at isRun
      obtain ⟨⟨rest, restReads, last⟩, isRest, isAfter⟩ := Option.bind_eq_some_iff.mp isRun
      cases isAfter
      exact induction (graph.eval inputs source)
        (fun later member => isDeep later (List.mem_cons_of_mem _ member)) middleReady middleFrugal
        (fun reaction isReaction =>
          ⟨(isAdded reaction (sameTracker ▸ isReaction)).1,
            (reacting reaction (sameTracker ▸ isReaction)).2⟩) isRest

/-- The run of a dirty reaction, which is the one new invocation. -/
theorem react_frugal {Result : Type} (spec : PullSpec graph inputs pull bound)
    (frugalPull : PullFrugal graph inputs origin signal pull bound) (inside : level ≤ bound + 1)
    (fn : ReadTree Value Result)
    (isDeep : ∀ source ∈ fn.sources (graph.eval inputs), graph.depth inputs source < level)
    (ready : Ready graph inputs world) (frugal : Frugal origin signal running running world)
    {id : Id} (reacting : Reacting graph inputs level world id) (notRunning : id ∉ running)
    (above : ∀ id ∈ running, ¬ Below graph inputs level id) {result : Result}
    {reads : List (Nat × Value)}
    (isReact : react graph pull id fn (world.detach id) = some (result, reads, after)) :
    Frugal origin signal (id :: running) (id :: running) after := by
  obtain ⟨detachedReady, -⟩ := detach_spec ready level reacting.dirty
  let entered : World Value :=
    { world.detach id with
      currentReaction := some id
      currentlyUntracked := false
      computations := (world.detach id).computations + 1
      invocations := (world.detach id).invocations ++ [id] }
  have enteredReady : Ready graph inputs entered :=
    ⟨detachedReady.consistent, detachedReady.inputs, detachedReady.readings, detachedReady.runs⟩
  have enteredFrugal : Frugal origin signal (id :: running) (id :: running) entered :=
    frugal_enter frugal reacting.dirty notRunning rfl rfl rfl
      fun other different => Function.update_of_ne different _ _
  obtain ⟨⟨value, isReads, last⟩, isRun, isAfter⟩ := Option.bind_eq_some_iff.mp
    (show (runFn graph pull fn entered).bind _ = _ from isReact)
  cases isAfter
  have lastFrugal := runFn_frugal spec frugalPull inside fn isDeep enteredReady enteredFrugal
    (fun reaction isReaction => by
      cases isReaction
      exact ⟨⟨reacting.dirty, reacting.runs, reacting.above⟩, List.mem_cons_self⟩)
    (List.forall_mem_cons.mpr ⟨reacting.above, above⟩) isRun
  exact lastFrugal.of_same rfl rfl rfl rfl

theorem checkSources_frugal {Result : Type} (spec : PullSpec graph inputs pull bound)
    (frugalPull : PullFrugal graph inputs origin signal pull bound) (inside : level ≤ bound + 1)
    (fn : ReadTree Value Result)
    (isDeep : ∀ source ∈ fn.sources (graph.eval inputs), graph.depth inputs source < level)
    {id : Id} (aboveSources : ¬ Below graph inputs level id) {agenda : Agenda Value}
    (recorded : ∀ world, Ready graph inputs world → world.toAgenda = agenda →
      world.state id ≠ .dirty →
      world.sources id = InsertionSet.addAll [] (fn.sources world.value))
    (above : ∀ other ∈ running, ¬ Below graph inputs level other)
    (ready : Ready graph inputs world) (sameAgenda : world.toAgenda = agenda)
    (frugal : Frugal origin signal running running world)
    (isCheck : world.state id = .check) (done rest : List Nat)
    (isSources : world.sources id = done ++ rest)
    (areDone : ∀ source ∈ done, world.state (.node source) = .clean)
    (isChecked : checkSources pull id rest world = some after) :
    Frugal origin signal running running after := by
  induction rest generalizing done world with
  | nil => exact Option.some.inj isChecked ▸ frugal
  | cons source rest induction =>
      have isFirst := recorded world ready sameAgenda (by rw [isCheck]; decide)
      have isRead := mem_sources_of_checked ready fn (isSources.symm.trans isFirst) areDone
      have isShallow := isDeep source isRead
      obtain ⟨middle, isPull, middleReady, isPulled, isClean⟩ := spec source (by omega) world ready
      have pulled : Pulled graph inputs none level world middle := isPulled.mono none (by omega)
      have middleFrugal := frugalPull source (by omega) running
        (fun other isRunning below => above other isRunning (below.mono isShallow)) world middle
        ready frugal isPull
      obtain ⟨sameSources, sameState⟩ := pulled.deep id aboveSources nofun
      rw [checkSources, isPull, Option.bind_eq_bind, Option.bind_some] at isChecked
      split at isChecked
      next => exact Option.some.inj isChecked ▸ middleFrugal
      next notDirty =>
        have stillCheck : middle.state id = .check :=
          (sameState.resolve_right fun both => notDirty both.2).trans isCheck
        refine induction middleReady (pulled.agenda.trans sameAgenda) middleFrugal stillCheck
          (done ++ [source]) (by simp [sameSources, isSources]) (fun other member => ?_) isChecked
        rcases List.mem_append.mp member with old | new
        · exact (pulled.clean _ (areDone other old)).1
        · rw [List.mem_singleton.mp new]
          exact isClean

theorem checkIfMarked_frugal {Result : Type} (spec : PullSpec graph inputs pull bound)
    (frugalPull : PullFrugal graph inputs origin signal pull bound) (inside : level ≤ bound + 1)
    (fn : ReadTree Value Result)
    (isDeep : ∀ source ∈ fn.sources (graph.eval inputs), graph.depth inputs source < level)
    {id : Id} (aboveSources : ¬ Below graph inputs level id)
    (recorded : ∀ other, Ready graph inputs other → other.toAgenda = world.toAgenda →
      other.state id ≠ .dirty →
      other.sources id = InsertionSet.addAll [] (fn.sources other.value))
    (above : ∀ other ∈ running, ¬ Below graph inputs level other)
    (ready : Ready graph inputs world) (frugal : Frugal origin signal running running world)
    (isChecked : checkIfMarked pull id world = some after) :
    Frugal origin signal running running after := by
  rw [checkIfMarked] at isChecked
  split at isChecked
  next isCheck =>
    exact checkSources_frugal spec frugalPull inside fn isDeep aboveSources recorded above ready
      rfl frugal isCheck [] _ rfl (fun _ member => absurd member List.not_mem_nil) isChecked
  next => exact Option.some.inj isChecked ▸ frugal

/-- Cleanups run untracked: nothing is recorded for them. -/
theorem runAll_frugal (spec : PullSpec graph inputs pull (graph.size + 1))
    (frugalPull : PullFrugal graph inputs origin signal pull (graph.size + 1))
    (cleanups : List (Cleanup Value)) (ready : Ready graph inputs world)
    (untracked : world.tracker = none) (frugal : Frugal origin signal [] [] world)
    (isRun : runAll graph pull cleanups world = some after) : Frugal origin signal [] [] after := by
  induction cleanups generalizing world with
  | nil => exact Option.some.inj isRun ▸ frugal
  | cons cleanup rest induction =>
      obtain ⟨middle, isFirst, middleReady, pulled, -⟩ :=
        runFn_spec spec (Nat.le_refl (everything graph)) cleanup
          (fun source _ => depth_lt_everything source) ready (by simp [untracked])
      have middleFrugal := runFn_frugal spec frugalPull (Nat.le_refl (everything graph)) cleanup
        (fun source _ => depth_lt_everything source) ready frugal (by simp [untracked])
        (List.forall_mem_nil _) isFirst
      simp only [runAll, isFirst, Option.bind_eq_bind, Option.bind_some] at isRun
      exact induction middleReady ((congrArg Context.tracker pulled.context).trans untracked)
        middleFrugal isRun

theorem runCleanups_frugal (spec : PullSpec graph inputs pull (graph.size + 1))
    (frugalPull : PullFrugal graph inputs origin signal pull (graph.size + 1)) (index : Nat)
    (ready : Ready graph inputs world) (frugal : Frugal origin signal [] [] world)
    (isRun : runCleanups graph pull index world = some after) :
    Frugal origin signal [] [] after := by
  rw [runCleanups] at isRun
  split at isRun
  next => exact Option.some.inj isRun ▸ frugal
  next =>
    let entered : World Value := { world with currentlyUntracked := true }
    have enteredReady : Ready graph inputs entered :=
      ⟨ready.consistent, ready.inputs, ready.readings, ready.runs⟩
    obtain ⟨middle, isAll, isAfter⟩ := Option.bind_eq_some_iff.mp
      (show (runAll graph pull (world.cleanups index) entered).bind _ = _ from isRun)
    cases isAfter
    have middleFrugal := runAll_frugal spec frugalPull (world.cleanups index) enteredReady rfl
      (frugal.of_same rfl rfl rfl rfl) isAll
    exact middleFrugal.of_same rfl rfl rfl rfl

theorem updateEffect_frugal (spec : PullSpec graph inputs pull (graph.size + 1))
    (frugalPull : PullFrugal graph inputs origin signal pull (graph.size + 1)) {index : Nat}
    {fn : EffectFn Value} (isLive : world.live index = some fn) (ready : Ready graph inputs world)
    (frugal : Frugal origin signal [] [] world) (isDirty : world.state (.effect index) = .dirty)
    (isUpdate : updateEffect graph pull index fn world = some after) :
    Frugal origin signal [.effect index] [] after := by
  obtain ⟨cleaned, isCleaned, cleanedReady, cleanedPulled⟩ := runCleanups_spec spec index ready
  have cleanedFrugal := runCleanups_frugal spec frugalPull index ready frugal isCleaned
  have stillDirty : cleaned.state (.effect index) = .dirty := by
    rcases (cleanedPulled.deep (.effect index) id nofun).2 with same | ⟨-, isLater⟩
    · exact same.trans isDirty
    · exact isLater
  have isRunning : Runs graph cleaned.toAgenda (.effect index) := by
    rw [Runs, cleanedPulled.agenda, isLive]
    rfl
  obtain ⟨middle, isReact, -⟩ :=
    react_spec spec (Nat.le_refl (everything graph)) fn (fun source _ => depth_lt_everything source)
      cleanedReady ⟨stillDirty, isRunning, id⟩
  have middleFrugal := react_frugal spec frugalPull (Nat.le_refl (everything graph)) fn
    (fun source _ => depth_lt_everything source) cleanedReady cleanedFrugal
    ⟨stillDirty, isRunning, id⟩ List.not_mem_nil (List.forall_mem_nil _) isReact
  simp only [updateEffect, isCleaned, Option.bind_eq_bind, Option.bind_some, isReact] at isUpdate
  cases isUpdate
  exact (middleFrugal.computed (List.forall_mem_nil _)).of_same rfl rfl rfl rfl

variable [DecidableEq Value]

/-- What the update of a dirty node leaves behind is frugal once the node is called clean. -/
theorem updateNode_frugal (spec : PullSpec graph inputs pull bound)
    (frugalPull : PullFrugal graph inputs origin signal pull bound) {index : Nat}
    (shallow : graph.depth inputs index ≤ bound + 1) {fn : ReadTree Value Value}
    (isFn : graph.fn index = some fn) (notSignal : index ≠ signal) (ready : Ready graph inputs world)
    (frugal : Frugal origin signal running running world)
    (isDirty : world.state (.node index) = .dirty)
    (above : ∀ id ∈ running, ¬ Below graph inputs (graph.depth inputs index + 1) id)
    (isUpdate : updateNode graph pull index fn world = some after) :
    Frugal origin signal (.node index :: running) running after := by
  obtain ⟨-, isDeep⟩ := graph.eval_computed inputs isFn
  have isRunning : Runs graph world.toAgenda (.node index) := by
    rw [Runs, isFn]
    rfl
  have notRunning : .node index ∉ running := fun member =>
    above _ member (Nat.lt_succ_self (graph.depth inputs index))
  obtain ⟨middle, isReact, middleReady, -, stillDirty, -⟩ :=
    react_spec spec shallow fn isDeep ready ⟨isDirty, isRunning, Nat.lt_irrefl _⟩
  have middleFrugal := react_frugal spec frugalPull shallow fn isDeep ready frugal
    ⟨isDirty, isRunning, Nat.lt_irrefl _⟩ notRunning
    (fun id member below => above id member (below.mono (Nat.le_succ _))) isReact
  rw [updateNode, isReact] at isUpdate
  have isAfter := Option.some.inj isUpdate
  rw [← isAfter]
  split
  next => exact middleFrugal.computed fun id member => List.mem_cons_of_mem _ member
  next isNew =>
    refine frugal_changeValue middleFrugal notRunning notSignal middleReady.consistent.edges
      (fun id member isClean => ?_) isNew
    have sourceClean := middleReady.consistent.closed id isClean index
      ((middleReady.consistent.edges index id).mp member)
    rw [stillDirty] at sourceClean
    cases sourceClean

theorem bringUpToDate_node_frugal (isSignal : graph.fn signal = none)
    (spec : PullSpec graph inputs pull bound)
    (frugalPull : PullFrugal graph inputs origin signal pull bound) :
    PullFrugal graph inputs origin signal
      (fun index => bringUpToDate graph pull (.node index)) (bound + 1) := by
  intro index shallow running above world after ready frugal isPull
  obtain ⟨checked, isCheck, isRest⟩ := Option.bind_eq_some_iff.mp isPull
  obtain ⟨updated, isUpdate, isAfter⟩ := Option.bind_eq_some_iff.mp isRest
  cases isAfter
  have leave : ∀ {before : List Id}, Frugal origin signal before running updated →
      (∀ other ∈ before, other ≠ .node index → other ∈ running) →
      (∀ other ∈ running, other ∈ before) →
      Frugal origin signal running running (updated.setState (.node index) .clean) :=
    fun before others still => frugal_setClean before _ others still
  cases isFn : graph.fn index with
  | none =>
      have isIdle : ¬ Runs graph world.toAgenda (.node index) := by
        rw [Runs, isFn]
        exact Bool.false_ne_true
      obtain ⟨isClean, -⟩ := ready.consistent.idle _ isIdle
      rw [checkIfMarked, isClean] at isCheck
      cases isCheck
      rw [updateIfDirty, isClean] at isUpdate
      cases isUpdate
      exact leave frugal (fun _ isRunning _ => isRunning) fun _ isRunning => isRunning
  | some fn =>
      have notSignal : index ≠ signal := by
        rintro rfl
        rw [isSignal] at isFn
        cases isFn
      have recorded : ∀ other, Ready graph inputs other → other.toAgenda = world.toAgenda →
          other.state (.node index) ≠ .dirty → other.sources (.node index) =
            InsertionSet.addAll [] (fn.sources other.value) :=
        fun other otherReady _ notDirty =>
          (otherReady.consistent.upToDate (.node index) notDirty fn isFn).1
      have aboveSources : ∀ id ∈ running, ¬ Below graph inputs (graph.depth inputs index) id :=
        fun id member below => above id member (below.mono (Nat.le_succ _))
      obtain ⟨-, isDeep⟩ := graph.eval_computed inputs isFn
      obtain ⟨other, isOther, checkedReady, -⟩ :=
        checkIfMarked_spec spec shallow fn isDeep (Nat.lt_irrefl _) recorded ready
      cases isCheck.symm.trans isOther
      have checkedFrugal := checkIfMarked_frugal spec frugalPull shallow fn isDeep
        (Nat.lt_irrefl _) recorded aboveSources ready frugal isCheck
      rw [updateIfDirty] at isUpdate
      split at isUpdate
      next isDirty =>
        rw [update, isFn] at isUpdate
        refine leave (updateNode_frugal spec frugalPull shallow isFn notSignal checkedReady
          checkedFrugal isDirty above isUpdate) (fun id member different => ?_)
          fun id member => List.mem_cons_of_mem _ member
        exact (List.mem_cons.mp member).resolve_left different
      next =>
        cases isUpdate
        exact leave checkedFrugal (fun _ isRunning _ => isRunning) fun _ isRunning => isRunning

/-- By induction on the fuel. -/
theorem updateIfNecessary_frugal (isSignal : graph.fn signal = none) (inputs : Nat → Value)
    (origin : World Value) (fuel : Nat) :
    PullFrugal graph inputs origin signal
      (fun index => updateIfNecessary graph fuel (.node index)) fuel := by
  induction fuel with
  | zero =>
      intro index shallow
      have := graph.depth_pos inputs index
      omega
  | succ fuel induction =>
      exact bringUpToDate_node_frugal isSignal (updateIfNecessary_spec inputs fuel) induction

/-! ## Effects -/

theorem pullEffect_frugal (isSignal : graph.fn signal = none) {index : Nat} {fn : EffectFn Value}
    (isLive : world.live index = some fn) (ready : Ready graph inputs world)
    (frugal : Frugal origin signal [] [] world)
    (isPull : pullEffect graph index world = some after) : Frugal origin signal [] [] after := by
  have spec : PullSpec graph inputs (pullNode graph) (graph.size + 1) := pullNode_spec inputs
  have frugalPull : PullFrugal graph inputs origin signal (pullNode graph) (graph.size + 1) :=
    updateIfNecessary_frugal isSignal inputs origin (graph.size + 1)
  have recorded : ∀ other, Ready graph inputs other → other.toAgenda = world.toAgenda →
      other.state (.effect index) ≠ .dirty → other.sources (.effect index) =
        InsertionSet.addAll [] (fn.sources other.value) := by
    intro other otherReady sameAgenda notDirty
    refine (otherReady.consistent.upToDate (.effect index) notDirty fn ?_).1
    rw [sameAgenda, isLive]
  obtain ⟨checked, isCheck, isRest⟩ := Option.bind_eq_some_iff.mp
    (show bringUpToDate graph (pullNode graph) (.effect index) world = _ from isPull)
  obtain ⟨updated, isUpdate, isAfter⟩ := Option.bind_eq_some_iff.mp isRest
  cases isAfter
  obtain ⟨other, isOther, checkedReady, checkPulled, -⟩ :=
    checkIfMarked_spec spec (Nat.le_refl (everything graph)) fn
      (fun source _ => depth_lt_everything source) id recorded ready
  cases isCheck.symm.trans isOther
  have checkedFrugal := checkIfMarked_frugal spec frugalPull (Nat.le_refl (everything graph)) fn
    (fun source _ => depth_lt_everything source) id recorded (List.forall_mem_nil _) ready frugal
    isCheck
  have stillLive : checked.live index = some fn := by rw [checkPulled.agenda, isLive]
  rw [updateIfDirty] at isUpdate
  split at isUpdate
  next isDirty =>
    have isFn : checked.effectFn index = some fn := by
      rw [Agenda.live] at stillLive
      split at stillLive
      next => cases stillLive
      next => exact stillLive
    rw [update, isFn] at isUpdate
    refine frugal_setClean (updateEffect_frugal spec frugalPull stillLive checkedReady
      checkedFrugal isDirty isUpdate) _ (fun id member different => ?_) (List.forall_mem_nil _)
    exact absurd (List.mem_singleton.mp member) different
  next =>
    cases isUpdate
    exact frugal_setClean checkedFrugal _ (fun _ isRunning _ => isRunning)
      fun _ isRunning => isRunning

theorem runEffects_frugal (isSignal : graph.fn signal = none) (effects : List Nat)
    (ready : Ready graph inputs world) (frugal : Frugal origin signal [] [] world)
    (isRun : runEffects graph effects world = some after) : Frugal origin signal [] [] after := by
  induction effects generalizing world with
  | nil => exact Option.some.inj isRun ▸ frugal
  | cons effect rest induction =>
      obtain ⟨middle, isFirst, isRest⟩ := Option.bind_eq_some_iff.mp isRun
      rw [runIfStale] at isFirst
      split at isFirst
      next =>
        cases isFirst
        exact induction ready frugal isRest
      next isStale =>
        obtain ⟨fn, isLive⟩ := exists_live ready isStale
        obtain ⟨other, isOther, middleReady, -⟩ := pullEffect_spec isLive ready
        cases isFirst.symm.trans isOther
        exact induction middleReady (pullEffect_frugal isSignal isLive ready frugal isFirst) isRest

theorem flush_frugal (isSignal : graph.fn signal = none) (ready : Ready graph inputs world)
    (frugal : Frugal origin signal [] [] world) (isFlush : flush graph world = some after) :
    Frugal origin signal [] [] after := by
  rw [flush] at isFlush
  split at isFlush
  next => exact Option.some.inj isFlush ▸ frugal
  next =>
    rw [flushRounds] at isFlush
    split at isFlush
    next => exact Option.some.inj isFlush ▸ frugal
    next =>
      obtain ⟨middle, isRun, isRest⟩ := Option.bind_eq_some_iff.mp isFlush
      have middleFrugal := runEffects_frugal isSignal world.pendingEffects
        (ready.requeue [] world.batchDepth) (frugal.of_same rfl rfl rfl rfl) isRun
      rw [flushRounds] at isRest
      split at isRest
      next => exact Option.some.inj isRest ▸ middleFrugal
      next => cases isRest

end Pulls

/-! ## Marks -/

section Marks

variable {after : World Value}

theorem markAll_dirty {mark : Id → World Value → Option (World Value)} {ids : List Id}
    {state : Color} (marks : ∀ id ∈ ids, ∀ before later, mark id before = some later →
      ∀ other, later.state other = .dirty →
        before.state other = .dirty ∨ state = .dirty ∧ other = id)
    (isMark : markAll mark ids world = some after) (other : Id)
    (isDirty : after.state other = .dirty) :
    world.state other = .dirty ∨ state = .dirty ∧ other ∈ ids := by
  induction ids generalizing world with
  | nil => exact Or.inl (Option.some.inj isMark ▸ isDirty)
  | cons id rest induction =>
      obtain ⟨middle, isFirst, isRest⟩ := Option.bind_eq_some_iff.mp isMark
      rcases induction (fun later member => marks later (List.mem_cons_of_mem _ member)) isRest with
        wasDirty | ⟨isState, member⟩
      · rcases marks id List.mem_cons_self world middle isFirst other wasDirty with
          wasDirty | ⟨isState, same⟩
        · exact Or.inl wasDirty
        · exact Or.inr ⟨isState, List.mem_cons.mpr (Or.inl same)⟩
      · exact Or.inr ⟨isState, List.mem_cons_of_mem _ member⟩

/-- A mark makes dirty what it is put on, and marks what lies above as checked only. -/
theorem markStale_dirty {fuel : Nat} {state : Color} {id : Id}
    (isMark : markStale fuel state id world = some after) (other : Id)
    (isDirty : after.state other = .dirty) :
    world.state other = .dirty ∨ state = .dirty ∧ other = id := by
  induction fuel generalizing state id world after other with
  | zero => cases isMark
  | succ fuel induction =>
      rw [markStale] at isMark
      split at isMark
      next => exact Or.inl (Option.some.inj isMark ▸ isDirty)
      next =>
        have stained := stain_spec state id world
        have above : (stain state id world).state other = .dirty ∨
            Color.check = .dirty ∧ other ∈ world.observersOf id :=
          markAll_dirty (fun marked _ before later isLater => induction isLater) isMark other isDirty
        rcases above with isDirty | ⟨impossible, -⟩
        · by_cases same : other = id
          · subst same
            exact Or.inr ⟨stained.self.symm.trans isDirty, rfl⟩
          · exact Or.inl ((stained.others other same).symm.trans isDirty)
        · cases impossible

/-- After the marks only what reads the written signal has become dirty. -/
theorem frugal_of_marked (edges : ∀ source id, id ∈ world.observers source ↔ source ∈ world.sources id)
    {signal : Nat} {next : Value} (isNew : next ≠ world.value signal)
    (marked : Marked { world with value := Function.update world.value signal next } after)
    (onlyObservers : ∀ id, after.state id = .dirty →
      world.state id = .dirty ∨ id ∈ world.observers signal) :
    Frugal world signal [] [] after := by
  have sameInvocations : after.invocations = world.invocations :=
    congrArg (fun world => world.invocations) marked.rest
  have sameSources : after.sources = world.sources :=
    congrArg (fun world => world.sources) marked.rest
  have isValue : after.value = Function.update world.value signal next :=
    congrArg (fun world => world.value) marked.rest
  have isSince : since world after = [] := by
    rw [since, sameInvocations]
    exact List.drop_length
  constructor
  · rw [sameInvocations]
  · rw [isSince]
    exact List.nodup_nil
  · rw [isSince]
    exact List.forall_mem_nil _
  · intro id _
    rw [sameSources]
  · intro index isChanged
    by_contra different
    rw [isValue, Function.update_of_ne fun same => different (Or.inl same)] at isChanged
    exact isChanged rfl
  · intro id wasClean isStale
    rw [isSince] at isStale
    have isDirty := isStale.resolve_right List.not_mem_nil
    rcases onlyObservers id isDirty with wasDirty | isObserver
    · cases wasClean.symm.trans wasDirty
    · refine ⟨signal, (edges signal id).mp isObserver, ?_⟩
      rw [isValue, Function.update_self]
      exact isNew
  · exact List.forall_mem_nil _

end Marks

/-! ## One write -/

variable [DecidableEq Value]

theorem set_frugal (settled : Settled graph inputs world) (signal : Nat) (next : Value)
    {outcome : Outcome Value} {after : World Value}
    (isSet : set graph signal next world = some (outcome, after)) :
    Frugal world signal [] [] after := by
  have isSince : since world world = [] := List.drop_length
  have unchanged : Frugal world signal [] [] world := by
    refine ⟨List.prefix_refl _, ?_, ?_, fun _ _ => rfl, fun index isChanged => absurd rfl isChanged,
      fun id wasClean isStale => ?_, List.forall_mem_nil _⟩
    · rw [isSince]
      exact List.nodup_nil
    · rw [isSince]
      exact List.forall_mem_nil _
    · rw [isSince] at isStale
      cases wasClean.symm.trans (isStale.resolve_right List.not_mem_nil)
  rw [set] at isSet
  split at isSet
  next =>
    cases isSet
    exact unchanged
  next notComputed =>
    have isSignal : graph.fn signal = none := by simpa using notComputed
    split at isSet
    next =>
      cases isSet
      exact unchanged
    next isNew =>
      have ready := settled.ready
      obtain ⟨marked, isMark, isMarked, observersDirty⟩ := marks_spec ready signal next
      have markedReady := ready_of_marked ready isSignal isMarked observersDirty
      have onlyObservers : ∀ id, marked.state id = .dirty →
          world.state id = .dirty ∨ id ∈ world.observers signal := fun id isDirty =>
        (markAll_dirty (fun _ _ _ _ isLater => markStale_dirty isLater) isMark id isDirty).imp_right
          And.right
      have markedFrugal := frugal_of_marked ready.consistent.edges isNew isMarked onlyObservers
      simp only [isMark, Option.bind_eq_bind, Option.bind_some] at isSet
      obtain ⟨flushed, isFlush, isAfter⟩ := Option.bind_eq_some_iff.mp isSet
      cases isAfter
      exact flush_frugal isSignal markedReady markedFrugal isFlush

/-- A write invokes each function at most once, and that of a clean node only if one of the
sources recorded on its last run has another value. -/
theorem set_recomputes_minimally (graph : DemandGraph Value) (initial : Nat → Value)
    (ops : List (Op Value)) (signal : Nat) (next : Value) :
    ∃ world outcome after invoked, run graph ops (World.start graph initial) = some world ∧
      step graph (.set signal next) world = some (outcome, after) ∧
      after.invocations = world.invocations ++ invoked ∧ invoked.Nodup ∧
      ∀ id ∈ invoked, world.state id = .clean →
        ∃ source ∈ world.sources id, after.value source ≠ world.value source := by
  obtain ⟨world, isRun, settled⟩ := run_spec ops (start_settled graph initial)
  obtain ⟨outcome, after, isSet, -⟩ := set_spec settled signal next
  have frugal := set_frugal settled signal next isSet
  refine ⟨world, outcome, after, since world after, isRun, isSet, ?_, frugal.once,
    fun id isInvoked wasClean => frugal.reason id wasClean (Or.inr isInvoked)⟩
  obtain ⟨invoked, isInvoked⟩ := frugal.continues
  rw [since, ← isInvoked, List.drop_left]

end FoundationsLab.Signals
