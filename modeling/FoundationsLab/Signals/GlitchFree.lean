import FoundationsLab.Signals.Marking

namespace FoundationsLab.Signals

variable {Value : Type} {graph : DemandGraph Value} {inputs : Nat → Value} {world : World Value}

/-! ## The signals' current values -/

/-- The signals after an operation: only `set` writes one, and only a signal. -/
def written (graph : DemandGraph Value) (inputs : Nat → Value) : Op Value → Nat → Value
  | .set signal next =>
      if (graph.fn signal).isSome then inputs else Function.update inputs signal next
  | _ => inputs

/-- The signals after a sequence of operations. -/
def current (graph : DemandGraph Value) (initial : Nat → Value) (ops : List (Op Value)) :
    Nat → Value :=
  ops.foldl (written graph) initial

/-! ## A write and its marks -/

theorem Ready.covered (ready : Ready graph inputs world) : Covered graph world := by
  intro source id member
  have isSource := (ready.consistent.edges source id).mp member
  have isRunning : Runs graph world.toAgenda id := by
    by_contra isIdle
    rw [(ready.consistent.idle id isIdle).2] at isSource
    cases isSource
  cases id with
  | node index =>
      refine Finset.mem_union_left _ (Finset.mem_image_of_mem _ (Finset.mem_range.mpr ?_))
      by_contra outside
      rw [Runs, graph.inside index (by omega)] at isRunning
      cases isRunning
  | effect index =>
      refine Finset.mem_union_right _ (Finset.mem_image_of_mem _ (Finset.mem_range.mpr ?_))
      by_contra outside
      obtain ⟨isNone, notDisposed⟩ := ready.consistent.uncreated index (by omega)
      rw [Runs, Agenda.live, notDisposed, isNone] at isRunning
      cases isRunning

/-- A colour no staler than one that is not dirty is not dirty. -/
theorem ne_dirty_of_staler {first second : Color} (isStaler : first.staleness ≤ second.staleness)
    (notDirty : second ≠ .dirty) : first ≠ .dirty := by
  rintro rfl
  cases second with
  | clean => cases isStaler
  | check => simp [Color.staleness] at isStaler
  | dirty => exact notDirty rfl

/-- Once everything that reads a written signal is dirty, and the marks have spread, the cells
are consistent again. -/
theorem ready_of_marked (ready : Ready graph inputs world) {signal : Nat} {next : Value}
    (isSignal : graph.fn signal = none) {after : World Value}
    (marked : Marked { world with value := Function.update world.value signal next } after)
    (observersDirty : ∀ id ∈ world.observers signal, after.state id = .dirty) :
    Ready graph (Function.update inputs signal next) after := by
  have isValue : after.value = Function.update world.value signal next :=
    congrArg (fun world => world.value) marked.rest
  have sameSources : after.sources = world.sources :=
    congrArg (fun world => world.sources) marked.rest
  have sameObservers : after.observers = world.observers := marked.observers
  have sameReadings : after.readings = world.readings :=
    congrArg (fun world => world.readings) marked.rest
  have sameRuns : after.runs = world.runs := congrArg (fun world => world.runs) marked.rest
  have sameAgenda : after.toAgenda =
      { world.toAgenda with pendingEffects := after.pendingEffects } := marked.agenda
  have staler : ∀ id, (world.state id).staleness ≤ (after.state id).staleness := marked.staler
  have runs_iff : ∀ id, Runs graph after.toAgenda id ↔ Runs graph world.toAgenda id := by
    intro id
    rw [sameAgenda]
    cases id <;> exact Iff.rfl
  have unread : ∀ id, world.sources id = [] → after.state id = world.state id := by
    intro id isEmpty
    refine marked.unread id fun source member => ?_
    have isSource := (ready.consistent.edges source id).mp member
    rw [isEmpty] at isSource
    cases isSource
  refine ⟨⟨fun source id => ?_, fun id isClean source member => ?_, fun id isIdle => ?_,
    fun id notDirty => ?_, ?_⟩, fun node isInput => ?_, ?_, ?_⟩
  · rw [sameObservers, sameSources]
    exact ready.consistent.edges source id
  · -- A source that became stale would have made everything that reads it stale.
    rw [sameSources] at member
    have wasClean := eq_clean_of_staler (staler id) isClean
    have sourceClean := ready.consistent.closed id wasClean source member
    by_contra isStale
    exact marked.spread (.node source) sourceClean isStale id
      ((ready.consistent.edges source id).mpr member) isClean
  · rw [runs_iff] at isIdle
    obtain ⟨isClean, isEmpty⟩ := ready.consistent.idle id isIdle
    rw [sameSources]
    exact ⟨(unread id isEmpty).trans isClean, isEmpty⟩
  · have wasNotDirty := ne_dirty_of_staler (staler id) notDirty
    by_cases isSelf : id = .node signal
    · subst isSelf
      intro fn isFn
      rw [isSignal] at isFn
      cases isFn
    refine (ready.consistent.upToDate id wasNotDirty).congr (congrFun sameSources id)
      (fun source member => ?_) (fun index isNode => ?_) fun index _ => ⟨?_, by rw [sameRuns]⟩
    · rw [isValue]
      refine Function.update_of_ne ?_ _ _
      rintro rfl
      exact notDirty (observersDirty id ((ready.consistent.edges source id).mpr member))
    · rw [isValue]
      refine Function.update_of_ne ?_ _ _
      rintro rfl
      exact isSelf isNode
    · rw [sameAgenda]
      rfl
  · rw [sameAgenda]
    exact ready.consistent.uncreated
  · rw [isValue]
    rcases eq_or_ne node signal with rfl | different
    · rw [Function.update_self, Function.update_self]
    · rw [Function.update_of_ne different, Function.update_of_ne different]
      exact ready.inputs node isInput
  · rw [sameReadings]
    exact ready.readings
  · rw [sameRuns]
    exact ready.runs

theorem Waiting.marked {before after : World Value}
    (waiting : Waiting before before.pendingEffects) (marked : Marked before after) :
    Waiting after after.pendingEffects := by
  intro index isStale
  by_cases wasClean : before.state (.effect index) = .clean
  · exact marked.queued index wasClean isStale
  · exact marked.kept index (waiting index wasClean)

/-- The marks of a write end, and everything that reads the signal is dirty. -/
theorem marks_spec (ready : Ready graph inputs world) (signal : Nat) (next : Value) :
    ∃ marked, markAll (markStale (markFuel graph world) .dirty) (world.observers signal)
        { world with value := Function.update world.value signal next } = some marked ∧
      Marked { world with value := Function.update world.value signal next } marked ∧
      ∀ id ∈ world.observers signal, marked.state id = .dirty := by
  let wrote : World Value := { world with value := Function.update world.value signal next }
  have covered : Covered graph wrote := ready.covered
  have marks : ∃ marked, markAll (markStale (markFuel graph world) .dirty)
      (world.observers signal) wrote = some marked ∧ Marked wrote marked ∧
      ∀ id ∈ world.observers signal,
        Color.dirty.staleness ≤ (marked.state id).staleness := by
    refine markAll_spec _ _ _ fun id member middle marked => ?_
    refine markStale_spec _ .dirty nofun id (marked.covered covered)
      ⟨signal, by rw [marked.observers]; exact member⟩ ?_
    have atMost := Finset.card_le_card (marked.cleanIds_subset graph)
    have fewer := card_cleanIds_le graph wrote
    change _ ≤ graph.size + world.created at fewer
    rw [if_pos rfl, markFuel]
    omega
  obtain ⟨marked, isMark, isMarked, observersDirty⟩ := marks
  refine ⟨marked, isMark, isMarked, fun id member => ?_⟩
  have isStale := observersDirty id member
  cases isState : marked.state id with
  | dirty => rfl
  | clean => rw [isState] at isStale; cases isStale
  | check => rw [isState] at isStale; simp [Color.staleness] at isStale

/-! ## The first world, and what a settled one means -/

theorem start_settled (graph : DemandGraph Value) (initial : Nat → Value) :
    Settled graph initial (World.start graph initial) where
  ready :=
    { consistent :=
        { edges := fun _ _ => ⟨nofun, nofun⟩
          closed := fun _ _ => nofun
          idle := by
            intro id isIdle
            cases id with
            | node index =>
                refine ⟨?_, rfl⟩
                change (if (graph.fn index).isSome then Color.dirty else .clean) = .clean
                exact if_neg isIdle
            | effect index => exact ⟨rfl, rfl⟩
          upToDate := by
            intro id notDirty
            cases id with
            | node index =>
                intro fn isFn
                refine absurd ?_ notDirty
                change (if (graph.fn index).isSome then Color.dirty else .clean) = .dirty
                rw [isFn]
                rfl
            | effect index => exact nofun
          uncreated := fun _ _ => ⟨rfl, rfl⟩ }
      inputs := fun _ _ => rfl
      readings := nofun
      runs := nofun }
  waiting _ isStale := absurd rfl isStale
  outside := rfl
  unbatched _ := rfl

/-- Outside a batch, the last run of every live effect read the current values. -/
theorem Settled.lastRun_reads (settled : Settled graph inputs world)
    (isClosed : world.batchDepth = 0) {index : Nat} {fn : EffectFn Value}
    (isLive : world.live index = some fn) :
    ∃ last, lastRun world.runs index = some last ∧ last.fn = fn ∧
      last.reads = fn.reads (graph.eval inputs) := by
  have isClean : world.state (.effect index) = .clean := by
    by_contra isStale
    have member := settled.waiting index isStale
    rw [settled.unbatched isClosed] at member
    cases member
  have ready := settled.ready
  obtain ⟨isSources, last, isLast, isFn, isReads⟩ :=
    ready.consistent.upToDate (.effect index) (by rw [isClean]; decide) fn isLive
  refine ⟨last, isLast, isFn, ?_⟩
  rw [isReads]
  refine (fn.agree fun source inStored _ => ready.eval_of_clean source ?_).2
  refine ready.consistent.closed _ isClean source ?_
  rw [isSources, InsertionSet.mem_addAll]
  exact Or.inr inStored

/-! ## Every operation leaves the world settled -/

variable [DecidableEq Value]

theorem set_spec (settled : Settled graph inputs world) (signal : Nat) (next : Value) :
    ∃ outcome after, set graph signal next world = some (outcome, after) ∧
      Settled graph (written graph inputs (.set signal next)) after := by
  rw [set, written]
  split
  next => exact ⟨_, world, rfl, settled⟩
  next notComputed =>
    have isSignal : graph.fn signal = none := by simpa using notComputed
    have ready := settled.ready
    split
    next same =>
      refine ⟨_, world, rfl, ⟨ready.consistent, fun node isInput => ?_, ready.readings,
        ready.runs⟩, settled.waiting, settled.outside, settled.unbatched⟩
      rcases eq_or_ne node signal with rfl | different
      · rw [Function.update_self, same]
      · rw [Function.update_of_ne different, ready.inputs node isInput]
    next =>
      let wrote : World Value :=
        { world with value := Function.update world.value signal next }
      obtain ⟨marked, isMark, isMarked, observersDirty⟩ := marks_spec ready signal next
      have markedReady := ready_of_marked ready isSignal isMarked observersDirty
      have waiting : Waiting wrote wrote.pendingEffects := settled.waiting
      obtain ⟨after, isFlush, afterSettled⟩ :=
        flush_spec markedReady (waiting.marked isMarked)
          ((congrArg (fun world => world.currentReaction) isMarked.rest).trans settled.outside)
      refine ⟨.done, after, ?_, afterSettled⟩
      change (markAll _ _ wrote).bind _ = _
      rw [isMark]
      change (flush graph marked).bind _ = _
      rw [isFlush]
      rfl

theorem createEffect_spec (settled : Settled graph inputs world) (fn : EffectFn Value) :
    ∃ after, createEffect graph fn world = some after ∧ Settled graph inputs after := by
  have ready := settled.ready
  obtain ⟨isNone, notDisposed⟩ := ready.consistent.uncreated world.created (Nat.le_refl _)
  have notLive : ¬ Runs graph world.toAgenda (.effect world.created) := by
    rw [Runs, Agenda.live, notDisposed, isNone]
    exact Bool.false_ne_true
  obtain ⟨-, isEmpty⟩ := ready.consistent.idle _ notLive
  let born : World Value :=
    { world with
      created := world.created + 1
      effectFn := Function.update world.effectFn world.created (some fn)
      state := Function.update world.state (.effect world.created) .dirty }
  have others : ∀ id, id ≠ .effect world.created → born.state id = world.state id :=
    fun id different => Function.update_of_ne different _ _
  have isDirty : born.state (.effect world.created) = .dirty := Function.update_self ..
  have otherLive : ∀ index, index ≠ world.created → born.live index = world.live index := by
    intro index different
    rw [Agenda.live, Agenda.live]
    change (if world.disposed index then none
      else Function.update world.effectFn world.created (some fn) index) = _
    rw [Function.update_of_ne different]
  have isLive : born.live world.created = some fn := by
    rw [Agenda.live]
    change (if world.disposed world.created then none
      else Function.update world.effectFn world.created (some fn) world.created) = _
    rw [notDisposed, Function.update_self]
    rfl
  have isBorn : ∀ id, born.state id ≠ .dirty → id ≠ .effect world.created := by
    rintro _ notDirty rfl
    exact notDirty isDirty
  have bornReady : Ready graph inputs born := by
    refine ⟨⟨ready.consistent.edges, fun id isClean source member => ?_, fun id isIdle => ?_,
      fun id notDirty => ?_, fun index isLater => ?_⟩, ready.inputs, ready.readings, ready.runs⟩
    · rw [others id (isBorn id (by rw [isClean]; decide))] at isClean
      exact (others (.node source) (fun equal => by cases equal)).trans
        (ready.consistent.closed id isClean source member)
    · have different : id ≠ .effect world.created := by
        rintro rfl
        rw [Runs, isLive] at isIdle
        exact isIdle rfl
      have wasIdle : ¬ Runs graph world.toAgenda id := by
        cases id with
        | node index => exact isIdle
        | effect index =>
            rw [Runs, otherLive index fun same => different (congrArg Id.effect same)] at isIdle
            exact isIdle
      obtain ⟨isClean, noSources⟩ := ready.consistent.idle id wasIdle
      exact ⟨(others id different).trans isClean, noSources⟩
    · have different := isBorn id notDirty
      refine (ready.consistent.upToDate id (others id different ▸ notDirty)).congr rfl
        (fun _ _ => rfl) (fun _ _ => rfl) fun index isEffect => ⟨otherLive index ?_, rfl⟩
      rintro rfl
      exact different isEffect
    · have later : world.created + 1 ≤ index := isLater
      obtain ⟨laterNone, laterLive⟩ := ready.consistent.uncreated index (by omega)
      refine ⟨?_, laterLive⟩
      exact (Function.update_of_ne (by omega) _ _).trans laterNone
  have waits : ∀ index, born.state (.effect index) ≠ .clean → index ≠ world.created →
      index ∈ world.pendingEffects := by
    intro index isStale different
    refine settled.waiting index ?_
    rw [others _ fun same => different (Id.effect.inj same)] at isStale
    exact isStale
  rw [createEffect]
  simp only
  split
  next isOpen =>
    refine ⟨_, rfl, bornReady.requeue _ world.batchDepth, fun index isStale => ?_,
      settled.outside, fun isZero => absurd isZero isOpen.ne'⟩
    rcases eq_or_ne index world.created with rfl | different
    · exact List.mem_append_right _ List.mem_cons_self
    · exact List.mem_append_left _ (waits index isStale different)
  next isClosed =>
    obtain ⟨after, isPull, afterReady, pulled, isClean⟩ := pullEffect_spec isLive bornReady
    have samePending : after.pendingEffects = born.pendingEffects :=
      congrArg Agenda.pendingEffects pulled.agenda
    have sameDepth : after.batchDepth = born.batchDepth :=
      congrArg Agenda.batchDepth pulled.agenda
    refine ⟨after, isPull, afterReady, fun index isStale => ?_,
      (congrArg Context.currentReaction pulled.context).trans settled.outside, ?_⟩
    · rw [samePending]
      refine waits index (fun wasClean => isStale (pulled.clean _ wasClean).1) ?_
      rintro rfl
      exact isStale isClean
    · rw [samePending, sameDepth]
      exact settled.unbatched

theorem dispose_spec (settled : Settled graph inputs world) {index : Nat}
    (isCreated : index < world.created) :
    ∃ after, dispose graph index world = some after ∧ Settled graph inputs after := by
  obtain ⟨cleaned, isCleaned, ready, pulled⟩ :=
    runCleanups_spec (pullNode_spec inputs) index settled.ready
  let disposed : World Value :=
    { (cleaned.detach (.effect index)).setState (.effect index) .clean with
      disposed := Function.update cleaned.disposed index true }
  have isDispose : dispose graph index world = some disposed := by
    simp [dispose, isCleaned, disposed]
  have isClean : disposed.state (.effect index) = .clean := Function.update_self ..
  have noSources : disposed.sources (.effect index) = [] := Function.update_self ..
  have others : ∀ id, id ≠ .effect index → disposed.state id = cleaned.state id ∧
      disposed.sources id = cleaned.sources id :=
    fun id different => ⟨Function.update_of_ne different _ _, Function.update_of_ne different _ _⟩
  have otherLive : ∀ other, other ≠ index → disposed.live other = cleaned.live other := by
    intro other different
    rw [Agenda.live, Agenda.live]
    change (if Function.update cleaned.disposed index true other then none
      else cleaned.effectFn other) = _
    rw [Function.update_of_ne different]
  have notLive : disposed.live index = none := by
    rw [Agenda.live]
    change (if Function.update cleaned.disposed index true index then none
      else cleaned.effectFn index) = _
    rw [Function.update_self]
    rfl
  have created : cleaned.created = world.created := congrArg Agenda.created pulled.agenda
  have disposedReady : Ready graph inputs disposed := by
    refine ⟨⟨edges_detach ready.consistent.edges (.effect index), fun id wasClean source member => ?_,
      fun id isIdle => ?_, fun id notDirty => ?_, fun other isLater => ?_⟩, ready.inputs,
      ready.readings, ready.runs⟩
    · rcases eq_or_ne id (.effect index) with rfl | different
      · rw [noSources] at member
        cases member
      · obtain ⟨sameState, sameSources⟩ := others id different
        exact (others (.node source) (fun equal => by cases equal)).1.trans
          (ready.consistent.closed id (sameState ▸ wasClean) source (sameSources ▸ member))
    · rcases eq_or_ne id (.effect index) with rfl | different
      · exact ⟨isClean, noSources⟩
      · obtain ⟨sameState, sameSources⟩ := others id different
        have wasIdle : ¬ Runs graph cleaned.toAgenda id := by
          cases id with
          | node node => exact isIdle
          | effect other =>
              rw [Runs, otherLive other fun same => different (congrArg Id.effect same)] at isIdle
              exact isIdle
        rw [sameState, sameSources]
        exact ready.consistent.idle id wasIdle
    · rcases eq_or_ne id (.effect index) with rfl | different
      · intro fn isLive
        rw [notLive] at isLive
        cases isLive
      · obtain ⟨sameState, sameSources⟩ := others id different
        refine (ready.consistent.upToDate id (sameState ▸ notDirty)).congr sameSources
          (fun _ _ => rfl) (fun _ _ => rfl) fun other isOther => ⟨otherLive other ?_, rfl⟩
        rintro rfl
        exact different isOther
    · have later : cleaned.created ≤ other := isLater
      obtain ⟨isNone, notDisposed⟩ := ready.consistent.uncreated other later
      exact ⟨isNone, (Function.update_of_ne (by omega) _ _).trans notDisposed⟩
  have samePending : cleaned.pendingEffects = world.pendingEffects :=
    congrArg Agenda.pendingEffects pulled.agenda
  have sameDepth : cleaned.batchDepth = world.batchDepth :=
    congrArg Agenda.batchDepth pulled.agenda
  refine ⟨disposed, isDispose, disposedReady, fun other isStale => ?_,
    (congrArg Context.currentReaction pulled.context).trans settled.outside, ?_⟩
  · change other ∈ cleaned.pendingEffects
    rw [samePending]
    have different : Id.effect other ≠ .effect index := fun same => isStale (same ▸ isClean)
    rw [(others _ different).1] at isStale
    exact settled.waiting other fun wasClean => isStale (pulled.clean _ wasClean).1
  · change cleaned.batchDepth = 0 → cleaned.pendingEffects = []
    rw [samePending, sameDepth]
    exact settled.unbatched

theorem read_spec (settled : Settled graph inputs world) (source : Nat) :
    ∃ after, get graph (pullNode graph) source world = some (graph.eval inputs source, after) ∧
      Settled graph inputs after := by
  have untracked : world.tracker = none := by
    rw [Context.tracker, settled.outside, ite_self]
  obtain ⟨after, isGet, afterReady, pulled, -⟩ :=
    get_spec (pullNode_spec inputs) settled.ready (depth_lt_everything source) (Nat.le_refl _)
      (by simp [untracked])
  rw [untracked] at pulled
  have samePending : after.pendingEffects = world.pendingEffects :=
    congrArg Agenda.pendingEffects pulled.agenda
  have sameDepth : after.batchDepth = world.batchDepth := congrArg Agenda.batchDepth pulled.agenda
  refine ⟨after, isGet, afterReady, fun index isStale => ?_,
    (congrArg Context.currentReaction pulled.context).trans settled.outside, ?_⟩
  · rw [samePending]
    exact settled.waiting index fun wasClean => isStale (pulled.clean _ wasClean).1
  · rw [samePending, sameDepth]
    exact settled.unbatched

theorem step_spec (settled : Settled graph inputs world) (op : Op Value) :
    ∃ outcome after, step graph op world = some (outcome, after) ∧
      Settled graph (written graph inputs op) after := by
  cases op with
  | set signal next => exact set_spec settled signal next
  | openBatch =>
      exact ⟨_, _, rfl, settled.ready.requeue world.pendingEffects (world.batchDepth + 1),
        settled.waiting, settled.outside, fun isZero => absurd isZero (Nat.succ_ne_zero _)⟩
  | closeBatch =>
      rw [step]
      split
      next => exact ⟨_, world, rfl, settled⟩
      next =>
        let closed : World Value := { world with batchDepth := world.batchDepth - 1 }
        have closedReady : Ready graph inputs closed :=
          settled.ready.requeue world.pendingEffects (world.batchDepth - 1)
        obtain ⟨after, isFlush, afterSettled⟩ :=
          flush_spec closedReady settled.waiting settled.outside
        exact ⟨.done, after, by rw [isFlush]; rfl, afterSettled⟩
  | read source =>
      obtain ⟨after, isGet, afterSettled⟩ := read_spec settled source
      exact ⟨_, after, by rw [step, isGet]; rfl, afterSettled⟩
  | effect fn =>
      obtain ⟨after, isCreated, afterSettled⟩ := createEffect_spec settled fn
      exact ⟨.done, after, by rw [step, isCreated]; rfl, afterSettled⟩
  | dispose index =>
      rw [step]
      split
      next isCreated =>
        obtain ⟨after, isDisposed, afterSettled⟩ := dispose_spec settled isCreated
        exact ⟨.done, after, by rw [isDisposed]; rfl, afterSettled⟩
      next => exact ⟨_, world, rfl, settled⟩

theorem run_spec (ops : List (Op Value)) (settled : Settled graph inputs world) :
    ∃ after, run graph ops world = some after ∧ Settled graph (current graph inputs ops) after := by
  induction ops generalizing inputs world with
  | nil => exact ⟨world, rfl, settled⟩
  | cons op rest induction =>
      obtain ⟨outcome, middle, isStep, middleSettled⟩ := step_spec settled op
      obtain ⟨after, isRun, afterSettled⟩ := induction middleSettled
      refine ⟨after, ?_, afterSettled⟩
      rw [run, isStep]
      exact isRun

/-- No sequence of operations outside reactions gets stuck. Whatever it is, a read returns the
value of an evaluation from scratch over the current signals; so did every read that a computed,
an effect or a cleanup made on the way, over the signals at that moment; every run of an effect
observed one such evaluation; and outside a batch the last run of every live effect observed
that of the current signals. -/
theorem glitch_free (graph : DemandGraph Value) (initial : Nat → Value) (ops : List (Op Value)) :
    ∃ world, run graph ops (World.start graph initial) = some world ∧
      (∀ signal, graph.fn signal = none → world.value signal = current graph initial ops signal) ∧
      (∀ source, ∃ after, step graph (.read source) world =
        some (.returned (graph.eval (current graph initial ops) source), after)) ∧
      (∀ reading ∈ world.readings,
        reading.result = graph.eval reading.values reading.source) ∧
      (∀ run ∈ world.runs, run.reads = run.fn.reads (graph.eval run.values)) ∧
      (world.batchDepth = 0 → ∀ index fn, world.live index = some fn →
        ∃ last, lastRun world.runs index = some last ∧ last.fn = fn ∧
          last.reads = fn.reads (graph.eval (current graph initial ops))) := by
  obtain ⟨world, isRun, settled⟩ := run_spec ops (start_settled graph initial)
  refine ⟨world, isRun, settled.ready.inputs, fun source => ?_, settled.ready.readings,
    settled.ready.runs, fun isClosed index fn isLive => settled.lastRun_reads isClosed isLive⟩
  obtain ⟨after, isGet, -⟩ := read_spec settled source
  exact ⟨after, by rw [step, isGet]; rfl⟩

/-- The diamond: `d` depends on `a` through `b` and through `c`. -/
def diamondFn : Nat → Option (ReadTree Nat Nat)
  | 1 => some (.read 0 fun a => .ret (a + 1))
  | 2 => some (.read 0 fun a => .ret (a + 1))
  | 3 => some (.read 1 fun b => .read 2 fun c => .ret (b + c))
  | _ => none

def diamond : DemandGraph Nat :=
  DemandGraph.ofRank diamondFn 4
    (by
      intro node outside
      match node with
      | node + 4 => rfl)
    id
    (by
      intro node tree isFn env source member
      match node with
      | 1 | 2 | 3 =>
          cases isFn
          simp [ReadTree.sources] at member
          grind)

-- One write makes one run of the effect, over two new values.
example :
    (run diamond [.effect (.read 3 fun _ => .ret none), .set 0 5]
      (World.start diamond fun _ => 0)).map (·.runs.map (·.reads)) =
      some [[(3, 2)], [(3, 12)]] := by decide +kernel

end FoundationsLab.Signals
