import FoundationsLab.Promises.Relay

/-! # What `finally` returns

The microtasks of the three handlers come one after the other. What the last one passes on is the
outcome of the promise on which `finally` was called, or the reason of a failure on the way. -/

namespace FoundationsLab.Promises

variable {User : Type}

/-! ## The microtasks -/

section Microtasks

variable {s : FinallyState User} {job : Job (Code (FinallyCode User))}
  {queue : List (Job (Code (FinallyCode User)))}

/-- The heap when a microtask has been taken from the queue. -/
def FinallyState.taken (s : FinallyState User) (job : Job (Code (FinallyCode User)))
    (queue : List (Job (Code (FinallyCode User)))) : State (Code (FinallyCode User)) :=
  { s.heap with queue := queue }.note (.ran job)

theorem taken_registrations (s : FinallyState User) (job : Job (Code (FinallyCode User)))
    (queue : List (Job (Code (FinallyCode User)))) :
    registrations (s.taken job queue).log = registrations s.heap.log :=
  registrations_ran s.heap.log job

theorem mem_of_head (isQueue : s.heap.queue = job :: queue) :
    job ∈ jobsRun s.heap.log ++ s.heap.queue := by
  rw [isQueue]
  exact List.mem_append_right _ List.mem_cons_self

theorem Chained.taken (chained : Chained s) (isQueue : s.heap.queue = job :: queue)
    {heap : State (Code (FinallyCode User))} (evolves : Evolves (s.taken job queue) heap)
    (isExtended : Extends (s.taken job queue) heap)
    (sameRegistrations : registrations heap.log = registrations s.heap.log) :
    Chained { s with heap := heap } := by
  apply chained.of_heap (evolves.orderly (orderly_dequeue isQueue chained.orderly))
    (isExtended.plain chained.plain)
  · rw [sameRegistrations]
    exact fun registration member => Or.inl member
  · rw [sameRegistrations]
    exact fun registration member => member

/-- No handler runs twice. -/
theorem Chained.not_yet (chained : Chained s) (isQueue : s.heap.queue = job :: queue) :
    s.ran job.handler.next = none := by
  rw [FinallyState.ran, List.find?_eq_none]
  intro other isRun isNext
  have nodup := chained.orderly.jobs_once
  rw [isQueue, List.map_append, List.map_cons, List.nodup_append] at nodup
  exact nodup.2.2 _ (List.mem_map_of_mem isRun) _ List.mem_cons_self (of_decide_eq_true isNext)

theorem ran_one {heap : State (Code (FinallyCode User))}
    (evolves : Evolves (s.taken job queue) heap) (next : Nat) : { s with heap := heap }.ran next =
      (s.ran next).or (if job.handler.next = next then some job else none) := by
  have ranHere : jobsRun heap.log = jobsRun s.heap.log ++ [job] :=
    evolves.sameRun.trans (jobsRun_ran s.heap.log job)
  rw [FinallyState.ran, ranHere, List.find?_append, List.find?_singleton, FinallyState.ran]
  by_cases isNext : job.handler.next = next
  · rw [if_pos (decide_eq_true isNext), if_pos isNext]
  · rw [if_neg (Bool.eq_false_iff.mp (decide_eq_false isNext)), if_neg isNext]

theorem ran_self (chained : Chained s) (isQueue : s.heap.queue = job :: queue)
    {heap : State (Code (FinallyCode User))} (evolves : Evolves (s.taken job queue) heap) :
    { s with heap := heap }.ran job.handler.next = some job := by
  rw [ran_one evolves, chained.not_yet isQueue, if_pos rfl]
  rfl

theorem ran_other {heap : State (Code (FinallyCode User))}
    (evolves : Evolves (s.taken job queue) heap) {next : Nat} (different : job.handler.next ≠ next) :
    { s with heap := heap }.ran next = s.ran next := by
  rw [ran_one evolves, if_neg different, Option.or_none]

/-- A handler of the program is left to it. -/
theorem runJob_foreign (isForeign : Foreign job.handler) :
    { s with heap := { s.heap with queue := queue } }.runJob job =
      { s with heap := s.taken job queue } := by
  have notCallback : ∀ f, job.callback = some f → isCallback f = false := by
    intro f isThis
    rw [Job.callback] at isThis
    split at isThis
    · exact isForeign f (Or.inl isThis)
    · exact isForeign f (Or.inr isThis)
  have notRestoring : FinallyState.isRestoring job.handler = false := by
    rw [FinallyState.isRestoring]
    split
    next isThis => cases isForeign _ (Or.inl isThis)
    next isThis => cases isForeign _ (Or.inl isThis)
    next => rfl
  rw [FinallyState.runJob]
  dsimp only
  split
  next isThis => cases notCallback _ isThis
  next isThis => cases notCallback _ isThis
  next isThis => cases notCallback _ isThis
  next isThis => cases notCallback _ isThis
  next g isThis => cases notCallback _ isThis
  next g isThis => cases notCallback _ isThis
  next => exact if_neg (Bool.eq_false_iff.mp notRestoring)
  next => rfl

theorem Relayed.ran_foreign (relayed : Relayed s) (isQueue : s.heap.queue = job :: queue)
    (isForeign : Foreign job.handler) :
    Relayed ({ s with heap := { s.heap with queue := queue } }.runJob job) := by
  have chained := relayed.chained
  have evolves := Evolves.refl (s.taken job queue)
  rw [runJob_foreign isForeign]
  constructor
  · exact chained.taken isQueue evolves (Extends.refl _) (taken_registrations s job queue)
  · have sameGuards : (s.taken job queue).guards = s.heap.guards := rfl
    have sameView : ∀ p, s.owns p = true → (s.taken job queue).view p = s.heap.view p :=
      fun _ _ => rfl
    apply relayed.told.of_ran sameGuards ?_ sameView
    intro registration member
    apply ran_other evolves
    intro sameNext
    have isRegistered := chained.orderly.registered (mem_of_head isQueue)
    have same := chained.same_of_next isRegistered (chained.present registration member) sameNext
    apply not_foreign_own member
    rw [← same]
    exact isForeign

/-- `onFinally` is called. -/
theorem Relayed.runs_first (relayed : Relayed s) (isQueue : s.heap.queue = job :: queue)
    (started : s.stage ≠ .before) (isFirst : job.registration = s.first) :
    { s with heap := { s.heap with queue := queue } }.runJob job =
      { s with
        heap := s.taken job queue
        stage := .inside
        calls := s.calls + 1
        state := job.state
        value := job.value } ∧ s.stage = .called ∧ job.handler.next = s.result := by
  have chained := relayed.chained
  have isHandler : job.handler = s.first.2 := congrArg Prod.snd isFirst
  have isNext : job.handler.next = s.result := by
    rw [isHandler]
    rfl
  refine ⟨?_, ?_, isNext⟩
  · obtain ⟨promise, -, settled, sameState, -⟩ :=
      chained.orderly.carried job (mem_of_head isQueue)
    cases isState : job.state with
    | pending => exact absurd (sameState.symm.trans isState) settled
    | fulfilled =>
        have isThis : job.callback = some (FinallyState.callback .onValue) := by
          rw [Job.callback, if_pos isState, isHandler]
          rfl
        rw [FinallyState.runJob, isThis, isState]
        rfl
    | rejected =>
        have isThis : job.callback = some (FinallyState.callback .onReason) := by
          rw [Job.callback, isState, if_neg Status.noConfusion, isHandler]
          rfl
        rw [FinallyState.runJob, isThis, isState]
        rfl
  · by_contra notCalled
    obtain ⟨other, isRan, -⟩ := relayed.told.begun started notCalled
    have notYet := chained.not_yet isQueue
    rw [isNext, isRan] at notYet
    cases notYet

theorem Relayed.ran_first (relayed : Relayed s) (isQueue : s.heap.queue = job :: queue)
    (started : s.stage ≠ .before) (isFirst : job.registration = s.first) :
    Relayed ({ s with heap := { s.heap with queue := queue } }.runJob job) := by
  have chained := relayed.chained
  have told := relayed.told
  have evolves := Evolves.refl (s.taken job queue)
  obtain ⟨isRun, isCalled, isNext⟩ := relayed.runs_first isQueue started isFirst
  have taken := chained.taken isQueue evolves (Extends.refl _) (taken_registrations s job queue)
  have isOwn : s.own = [s.first] := by
    rw [FinallyState.own, isCalled]
  have noGuard := told.guards
  rw [isCalled, if_neg Stage.noConfusion] at noGuard
  have isSeen := told.shown started
  rw [FinallyState.resultView, isCalled] at isSeen
  have isRan := ran_self chained isQueue evolves
  rw [isNext, FinallyState.ran] at isRan
  rw [isRun]
  constructor
  · constructor
    · exact taken.orderly
    · exact taken.plain
    · have own : ∀ registration ∈ registrations (s.taken job queue).log,
          registration ∈ s.own ∨ Foreign registration.2 := taken.own
      rw [isOwn] at own
      exact own
    · have present : ∀ registration ∈ s.own,
          registration ∈ registrations (s.taken job queue).log := taken.present
      rw [isOwn] at present
      exact present
    · exact chained.guardZero
    · have none := chained.once
      rw [if_pos (Or.inr isCalled)] at none
      show s.calls + 1 = 1
      rw [none]
    · intro waiting
      cases waiting
  · constructor
    · exact noGuard
    · intro isCalled
      cases isCalled
    · intro _ _
      exact ⟨job, isRan, rfl, rfl⟩
    · intro _
      exact isSeen
    · intro waiting
      cases waiting

/-- The promise of `onFinally()` has settled: the callback gives the value back or throws the
reason again, or a rejection is passed on. -/
theorem Relayed.runs_second (relayed : Relayed s) (isQueue : s.heap.queue = job :: queue)
    (waiting : s.stage = .waiting) (isSecond : job.registration = s.second) :
    ∃ state value heap, state ≠ .pending ∧
      (if job.state = .fulfilled then (s.state, s.value, false) else (.rejected, job.value, false)) =
        (state, value, false) ∧
      { s with heap := { s.heap with queue := queue } }.runJob job = { s with heap := heap } ∧
      Evolves (s.taken job queue) heap ∧ Extends (s.taken job queue) heap ∧
      registrations heap.log = registrations s.heap.log ∧ heap.guards = s.heap.guards ∧
      ∀ q, heap.view q = ((s.taken job queue).settle s.restored state value).view q := by
  have started : s.stage ≠ .before := by
    rw [waiting]
    exact Stage.noConfusion
  have notCalled : s.stage ≠ .called := by
    rw [waiting]
    exact Stage.noConfusion
  have isHandler : job.handler = s.second.2 := congrArg Prod.snd isSecond
  have isNext : job.handler.next = s.restored := by
    rw [isHandler]
    rfl
  obtain ⟨promise, -, settled, sameState, -⟩ :=
    relayed.chained.orderly.carried job (mem_of_head isQueue)
  obtain ⟨notPending, isPlain, -⟩ := relayed.closure started notCalled
  have rejects : ∀ reason, { s with heap := { s.heap with queue := queue } }.runJob job =
      { s with heap := (s.taken job queue).callReject job.handler.next reason } →
      ∃ heap, { s with heap := { s.heap with queue := queue } }.runJob job =
        { s with heap := heap } ∧
      Evolves (s.taken job queue) heap ∧ Extends (s.taken job queue) heap ∧
      registrations heap.log = registrations s.heap.log ∧ heap.guards = s.heap.guards ∧
      ∀ q, heap.view q = ((s.taken job queue).settle s.restored .rejected reason).view q := by
    intro reason isRun
    refine ⟨_, isRun, evolves_callReject _ _ _, extends_callReject _ _ _, ?_, ?_, ?_⟩
    · rw [registrations_callReject]
      exact taken_registrations s job queue
    · exact callReject_guards (s.taken job queue) job.handler.next reason
    · intro q
      rw [isNext]
      exact view_callReject reason
  cases isState : job.state with
  | pending => exact absurd (sameState.symm.trans isState) settled
  | rejected =>
      have isThis : job.callback = none := by
        rw [Job.callback, isState, if_neg Status.noConfusion, isHandler]
        rfl
      have isRestoring : FinallyState.isRestoring job.handler = true := by
        rw [isHandler]
        show FinallyState.isRestoring ⟨some (FinallyState.callback s.restoring), _, _⟩ = true
        rw [FinallyState.restoring]
        split
        · rfl
        · rfl
      have isRun : { s with heap := { s.heap with queue := queue } }.runJob job =
          { s with heap := (s.taken job queue).callReject job.handler.next job.value } := by
        rw [FinallyState.runJob, isThis]
        exact if_pos isRestoring
      obtain ⟨heap, others⟩ := rejects job.value isRun
      exact ⟨.rejected, job.value, heap, Status.noConfusion, if_neg Status.noConfusion, others⟩
  | fulfilled =>
      have isThis : job.callback = some (FinallyState.callback s.restoring) := by
        rw [Job.callback, if_pos isState, isHandler]
        rfl
      rw [if_pos rfl]
      by_cases isOutcome : s.state = .fulfilled
      · have isRun : { s with heap := { s.heap with queue := queue } }.runJob job =
            { s with heap := (s.taken job queue).resolveAgain job.handler.next s.value } := by
          rw [FinallyState.restoring, if_pos isOutcome] at isThis
          rw [FinallyState.runJob, isThis]
          rfl
        refine ⟨.fulfilled, s.value, _, Status.noConfusion, by rw [isOutcome], isRun,
          evolves_resolveAgain _ _ _, extends_resolveAgain _ _ (isPlain isOutcome), ?_, ?_, ?_⟩
        · rw [registrations_resolveAgain (isPlain isOutcome)]
          exact taken_registrations s job queue
        · exact resolveAgain_guards (s.taken job queue) job.handler.next s.value
        · intro q
          rw [isNext]
          exact view_resolveAgain (isPlain isOutcome) q
      · have isRejected : s.state = .rejected := by
          cases isStatus : s.state with
          | pending => exact absurd isStatus notPending
          | fulfilled => exact absurd isStatus isOutcome
          | rejected => rfl
        have isRun : { s with heap := { s.heap with queue := queue } }.runJob job =
            { s with heap := (s.taken job queue).callReject job.handler.next s.value } := by
          rw [FinallyState.restoring, if_neg isOutcome] at isThis
          rw [FinallyState.runJob, isThis]
          rfl
        obtain ⟨heap, others⟩ := rejects s.value isRun
        exact ⟨.rejected, s.value, heap, Status.noConfusion, by rw [isRejected], others⟩

theorem Relayed.ran_second (relayed : Relayed s) (isQueue : s.heap.queue = job :: queue)
    (waiting : s.stage = .waiting) (isSecond : job.registration = s.second) :
    ∃ heap, { s with heap := { s.heap with queue := queue } }.runJob job = { s with heap := heap } ∧
      Evolves (s.taken job queue) heap ∧ Relayed { s with heap := heap } := by
  have chained := relayed.chained
  have told := relayed.told
  have isNext : job.handler.next = s.restored := congrArg (fun pair => pair.2.next) isSecond
  have older := chained.older waiting
  obtain ⟨state, value, heap, settled, isShown, isRun, evolves, isExtended, sameRegistrations,
    sameGuards, isView⟩ := relayed.runs_second isQueue waiting isSecond
  have sameFirst : { s with heap := heap }.ran s.result = s.ran s.result :=
    ran_other evolves (by omega)
  have sameThird : { s with heap := heap }.ran (s.restored + 1) = s.ran (s.restored + 1) :=
    ran_other evolves (by omega)
  have isRan := ran_self chained isQueue evolves
  have notYet := chained.not_yet isQueue
  rw [isNext] at isRan notYet
  refine ⟨heap, isRun, evolves, ?_⟩
  constructor
  · exact chained.taken isQueue evolves isExtended sameRegistrations
  · constructor
    · rw [sameThird, sameGuards]
      exact told.guards
    · intro isCalled
      cases waiting.symm.trans isCalled
    · intro started notCalled
      obtain ⟨other, isOther, isOutcome⟩ := told.begun started notCalled
      exact ⟨other, sameFirst.trans isOther, isOutcome⟩
    · intro started
      have sameResult : { s with heap := heap }.resultView = s.resultView := by
        rw [FinallyState.resultView, FinallyState.resultView, sameThird]
      have different : s.restored ≠ s.result := by omega
      rw [sameResult]
      exact ((isView s.result).trans (view_settle_ne different)).trans (told.shown started)
    · intro _
      have isSeen := told.restored waiting
      rw [FinallyState.restoredView, notYet] at isSeen
      rw [FinallyState.restoredView, isRan]
      show heap.view s.restored = some (if job.state = .fulfilled then (s.state, s.value, false)
        else (.rejected, job.value, false))
      rw [isShown, isView]
      exact view_settle_pending (s := s.taken job queue) isSeen

/-- The promise of the call takes the outcome of the one that the callback has returned. -/
theorem Relayed.runs_third (relayed : Relayed s) (isQueue : s.heap.queue = job :: queue)
    (waiting : s.stage = .waiting) (isThird : job.registration = s.third) :
    ∃ heap, { s with heap := { s.heap with queue := queue } }.runJob job = { s with heap := heap } ∧
      Evolves (s.taken job queue) heap ∧ Extends (s.taken job queue) heap ∧
      registrations heap.log = registrations s.heap.log ∧
      heap.guards = [⟨s.result, .promise s.restored, true, true⟩] ∧
      ∀ q, s.restored + 1 ≠ q →
        heap.view q = ((s.taken job queue).settle s.result job.state job.value).view q := by
  have chained := relayed.chained
  have isHandler : job.handler = s.third.2 := congrArg Prod.snd isThird
  have isNext : job.handler.next = s.restored + 1 := by
    rw [isHandler]
    rfl
  have notYet := chained.not_yet isQueue
  rw [isNext] at notYet
  have guards := relayed.told.guards
  rw [if_pos waiting, notYet] at guards
  have guardZero := chained.guardZero
  have isGuard : (s.taken job queue).guards[s.guard]? =
      some ⟨s.result, .promise s.restored, true, false⟩ := by
    show s.heap.guards[s.guard]? = _
    rw [guards, guardZero]
    rfl
  have marked : ((s.taken job queue).markCalled s.guard).guards =
      [⟨s.result, .promise s.restored, true, true⟩] := by
    show s.heap.guards.modify s.guard _ = _
    rw [guards, guardZero]
    rfl
  obtain ⟨promise, isPromise, settled, sameState, sameValue⟩ :=
    chained.orderly.carried job (mem_of_head isQueue)
  have taken := taken_registrations s job queue
  -- What is left is to resolve the promise that `then` has made, which nobody waits for.
  have finishes : ∀ adopted : State (Code (FinallyCode User)),
      { s with heap := { s.heap with queue := queue } }.runJob job =
        { s with heap := adopted.callResolve job.handler.next .undefined } →
      Evolves (s.taken job queue) adopted →
      (∃ noted : State (Code (FinallyCode User)), noted.promises = (s.taken job queue).promises ∧
        noted.queue = (s.taken job queue).queue ∧
        registrations noted.log = registrations (s.taken job queue).log ∧
        noted.guards = ((s.taken job queue).markCalled s.guard).guards ∧
        adopted = (noted.settle s.result job.state job.value).completeWith .done) →
      (job.state = .fulfilled → job.value.isPlain = true) →
      ∃ heap, { s with heap := { s.heap with queue := queue } }.runJob job =
        { s with heap := heap } ∧
      Evolves (s.taken job queue) heap ∧ Extends (s.taken job queue) heap ∧
      registrations heap.log = registrations s.heap.log ∧
      heap.guards = [⟨s.result, .promise s.restored, true, true⟩] ∧
      ∀ q, s.restored + 1 ≠ q →
        heap.view q = ((s.taken job queue).settle s.result job.state job.value).view q := by
    intro adopted isRun evolves isSettled isPlain
    obtain ⟨noted, samePromises, sameQueue, sameRegistrations, sameGuards, isAdopted⟩ := isSettled
    have before : Extends (s.taken job queue) noted := Extends.of_same samePromises sameQueue
    have settles := extends_settle noted s.result job.state job.value isPlain
    have isExtended : Extends (s.taken job queue) adopted := by
      rw [isAdopted]
      exact (before.trans settles).trans (Extends.of_same rfl rfl)
    refine ⟨_, isRun, evolves.trans (evolves_callResolve _ _ _),
      isExtended.trans (extends_callResolve _ _ rfl), ?_, ?_, ?_⟩
    · rw [registrations_callResolve, isAdopted]
      show registrations (State.settle noted _ _ _).log = _
      rw [settle_log]
      exact sameRegistrations.trans taken
    · rw [callResolve_guards, isAdopted]
      show (State.settle noted _ _ _).guards = _
      rw [settle_guards, sameGuards, marked]
    · intro q different
      rw [isNext, view_callResolve rfl different, isAdopted]
      apply view_of_same
      exact settle_promises samePromises
  cases isState : job.state with
  | pending => exact absurd (sameState.symm.trans isState) settled
  | fulfilled =>
      have isPlain : job.value.isPlain = true := by
        rw [sameValue]
        exact chained.plain promise (List.mem_of_getElem? isPromise) (sameState.symm.trans isState)
      have isThis : job.callback = some (.adopt s.guard) := by
        rw [Job.callback, if_pos isState, isHandler]
        rfl
      rw [← isState]
      apply finishes ((s.taken job queue).adoptAgain s.guard job.value)
      · rw [FinallyState.runJob, isThis]
        rfl
      · exact evolves_adoptAgain _ _ _
      · obtain ⟨noted, samePromises, sameQueue, sameRegistrations, sameGuards, isAdopted⟩ :=
          adoptAgain_open isGuard isPlain
        rw [isState]
        exact ⟨noted, samePromises, sameQueue, sameRegistrations, sameGuards, isAdopted⟩
      · exact fun _ => isPlain
  | rejected =>
      have isThis : job.callback = some (.refuse s.guard) := by
        rw [Job.callback, isState, if_neg Status.noConfusion, isHandler]
        rfl
      rw [← isState]
      apply finishes ((s.taken job queue).callRefuse s.guard job.value)
      · rw [FinallyState.runJob, isThis]
        rfl
      · exact evolves_callRefuse _ _ _
      · rw [isState]
        refine ⟨((s.taken job queue).markCalled s.guard).note (.refused s.guard job.value), rfl, rfl,
          ?_, rfl, callRefuse_open isGuard⟩
        exact registrations_note (s.taken job queue).log rfl
      · intro isFulfilled
        cases isState.symm.trans isFulfilled

theorem Relayed.ran_third (relayed : Relayed s) (isQueue : s.heap.queue = job :: queue)
    (waiting : s.stage = .waiting) (isThird : job.registration = s.third) :
    ∃ heap, { s with heap := { s.heap with queue := queue } }.runJob job = { s with heap := heap } ∧
      Evolves (s.taken job queue) heap ∧ Relayed { s with heap := heap } := by
  have chained := relayed.chained
  have told := relayed.told
  have isNext : job.handler.next = s.restored + 1 := congrArg (fun pair => pair.2.next) isThird
  have older := chained.older waiting
  obtain ⟨heap, isRun, evolves, isExtended, sameRegistrations, guards, isView⟩ :=
    relayed.runs_third isQueue waiting isThird
  have sameFirst : { s with heap := heap }.ran s.result = s.ran s.result :=
    ran_other evolves (by omega)
  have sameSecond : { s with heap := heap }.ran s.restored = s.ran s.restored :=
    ran_other evolves (by omega)
  have isRan := ran_self chained isQueue evolves
  have notYet := chained.not_yet isQueue
  rw [isNext] at isRan notYet
  refine ⟨heap, isRun, evolves, ?_⟩
  constructor
  · exact chained.taken isQueue evolves isExtended sameRegistrations
  · constructor
    · rw [if_pos waiting, isRan]
      exact guards
    · intro isCalled
      cases waiting.symm.trans isCalled
    · intro started notCalled
      obtain ⟨other, isOther, isOutcome⟩ := told.begun started notCalled
      exact ⟨other, sameFirst.trans isOther, isOutcome⟩
    · intro started
      have isSeen := told.shown started
      rw [FinallyState.resultView, waiting, notYet] at isSeen
      have isShown : { s with heap := heap }.resultView = (job.state, job.value, false) := by
        rw [FinallyState.resultView, isRan]
        dsimp only
        rw [waiting]
      rw [isShown]
      exact (isView s.result (by omega)).trans (view_settle_pending (s := s.taken job queue) isSeen)
    · intro _
      have sameRestored : { s with heap := heap }.restoredView = s.restoredView := by
        rw [FinallyState.restoredView, FinallyState.restoredView, sameSecond]
      have different : s.result ≠ s.restored := by omega
      rw [sameRestored]
      exact ((isView s.restored (by omega)).trans (view_settle_ne different)).trans
        (told.restored waiting)

end Microtasks

/-! ## Runs -/

/-- The promise that is waited for is that of what `onFinally` has returned. -/
def Stands (s : FinallyState User) : Prop :=
  s.stage = .waiting → s.shared.StandsFor s.given s.awaited

section Runs

variable {s next later : FinallyState User}

theorem relayed_initial : Relayed (FinallyState.initial : FinallyState User) := by
  constructor
  · constructor
    · exact orderly_initial
    · intro promise member
      cases member
    · intro registration member
      cases member
    · intro registration member
      cases member
    · rfl
    · rfl
    · intro waiting
      cases waiting
  · constructor
    · rfl
    · intro isCalled
      cases isCalled
    · exact fun started => absurd rfl started
    · exact fun started => absurd rfl started
    · intro waiting
      cases waiting

theorem stands_of_heap (stands : Stands s) {heap : State (Code (FinallyCode User))}
    (kept : Kept s.heap.promises heap.promises) : Stands { s with heap := heap } := by
  intro waiting
  exact AllState.StandsFor.kept kept (stands waiting)

theorem stands_giveBack (s : FinallyState User) (item : Value (Code (FinallyCode User))) :
    Stands (s.giveBack item) := by
  intro _
  have stands := standsFor_promiseFor s.shared item
  have called := evolves_callThen (s.heap.promiseFor item).1 (.promise (s.heap.promiseFor item).2)
    (.function (FinallyState.callback s.restoring)) .undefined
  have followed := evolves_follow ((s.heap.promiseFor item).1.callThen
    (.promise (s.heap.promiseFor item).2) (.function (FinallyState.callback s.restoring))
    .undefined) s.result (s.heap.promiseFor item).1.promises.length
  exact AllState.StandsFor.kept (called.trans followed).kept stands

theorem kept_taken {job : Job (Code (FinallyCode User))}
    {queue : List (Job (Code (FinallyCode User)))} {heap : State (Code (FinallyCode User))}
    (evolves : Evolves (s.taken job queue) heap) : Kept s.heap.promises heap.promises :=
  evolves.kept

theorem Relayed.ran (relayed : Relayed s) (stands : Stands s)
    {job : Job (Code (FinallyCode User))} {queue : List (Job (Code (FinallyCode User)))}
    (isQueue : s.heap.queue = job :: queue) :
    Relayed ({ s with heap := { s.heap with queue := queue } }.runJob job) ∧
      Stands ({ s with heap := { s.heap with queue := queue } }.runJob job) := by
  have chained := relayed.chained
  have isRegistered := chained.orderly.registered (mem_of_head isQueue)
  rcases chained.own _ isRegistered with isOwn | isForeign
  · rcases own_cases isOwn with ⟨started, isFirst⟩ | ⟨waiting, isSecond | isThird⟩
    · have relayedNext := relayed.ran_first isQueue started isFirst
      refine ⟨relayedNext, ?_⟩
      -- `onFinally` has only been called.
      intro waiting
      obtain ⟨isRun, -⟩ := relayed.runs_first isQueue started isFirst
      rw [isRun] at waiting
      cases waiting
    · obtain ⟨heap, isRun, evolves, relayedNext⟩ := relayed.ran_second isQueue waiting isSecond
      rw [isRun]
      exact ⟨relayedNext, stands_of_heap stands (kept_taken evolves)⟩
    · obtain ⟨heap, isRun, evolves, relayedNext⟩ := relayed.ran_third isQueue waiting isThird
      rw [isRun]
      exact ⟨relayedNext, stands_of_heap stands (kept_taken evolves)⟩
  · refine ⟨relayed.ran_foreign isQueue isForeign, ?_⟩
    rw [runJob_foreign isForeign]
    exact stands_of_heap stands (kept_taken (Evolves.refl (s.taken job queue)))

theorem Relayed.step (relayed : Relayed s) (stands : Stands s) {action : FinallyState.Action User}
    (stepped : s.step action = some next) : Relayed next ∧ Stands next := by
  cases action with
  | create exposed =>
      cases stepped
      exact ⟨relayed.create exposed,
        stands_of_heap stands (evolves_allocate s.heap exposed).kept⟩
  | settle p fulfils value =>
      rw [FinallyState.step] at stepped
      split at stepped
      · cases stepped
      next accepted =>
        cases stepped
        have isOutcome := outcome_ne_pending fulfils
        have isPlain := isPlain_of_outcome fun isObject => accepted (Or.inr isObject)
        have notOwned : s.owns p = false :=
          Bool.eq_false_iff.mpr fun isOwned => accepted (Or.inl isOwned)
        exact ⟨relayed.settle isOutcome isPlain notOwned,
          stands_of_heap stands (evolves_settle s.heap p value isOutcome).kept⟩
  | callThen this onFulfilled onRejected =>
      rw [FinallyState.step] at stepped
      split at stepped
      next areForeign =>
        cases stepped
        rw [Bool.and_eq_true] at areForeign
        exact ⟨relayed.callThen this areForeign.1 areForeign.2,
          stands_of_heap stands (evolves_callThen s.heap this onFulfilled onRejected).kept⟩
      next => cases stepped
  | begin p =>
      rw [FinallyState.step] at stepped
      split at stepped
      next accepted =>
        cases stepped
        refine ⟨relayed.begin accepted.1 accepted.2, ?_⟩
        intro waiting
        cases waiting
      next => cases stepped
  | giveBack item =>
      rw [FinallyState.step] at stepped
      split at stepped
      next accepted =>
        cases stepped
        exact ⟨relayed.giveBack accepted.1 accepted.2, stands_giveBack s item⟩
      next => cases stepped
  | throw error =>
      rw [FinallyState.step] at stepped
      split at stepped
      next isInside =>
        cases stepped
        refine ⟨relayed.throw isInside error, ?_⟩
        intro waiting
        cases waiting
      next => cases stepped
  | microtask =>
      rw [FinallyState.step] at stepped
      split at stepped
      · cases stepped
      next job queue isQueue =>
        split at stepped
        · cases stepped
        · cases stepped
          exact relayed.ran stands isQueue

theorem Relayed.run (relayed : Relayed s) (stands : Stands s)
    {actions : List (FinallyState.Action User)} (isRun : s.run actions = some later) :
    Relayed later ∧ Stands later := by
  induction actions generalizing s with
  | nil => exact Option.some.inj isRun ▸ ⟨relayed, stands⟩
  | cons action actions induction =>
      obtain ⟨next, stepped, isRest⟩ := Option.bind_eq_some_iff.mp isRun
      have one := relayed.step stands stepped
      exact induction one.1 one.2 isRest

end Runs

/-! ## What comes through -/

def FinallyState.Settled (s : FinallyState User) (p : Nat) : Prop :=
  ∃ promise, s.heap.promises[p]? = some promise ∧ promise.state ≠ .pending

/-- What the promise of the call shows. -/
structure FinallySettles (s : FinallyState User) (promise : Promise (Code (FinallyCode User))) :
    Prop where
  once : s.calls ≤ 1
  /-- `onFinally` is called when the subject has settled. -/
  waits : ¬ s.Settled s.subject → s.calls = 0 ∧ promise.state = .pending
  calls : s.heap.queue = [] → s.Settled s.subject → s.calls = 1
  inside : s.stage = .called ∨ s.stage = .inside → promise.state = .pending
  threw : s.stage = .threw → promise.state = .rejected ∧ promise.value = s.given
  stands : s.stage = .waiting → s.shared.StandsFor s.given s.awaited
  settles : s.stage = .waiting → s.heap.queue = [] → s.Settled s.awaited →
    promise.state ≠ .pending
  /-- The outcome of the subject comes through, unless that of `onFinally()` is a rejection. -/
  passes : s.stage = .waiting → promise.state ≠ .pending →
    (∃ ignored, s.shared.outcomeOf .fulfilled s.awaited = some ignored ∧
      s.shared.outcomeOf promise.state s.subject = some promise.value) ∨
    promise.state = .rejected ∧ s.shared.outcomeOf .rejected s.awaited = some promise.value

section Passing

variable {s : FinallyState User}

theorem Chained.ran_of_settled (chained : Chained s) (noJob : s.heap.queue = [])
    {registration : Nat × Handler (Code (FinallyCode User))} (member : registration ∈ s.own)
    (isSettled : s.Settled registration.1) :
    ∃ job, s.ran registration.2.next = some job ∧ job.state ≠ .pending := by
  obtain ⟨promise, isPromise, settled⟩ := isSettled
  obtain ⟨job, isJob, -, isHandler⟩ :=
    chained.orderly.job_of_settled (chained.present registration member) isPromise settled
  rw [noJob, List.append_nil] at isJob
  have found : (s.ran registration.2.next).isSome = true := by
    rw [FinallyState.ran, List.find?_isSome]
    refine ⟨job, isJob, decide_eq_true ?_⟩
    rw [isHandler]
  obtain ⟨other, isRan⟩ := Option.isSome_iff_exists.mp found
  obtain ⟨isRun, -, -⟩ := chained.job_of_ran member isRan
  obtain ⟨otherPromise, -, otherSettled, sameState, -⟩ :=
    chained.orderly.carried other (List.mem_append_left _ isRun)
  refine ⟨other, isRan, ?_⟩
  rw [sameState]
  exact otherSettled

theorem Chained.carries (chained : Chained s) {registration : Nat × Handler (Code (FinallyCode User))}
    (member : registration ∈ s.own) {job : Job (Code (FinallyCode User))}
    (isRan : s.ran registration.2.next = some job) :
    job.state ≠ .pending ∧ s.shared.outcomeOf job.state registration.1 = some job.value := by
  obtain ⟨isRun, isPromise, -⟩ := chained.job_of_ran member isRan
  obtain ⟨promise, isThere, settled, sameState, sameValue⟩ :=
    chained.orderly.carried job (List.mem_append_left _ isRun)
  rw [isPromise] at isThere
  constructor
  · rw [sameState]
    exact settled
  · exact outcomeOf_eq.mpr ⟨promise, isThere, sameState.symm, sameValue.symm⟩

theorem settled_of_view {p : Nat} {seen : Status × Value (Code (FinallyCode User)) × Bool}
    (isSeen : s.heap.view p = some seen) (settled : seen.1 ≠ .pending) : s.Settled p := by
  rw [State.view] at isSeen
  obtain ⟨promise, isPromise, same⟩ := Option.map_eq_some_iff.mp isSeen
  refine ⟨promise, isPromise, ?_⟩
  rw [← same] at settled
  exact settled

/-- In every run, the promise of a call of `finally` waits for its subject, for one call of
`onFinally` and for the promise of what it returns, and then takes the outcome of the subject;
but what `onFinally` throws, or rejects with, comes through in its place. -/
theorem finally_settles {actions : List (FinallyState.Action User)}
    (isRun : FinallyState.initial.run actions = some s) (started : s.stage ≠ .before) :
    ∃ promise, s.heap.promises[s.result]? = some promise ∧ FinallySettles s promise := by
  have noStage : Stands (FinallyState.initial : FinallyState User) := by
    intro waiting
    cases waiting
  obtain ⟨relayed, stands⟩ := relayed_initial.run noStage isRun
  have chained := relayed.chained
  have told := relayed.told
  obtain ⟨promise, isPromise, same⟩ := Option.map_eq_some_iff.mp (told.shown started)
  have isState : promise.state = s.resultView.1 := congrArg Prod.fst same
  have isValue : promise.value = s.resultView.2.1 := congrArg (fun seen => seen.2.1) same
  have isFirst := first_mem_own started
  refine ⟨promise, isPromise, ?_⟩
  constructor
  case once =>
    rw [chained.once]
    split
    · exact Nat.zero_le 1
    · exact Nat.le_refl 1
  case waits =>
    intro notSettled
    have isCalled : s.stage = .called := by
      by_contra notCalled
      obtain ⟨notPending, -, isOutcome⟩ := relayed.closure started notCalled
      obtain ⟨subject, isSubject, sameState, -⟩ := outcomeOf_eq.mp isOutcome
      apply notSettled
      refine ⟨subject, isSubject, ?_⟩
      rw [sameState]
      exact notPending
    constructor
    · rw [chained.once, if_pos (Or.inr isCalled)]
    · rw [isState, FinallyState.resultView, isCalled]
  case calls =>
    intro noJob isSettled
    obtain ⟨job, isRan, -⟩ := chained.ran_of_settled noJob isFirst isSettled
    have notCalled : s.stage ≠ .called := by
      intro isCalled
      cases (told.waits isCalled).symm.trans isRan
    rw [chained.once, if_neg]
    intro early
    rcases early with isBefore | isCalled
    · exact started isBefore
    · exact notCalled isCalled
  case inside =>
    intro early
    rcases early with isCalled | isInside
    · rw [isState, FinallyState.resultView, isCalled]
    · rw [isState, FinallyState.resultView, isInside]
  case threw =>
    intro isThrown
    rw [FinallyState.resultView, isThrown] at isState isValue
    exact ⟨isState, isValue⟩
  case stands => exact stands
  case settles =>
    intro waiting noJob isSettled
    obtain ⟨second, isSecond, settled⟩ :=
      chained.ran_of_settled noJob (second_mem_own waiting) isSettled
    have isSeen := told.restored waiting
    have isRestored : s.restoredView.1 ≠ .pending := by
      rw [FinallyState.restoredView, show s.ran s.restored = some second from isSecond]
      dsimp only
      split
      · exact (relayed.closure started (by rw [waiting]; exact Stage.noConfusion)).1
      · exact Status.noConfusion
    obtain ⟨third, isThird, thirdSettled⟩ := chained.ran_of_settled noJob (third_mem_own waiting)
      (settled_of_view isSeen isRestored)
    rw [isState, FinallyState.resultView, waiting,
      show s.ran (s.restored + 1) = some third from isThird]
    exact thirdSettled
  case passes =>
    intro waiting settled
    have notCalled : s.stage ≠ .called := by
      rw [waiting]
      exact Stage.noConfusion
    rw [FinallyState.resultView, waiting] at isState isValue
    cases isThird : s.ran (s.restored + 1) with
    | none =>
        rw [isThird] at isState
        exact absurd isState settled
    | some third =>
        rw [isThird] at isState isValue
        dsimp only at isState isValue
        obtain ⟨notPending, isOutcome⟩ := chained.carries (third_mem_own waiting) isThird
        obtain ⟨restored, isRestored, sameState, sameValue⟩ := outcomeOf_eq.mp isOutcome
        have isThere : s.heap.promises[s.restored]? = some restored := isRestored
        have isSeen := told.restored waiting
        rw [State.view, isThere] at isSeen
        have isView := Option.some.inj isSeen
        cases isSecond : s.ran s.restored with
        | none =>
            rw [FinallyState.restoredView, isSecond] at isView
            have isPending : restored.state = .pending := congrArg Prod.fst isView
            exact absurd (sameState.symm.trans isPending) notPending
        | some second =>
            obtain ⟨-, isAwaited⟩ := chained.carries (second_mem_own waiting) isSecond
            rw [FinallyState.restoredView, isSecond] at isView
            dsimp only at isView
            by_cases isFulfilled : second.state = .fulfilled
            · rw [if_pos isFulfilled] at isView
              have restoredState : restored.state = s.state := congrArg Prod.fst isView
              have restoredValue : restored.value = s.value :=
                congrArg (fun seen => seen.2.1) isView
              rw [isFulfilled] at isAwaited
              refine Or.inl ⟨second.value, isAwaited, ?_⟩
              rw [isState, isValue, ← sameState, ← sameValue, restoredState, restoredValue]
              exact (relayed.closure started notCalled).2.2
            · rw [if_neg isFulfilled] at isView
              have restoredState : restored.state = .rejected := congrArg Prod.fst isView
              have restoredValue : restored.value = second.value :=
                congrArg (fun seen => seen.2.1) isView
              have isRejected : second.state = .rejected := by
                cases isStatus : second.state with
                | pending =>
                    have carried := chained.carries (second_mem_own waiting) isSecond
                    exact absurd isStatus carried.1
                | fulfilled => exact absurd isStatus isFulfilled
                | rejected => rfl
              rw [isRejected] at isAwaited
              apply Or.inr
              constructor
              · exact isState.trans (sameState.symm.trans restoredState)
              · rw [isValue, ← sameValue, restoredValue]
                exact isAwaited

/-- The subject is rejected, and what `onFinally` returns is fulfilled later. -/
def rejectedSubject : List (FinallyState.Action Nat) :=
  [.create true, .create true, .begin 0, .settle 0 false (.primitive (.program (.program 7))),
    .microtask, .giveBack (.promise 1), .settle 1 true (.primitive (.program (.program 5))),
    .microtask, .microtask]

theorem finally_settles_rejected_subject :
    ∃ s promise, FinallyState.initial.run rejectedSubject = some s ∧
      s.heap.promises[s.result]? = some promise ∧ promise.state = .rejected ∧
      promise.value = .primitive (.program (.program 7)) ∧ FinallySettles s promise := by
  obtain ⟨promise, isPromise, settles⟩ := finally_settles
    (show FinallyState.initial.run rejectedSubject = some _ from rfl) Stage.noConfusion
  have isShown := Option.some.inj isPromise
  refine ⟨_, promise, rfl, isPromise, ?_, ?_, settles⟩
  · exact congrArg Promise.state isShown.symm
  · exact congrArg Promise.value isShown.symm

end Passing

end FoundationsLab.Promises
