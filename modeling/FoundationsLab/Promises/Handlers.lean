import FoundationsLab.Promises.Accounts

/-! # The order of the handlers

Every function of the library respects the account of the handlers, and so do the steps. -/

namespace FoundationsLab.Promises

variable {User : Type}

/-! ## The functions of the library -/

section Functions

variable (s : State User)

theorem evolves_resolvePromise (p : Nat) (x : Value User) : Evolves s (s.resolvePromise p x) := by
  rw [State.resolvePromise]
  split
  · exact (evolves_settle s p .typeError Status.noConfusion).completeWith .done
  · split
    · exact Evolves.of_heap rfl rfl (KeptGuards.refl s.guards) rfl rfl
    · exact (evolves_settle s p x Status.noConfusion).completeWith .done

theorem evolves_callResolve (p : Nat) (value : Value User) : Evolves s (s.callResolve p value) := by
  have noted := (Evolves.refl s).note (.called p (.resolve value) (s.isPending p)) rfl rfl
  rw [State.callResolve]
  split
  · exact noted.trans (evolves_resolvePromise _ p value)
  · exact noted.completeWith .done

theorem evolves_callReject (p : Nat) (reason : Value User) : Evolves s (s.callReject p reason) := by
  have noted := (Evolves.refl s).note (.called p (.reject reason) (s.isPending p)) rfl rfl
  exact (noted.trans (evolves_settle _ p reason Status.noConfusion)).completeWith .done

theorem keptGuards_modify (guards : List (Guard User)) (g : Nat) :
    KeptGuards guards (guards.modify g ({ · with called := true })) := by
  intro h guard isGuard
  by_cases same : g = h
  · subst same
    refine ⟨{ guard with called := true }, ?_, rfl, rfl, rfl, fun isOpen => by cases isOpen⟩
    rw [List.getElem?_modify_eq, isGuard]
    rfl
  · refine ⟨guard, ?_, rfl, rfl, rfl, id⟩
    rw [List.getElem?_modify_ne _ _ same, isGuard]

theorem keptGuards_append (guards : List (Guard User)) (fresh : Guard User) :
    KeptGuards guards (guards ++ [fresh]) := fun _ guard isGuard =>
  ⟨guard, by rw [List.getElem?_append_left (lt_of_getElem? isGuard), isGuard], rfl, rfl, rfl, id⟩

theorem evolves_markCalled (g : Nat) : Evolves s (s.markCalled g) :=
  Evolves.of_heap rfl rfl (keptGuards_modify s.guards g) rfl rfl

theorem evolves_callAdopt (g : Nat) (y : Value User) : Evolves s (s.callAdopt g y) := by
  rw [State.callAdopt]
  split
  next p _ _ _ =>
    have noted := (evolves_markCalled s g).note (.adopted g y) rfl rfl
    exact noted.trans (evolves_resolvePromise _ p y)
  next => exact (Evolves.refl s).completeWith .done

theorem evolves_callRefuse (g : Nat) (r : Value User) : Evolves s (s.callRefuse g r) := by
  rw [State.callRefuse]
  split
  next p _ _ _ =>
    have noted := (evolves_markCalled s g).note (.refused g r) rfl rfl
    exact (noted.trans (evolves_settle _ p r Status.noConfusion)).completeWith .done
  next => exact (Evolves.refl s).completeWith .done

theorem lt_of_promiseOf {s : State User} {this : Value User} {p : Nat} (isPromise : s.promiseOf this = some p) :
    this = .promise p ∧ p < s.promises.length := by
  cases this with
  | promise q =>
      rw [State.promiseOf] at isPromise
      split at isPromise
      next inside =>
        cases isPromise
        exact ⟨rfl, inside⟩
      next => cases isPromise
  | _ => cases isPromise

/-- The promise that `then` returns is new, so no handler is counted twice. -/
theorem evolves_callThen (this onFulfilled onRejected : Value User) :
    Evolves s (s.callThen this onFulfilled onRejected) := by
  have allocated := evolves_allocate s false
  rw [State.callThen]
  split
  next p isPromise =>
    obtain ⟨-, inside⟩ := lt_of_promiseOf isPromise
    have longer : (s.allocate false).promises.length = s.promises.length + 1 := List.length_append
    have isOld : (s.allocate false).promises[p]? = some s.promises[p] := by
      rw [State.allocate, List.getElem?_append_left inside, List.getElem?_eq_getElem inside]
    have isFresh : s.IsOrderly → ∀ registration ∈ registrations (s.allocate false).log,
        registration.2.next ≠ s.promises.length :=
      fun orderly registration member => Nat.ne_of_lt (orderly.older registration member)
    exact (allocated.register isOld isFresh (by dsimp only; omega)).completeWith _
  next => exact allocated.completeWith _

theorem evolves_enter (f : Function User) (this first second : Value User) :
    Evolves s (s.enter f this first second) := by
  cases f with
  | user code => exact Evolves.of_heap rfl rfl (KeptGuards.refl s.guards) rfl rfl
  | resolve p => exact evolves_callResolve s p first
  | reject p => exact evolves_callReject s p first
  | adopt g => exact evolves_callAdopt s g first
  | refuse g => exact evolves_callRefuse s g first
  | thenMethod => exact evolves_callThen s this first second

theorem evolves_construct (executor : Value User) : Evolves s (s.construct executor) := by
  have waiting := (Evolves.refl s).push .user
  cases executor with
  | function f =>
      have allocated := waiting.trans (evolves_allocate _ true)
      exact (allocated.push _).trans (evolves_enter _ f _ _ _)
  | _ => exact waiting.completeWith _

theorem evolves_callThenable (p : Nat) (x : Value User) (f : Function User) :
    Evolves s (s.callThenable p x f) := by
  have guarded : Evolves s { s with guards := s.guards ++ [⟨p, x, s.isNative f x, false⟩] } :=
    Evolves.of_heap rfl rfl (keptGuards_append s.guards _) rfl rfl
  have noted := guarded.note (.adopting p s.guards.length) rfl rfl
  exact (noted.push _).trans (evolves_enter _ f _ _ _)

theorem evolves_afterRead (p : Nat) (x : Value User) (result : Completion User) :
    Evolves s (s.afterRead p x result) := by
  unfold State.afterRead
  split
  next error =>
    have noted := (Evolves.refl s).note (.unreadable p error) rfl rfl
    exact (noted.trans (evolves_settle _ p error Status.noConfusion)).completeWith _
  next f => exact evolves_callThenable s p x f
  next =>
    have noted := (Evolves.refl s).note (.noThenable p) rfl rfl
    exact (noted.trans (evolves_settle _ p x Status.noConfusion)).completeWith _

theorem evolves_afterAdoption (g : Nat) (result : Completion User) :
    Evolves s (s.afterAdoption g result) := by
  unfold State.afterAdoption
  split
  next error p _ _ _ =>
    have noted := (Evolves.refl s).note (.threw g error) rfl rfl
    exact (noted.trans (evolves_settle _ p error Status.noConfusion)).completeWith _
  next => exact (Evolves.refl s).completeWith _

theorem evolves_proceed (frame : Frame User) (result : Completion User) :
    Evolves s (s.proceed frame result) := by
  cases frame with
  | user => exact Evolves.of_heap rfl rfl (KeptGuards.refl s.guards) rfl rfl
  | executor p =>
      cases result with
      | returned value => exact (Evolves.refl s).completeWith _
      | thrown error => exact (evolves_callReject s p error).completeWith _
  | getter p x => exact evolves_afterRead s p x result
  | adoption g => exact evolves_afterAdoption s g result
  | handling next =>
      cases result with
      | returned value => exact evolves_callResolve s next value
      | thrown error => exact evolves_callReject s next error

end Functions

/-! ## Steps -/

section Steps

variable {s next : State User}

/-- The body of a microtask. -/
theorem evolves_runJob (s : State User) (job : Job User) :
    Evolves (s.note (.ran job)) (s.runJob job) := by
  rw [State.runJob]
  split
  next f _ => exact ((Evolves.refl _).push _).trans (evolves_enter _ f _ _ _)
  next =>
    split
    · exact evolves_callResolve _ _ _
    · exact evolves_callReject _ _ _

theorem jobsRun_ran (log : List (Event User)) (job : Job User) :
    jobsRun (log ++ [.ran job]) = jobsRun log ++ [job] := List.filterMap_append

theorem registrations_ran (log : List (Event User)) (job : Job User) :
    registrations (log ++ [.ran job]) = registrations log :=
  List.filterMap_append.trans (List.append_nil _)

/-- The job that is run is the first of the queue, so the account of all jobs is unchanged. -/
theorem orderly_dequeue {job : Job User} {queue : List (Job User)} (isQueue : s.queue = job :: queue)
    (orderly : s.IsOrderly) : ({ s with queue := queue }.note (.ran job)).IsOrderly := by
  rw [State.IsOrderly, isQueue] at orderly
  rw [State.IsOrderly, State.note, jobsRun_ran, registrations_ran, List.append_assoc]
  exact orderly

/-- Every step but that of a microtask runs no handler, and a microtask is run when there is
no other code to run, and runs one. -/
theorem step_cases {action : State.Action User} (stepped : s.step action = some next) :
    Evolves s next ∨
      ∃ result job queue, action = .microtask ∧ s.control = .complete result ∧ s.stack = [] ∧
        s.queue = job :: queue ∧ next = { s with queue := queue }.runJob job := by
  cases action with
  | construct executor =>
      rw [State.step] at stepped
      split at stepped
      · split at stepped
        · exact Or.inl (Option.some.inj stepped ▸ evolves_construct s executor)
        · cases stepped
      · cases stepped
  | call f this first second =>
      rw [State.step] at stepped
      split at stepped
      · split at stepped
        · cases stepped
          exact Or.inl (((Evolves.refl s).push _).trans (evolves_enter _ f this first second))
        · cases stepped
      · cases stepped
  | finish completion =>
      rw [State.step] at stepped
      split at stepped
      · split at stepped
        · exact Or.inl (Option.some.inj stepped ▸ (Evolves.refl s).completeWith completion)
        · cases stepped
      · cases stepped
  | proceed =>
      rw [State.step] at stepped
      split at stepped
      next result frame stack _ _ =>
        cases stepped
        have popped : Evolves s { s with stack := stack } := Evolves.of_heap rfl rfl (KeptGuards.refl s.guards) rfl rfl
        exact Or.inl (popped.trans (evolves_proceed _ frame result))
      next => cases stepped
  | task =>
      rw [State.step] at stepped
      split at stepped
      · cases stepped
        exact Or.inl (Evolves.of_heap rfl rfl (KeptGuards.refl s.guards) rfl rfl)
      · cases stepped
  | microtask =>
      rw [State.step] at stepped
      split at stepped
      next result job queue isComplete isIdle isQueue =>
        cases stepped
        exact Or.inr ⟨result, job, queue, rfl, isComplete, isIdle, isQueue, rfl⟩
      next => cases stepped

theorem step_orderly {action : State.Action User} (stepped : s.step action = some next)
    (orderly : s.IsOrderly) : next.IsOrderly := by
  rcases step_cases stepped with evolves | ⟨result, job, queue, -, -, -, isQueue, rfl⟩
  · exact evolves.orderly orderly
  · exact (evolves_runJob _ job).orderly (orderly_dequeue isQueue orderly)

theorem step_kept {action : State.Action User} (stepped : s.step action = some next) :
    Kept s.promises next.promises := by
  rcases step_cases stepped with evolves | ⟨result, job, queue, -, -, -, isQueue, rfl⟩
  · exact evolves.kept
  · exact (evolves_runJob { s with queue := queue } job).kept

theorem orderly_initial : (State.initial : State User).IsOrderly := by
  constructor
  · intro p promise isPromise
    cases isPromise
  · exact List.forall_mem_nil _
  · exact List.Pairwise.nil
  · exact List.forall_mem_nil _
  · intro p promise isPromise
    cases isPromise
  · intro p promise isPromise
    cases isPromise
  · exact List.forall_mem_nil _

theorem Reachable.orderly (reachable : Reachable s) : s.IsOrderly := by
  induction reachable with
  | initial => exact orderly_initial
  | step action _ stepped induction => exact step_orderly stepped induction

theorem run_kept {later : State User} {actions : List (State.Action User)}
    (isRun : s.run actions = some later) : Kept s.promises later.promises := by
  induction actions generalizing s with
  | nil => exact Option.some.inj isRun ▸ Kept.refl s.promises
  | cons action actions induction =>
      obtain ⟨next, stepped, isRest⟩ := Option.bind_eq_some_iff.mp isRun
      exact (step_kept stepped).trans (induction isRest)

end Steps

/-! ## The order of the handlers -/

section Order

variable {s : State User}

/-- A promise is as it was, or it has left the pending state. -/
theorem run_outcome {later : State User} (reachable : Reachable s)
    {actions : List (State.Action User)} (isRun : s.run actions = some later) {p : Nat}
    {promise : Promise User} (isPromise : s.promises[p]? = some promise) :
    ∃ promise', later.promises[p]? = some promise' ∧
      ((promise'.state = promise.state ∧ promise'.value = promise.value) ∨
        (promise.state = .pending ∧ promise'.state ≠ .pending)) := by
  obtain ⟨promise', isPromise', -, sameOutcome⟩ := run_kept isRun p promise isPromise
  refine ⟨promise', isPromise', ?_⟩
  by_cases isPending : promise.state = .pending
  · by_cases stillPending : promise'.state = .pending
    · have value := reachable.orderly.waiting p promise isPromise isPending
      have value' := (reachable.run isRun).orderly.waiting p promise' isPromise' stillPending
      exact Or.inl ⟨stillPending.trans isPending.symm, value'.trans value.symm⟩
    · exact Or.inr ⟨isPending, stillPending⟩
  · exact Or.inl (sameOutcome isPending)

theorem mem_of_mem_handlersOf {registrations : List (Nat × Handler User)} {p : Nat}
    {handler : Handler User} (member : handler ∈ handlersOf registrations p) :
    (p, handler) ∈ registrations := by
  obtain ⟨registration, isRegistration, isHandler⟩ := List.mem_filterMap.mp member
  rw [handlerAt] at isHandler
  split at isHandler
  next same =>
    cases isHandler
    subst same
    exact isRegistration
  next => cases isHandler

/-- Handlers have their microtasks in the order of the calls of `then`. -/
theorem Orderly.jobs_prefix {promises : List (Promise User)} {jobs : List (Job User)}
    {registrations : List (Nat × Handler User)} (orderly : Orderly promises jobs registrations)
    (p : Nat) : handlersOf (jobs.map Job.registration) p <+: handlersOf registrations p := by
  by_cases inside : p < promises.length
  · exact ⟨_, (orderly.accounted p _ (List.getElem?_eq_getElem inside)).symm⟩
  · have none : handlersOf (jobs.map Job.registration) p = [] := by
      apply handlersOf_eq_nil
      intro registration member
      obtain ⟨job, isJob, rfl⟩ := List.mem_map.mp member
      obtain ⟨promise, isPromise, -⟩ := orderly.carried job isJob
      intro same
      exact inside (same ▸ lt_of_getElem? isPromise)
    rw [none]
    exact List.nil_prefix

/-- Handlers run in the order of the calls of `then`. -/
theorem Reachable.ran_prefix (reachable : Reachable s) (p : Nat) :
    handlersOf ((jobsRun s.log).map Job.registration) p <+: handlersOf (registrations s.log) p := by
  have allJobs := reachable.orderly.jobs_prefix p
  rw [List.map_append, handlersOf_append] at allJobs
  exact (List.prefix_append _ _).trans allJobs

theorem Orderly.registered {promises : List (Promise User)} {jobs : List (Job User)}
    {registrations : List (Nat × Handler User)} (orderly : Orderly promises jobs registrations)
    {job : Job User} (isJob : job ∈ jobs) : job.registration ∈ registrations := by
  apply mem_of_mem_handlersOf
  apply (orderly.jobs_prefix job.promise).subset
  exact List.mem_filterMap.mpr ⟨_, List.mem_map_of_mem isJob, if_pos rfl⟩

/-- No handler has two microtasks. -/
theorem Orderly.jobs_once {promises : List (Promise User)} {jobs : List (Job User)}
    {registrations : List (Nat × Handler User)} (orderly : Orderly promises jobs registrations) :
    (jobs.map (·.handler.next)).Nodup := by
  have fresh := orderly.fresh
  have sameRegistration : ∀ first ∈ jobs, ∀ second ∈ jobs,
      first.handler.next = second.handler.next → first.registration = second.registration :=
    fun first isFirst second isSecond sameNext => List.inj_on_of_nodup_map fresh
      (orderly.registered isFirst) (orderly.registered isSecond) sameNext
  have onceAt : ∀ p, (handlersOf registrations p).Nodup := by
    intro p
    apply (fresh.of_map _).filterMap
    intro first second handler isFirst isSecond
    have isFirst := mem_of_mem_handlersOf
      (List.mem_filterMap.mpr ⟨first, List.mem_singleton_self first, isFirst⟩)
    have isSecond := mem_of_mem_handlersOf
      (List.mem_filterMap.mpr ⟨second, List.mem_singleton_self second, isSecond⟩)
    exact (List.mem_singleton.mp isFirst).symm.trans (List.mem_singleton.mp isSecond)
  rw [List.Nodup, List.pairwise_map, List.pairwise_iff_forall_sublist]
  intro first second both sameNext
  have same := sameRegistration first (both.subset List.mem_cons_self) second
    (both.subset (List.mem_cons_of_mem _ List.mem_cons_self)) sameNext
  -- The handlers of the promise of both would hold the one handler twice.
  have twice : List.Sublist [first.handler, first.handler]
      (handlersOf registrations first.promise) := by
    have twiceRun := (both.map Job.registration).filterMap (handlerAt first.promise)
    have isHandler : handlerAt first.promise first.registration = some first.handler := if_pos rfl
    rw [List.map_cons, List.map_cons, ← same, List.filterMap_cons_some isHandler,
      List.filterMap_cons_some isHandler] at twiceRun
    exact twiceRun.trans (orderly.jobs_prefix first.promise).sublist
  exact (List.nodup_cons.mp ((onceAt first.promise).sublist twice)).1 List.mem_cons_self

/-- No handler runs twice. -/
theorem Reachable.ran_once (reachable : Reachable s) :
    ((jobsRun s.log).map (·.handler.next)).Nodup := by
  have allJobs := reachable.orderly.jobs_once
  rw [List.map_append] at allJobs
  exact (List.nodup_append.mp allJobs).1

/-- A promise changes only when it leaves the pending state; a handler runs at most once, in a
microtask with nothing below it, on the outcome of its promise and with the callback for it; and
the handlers of a promise run in the order of the calls of `then`. -/
theorem handlers_run_in_order (reachable : Reachable s) :
    (∀ (actions : List (State.Action User)) (later : State User), s.run actions = some later →
      ∀ (p : Nat) (promise : Promise User), s.promises[p]? = some promise →
        ∃ promise', later.promises[p]? = some promise' ∧
          ((promise'.state = promise.state ∧ promise'.value = promise.value) ∨
            (promise.state = .pending ∧ promise'.state ≠ .pending))) ∧
      (∀ (action : State.Action User) (next : State User), s.step action = some next →
        jobsRun next.log = jobsRun s.log ∨
          ∃ result job queue, action = .microtask ∧ s.control = .complete result ∧
            s.stack = [] ∧ s.queue = job :: queue ∧ jobsRun next.log = jobsRun s.log ++ [job] ∧
            next = { s with queue := queue }.runJob job) ∧
      (∀ job ∈ jobsRun s.log ++ s.queue, ∃ promise, s.promises[job.promise]? = some promise ∧
        promise.state ≠ .pending ∧ job.value = promise.value ∧
        job.callback = if promise.state = .fulfilled then job.handler.onFulfilled
          else job.handler.onRejected) ∧
      ((registrations s.log).map (·.2.next)).Nodup ∧
      ((jobsRun s.log).map (·.handler.next)).Nodup ∧
      ∀ p : Nat, handlersOf ((jobsRun s.log).map Job.registration) p <+:
        handlersOf (registrations s.log) p := by
  constructor
  · intro actions later isRun p promise isPromise
    exact run_outcome reachable isRun isPromise
  constructor
  · intro action next stepped
    rcases step_cases stepped with evolves | ⟨result, job, queue, isMicrotask, isComplete, isIdle,
      isQueue, rfl⟩
    · exact Or.inl evolves.sameRun
    · have sameRun := (evolves_runJob { s with queue := queue } job).sameRun
      exact Or.inr ⟨result, job, queue, isMicrotask, isComplete, isIdle, isQueue,
        sameRun.trans (jobsRun_ran s.log job), rfl⟩
  constructor
  · intro job isJob
    obtain ⟨promise, isPromise, settled, sameState, sameValue⟩ := reachable.orderly.carried job isJob
    exact ⟨promise, isPromise, settled, sameValue, by rw [Job.callback, sameState]⟩
  exact ⟨reachable.orderly.fresh, reachable.ran_once, reachable.ran_prefix⟩

/-- A handler is registered while the promise is pending, and one after it has settled. -/
def twoHandlers : List (State.Action Nat) :=
  [.task, .construct (.function (.user 0)), .finish .done, .proceed, .proceed,
    .call .thenMethod (.promise 0) (.function (.user 1)) .undefined, .proceed,
    .call (.resolve 0) .undefined (.primitive 7) .undefined, .proceed,
    .call .thenMethod (.promise 0) (.function (.user 2)) .undefined, .proceed,
    .finish .done, .microtask, .finish .done, .proceed, .microtask]

theorem handlers_run_in_order_two :
    ∃ s, State.initial.run twoHandlers = some s ∧
      (jobsRun s.log).map (·.handler.next) = [1, 2] ∧
      handlersOf ((jobsRun s.log).map Job.registration) 0 <+:
        handlersOf (registrations s.log) 0 :=
  ⟨_, rfl, rfl, (handlers_run_in_order (Reachable.initial.run
    (show State.initial.run twoHandlers = some _ from rfl))).2.2.2.2.2 0⟩

end Order

end FoundationsLab.Promises
