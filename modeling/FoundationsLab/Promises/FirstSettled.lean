import FoundationsLab.Promises.Race

/-! # What `APromise.race` returns

The functions of the promise of the call are held by the handlers of the items alone. The queue
of the microtasks is in the order in which the inputs have settled, so the first input decides. -/

namespace FoundationsLab.Promises

variable {User : Type}

/-! ## The handlers of the call -/

/-- The promise that a function settles. -/
def Function.target : Function User → Option Nat
  | .resolve p | .reject p => some p
  | _ => none

def Holds (handler : Handler User) (p : Nat) : Prop :=
  handler.onFulfilled.bind Function.target = some p ∨
    handler.onRejected.bind Function.target = some p

/-- The handler is one of an item. -/
def isEntrant (r : Nat) (handler : Handler User) : Bool :=
  match handler.onFulfilled with
  | some (.resolve q) => q = r
  | _ => false

/-- The promise is left to the handlers of the items. -/
structure Fair (r : Nat) (handler : Handler User) : Prop where
  both : Holds handler r →
    handler.onFulfilled = some (.resolve r) ∧ handler.onRejected = some (.reject r)
  apart : handler.next ≠ r

namespace RaceState

def firstRun (s : RaceState User) : Option (Job (Code User)) :=
  (jobsRun s.heap.log).find? fun job => isEntrant s.result job.handler

/-- The first microtask of an item, whether it has run or waits. -/
def leader (s : RaceState User) : Option (Job (Code User)) :=
  (jobsRun s.heap.log ++ s.heap.queue).find? fun job => isEntrant s.result job.handler

/-- What the promise of the call should show. -/
def expected (s : RaceState User) : Status × Value (Code User) × Bool :=
  match s.firstRun with
  | some job => (job.state, job.value, false)
  | none => (.pending, .undefined, false)

def Settled (s : RaceState User) (p : Nat) : Prop :=
  ∃ promise, s.heap.promises[p]? = some promise ∧ promise.state ≠ .pending

end RaceState

structure Entered (s : RaceState User) : Prop where
  orderly : s.heap.IsOrderly
  plain : s.heap.Plain
  held : ∀ registration ∈ registrations s.heap.log, ∀ q, Holds registration.2 q →
    q < s.heap.promises.length
  fair : s.phase ≠ .before → ∀ registration ∈ registrations s.heap.log,
    Fair s.result registration.2
  listed : s.phase ≠ .before → ∀ p, p ∈ s.inputs ↔ ∃ handler,
    (p, handler) ∈ registrations s.heap.log ∧ isEntrant s.result handler = true
  unstarted : s.phase = .before → s.inputs = []

/-- The promise of the call shows the outcome of the handler that has run first. -/
structure Raced (s : RaceState User) : Prop where
  entered : Entered s
  shown : s.phase ≠ .before → s.heap.view s.result = some s.expected

section Handlers

variable {handler : Handler User} {r : Nat}

theorem isEntrant_iff : isEntrant r handler = true ↔ handler.onFulfilled = some (.resolve r) := by
  rw [isEntrant]
  split
  next q isResolve =>
    rw [isResolve, decide_eq_true_iff]
    constructor
    · intro same
      rw [same]
    · intro same
      cases same
      rfl
  next notResolve =>
    constructor
    · intro absurdity
      cases absurdity
    · intro isResolve
      exact absurd isResolve (notResolve r)

theorem holds_of_entrant (isEntrant : isEntrant r handler = true) : Holds handler r := by
  apply Or.inl
  rw [isEntrant_iff.mp isEntrant]
  rfl

theorem Fair.entrant_iff (fair : Fair r handler) : isEntrant r handler = true ↔ Holds handler r :=
  ⟨holds_of_entrant, fun holds => isEntrant_iff.mpr (fair.both holds).1⟩

/-- A program passes on the functions of promises that have been exposed. -/
theorem exposed_of_holds {heap : State User} {onFulfilled onRejected : Value User} {next q : Nat}
    (fulfilled : heap.knowsValue onFulfilled = true) (rejected : heap.knowsValue onRejected = true)
    (holds : Holds ⟨onFulfilled.asFunction, onRejected.asFunction, next⟩ q) :
    ∃ promise, heap.promises[q]? = some promise ∧ promise.exposed = true := by
  have known : ∀ value : Value User, heap.knowsValue value = true →
      value.asFunction.bind Function.target = some q →
      ∃ promise, heap.promises[q]? = some promise ∧ promise.exposed = true := by
    intro value isKnown isTarget
    cases value with
    | function f =>
        cases f with
        | resolve p =>
            cases isTarget
            exact (Option.any_eq_true _ _).mp isKnown
        | reject p =>
            cases isTarget
            exact (Option.any_eq_true _ _).mp isKnown
        | _ => cases isTarget
    | _ => cases isTarget
  rcases holds with onFulfilled | onRejected
  · exact known _ fulfilled onFulfilled
  · exact known _ rejected onRejected

theorem holds_of_callback {job : Job User} {f : Function User} {q : Nat}
    (isCallback : job.callback = some f) (isTarget : f.target = some q) : Holds job.handler q := by
  rw [Job.callback] at isCallback
  split at isCallback
  · apply Or.inl
    rw [isCallback]
    exact isTarget
  · apply Or.inr
    rw [isCallback]
    exact isTarget

/-- The microtask of a handler of a promise that has settled. -/
theorem Orderly.job_of_settled {promises : List (Promise User)} {jobs : List (Job User)}
    {registrations : List (Nat × Handler User)} (orderly : Orderly promises jobs registrations)
    {p : Nat} (isRegistered : (p, handler) ∈ registrations) {promise : Promise User}
    (isPromise : promises[p]? = some promise) (settled : promise.state ≠ .pending) :
    ∃ job ∈ jobs, job.promise = p ∧ job.handler = handler := by
  have waits : handler ∈ handlersOf registrations p :=
    List.mem_filterMap.mpr ⟨(p, handler), isRegistered, if_pos rfl⟩
  rw [orderly.accounted p promise isPromise, orderly.flushed p promise isPromise settled,
    List.append_nil] at waits
  obtain ⟨job, isJob, same⟩ := List.mem_map.mp (mem_of_mem_handlersOf waits)
  exact ⟨job, isJob, congrArg Prod.fst same, congrArg Prod.snd same⟩

end Handlers

/-! ## The moves of the program -/

section Program

variable {s : RaceState User}

theorem expected_hidden (s : RaceState User) : s.expected.2.2 = false := by
  rw [RaceState.expected]
  split
  · rfl
  · rfl

theorem RaceState.expected_of_run {later : RaceState User} (sameResult : later.result = s.result)
    (sameRun : jobsRun later.heap.log = jobsRun s.heap.log) : later.expected = s.expected := by
  rw [RaceState.expected, RaceState.expected, RaceState.firstRun, RaceState.firstRun, sameResult,
    sameRun]

theorem Entered.of_heap (entered : Entered s) {heap : State (Code User)} (isOrderly : heap.IsOrderly)
    (plain : heap.Plain) (grows : Grows s.heap heap)
    (sameRegistrations : registrations heap.log = registrations s.heap.log) :
    Entered { s with heap := heap } where
  orderly := isOrderly
  plain := plain
  held := by
    show ∀ registration ∈ registrations heap.log, _
    rw [sameRegistrations]
    exact fun registration member q holds => grows.inside (entered.held registration member q holds)
  fair := by
    show _ → ∀ registration ∈ registrations heap.log, _
    rw [sameRegistrations]
    exact entered.fair
  listed := by
    show _ → ∀ p, p ∈ s.inputs ↔ ∃ handler, (p, handler) ∈ registrations heap.log ∧ _
    rw [sameRegistrations]
    exact entered.listed
  unstarted := entered.unstarted

/-- No handler is registered or run, and the promise of the call is as it was. -/
theorem Raced.of_heap (raced : Raced s) {heap : State (Code User)} (evolves : Evolves s.heap heap)
    (isExtended : Extends s.heap heap)
    (sameRegistrations : registrations heap.log = registrations s.heap.log)
    (sameView : s.phase ≠ .before → heap.view s.result = s.heap.view s.result) :
    Raced { s with heap := heap } where
  entered := raced.entered.of_heap (evolves.orderly raced.entered.orderly)
    (isExtended.plain raced.entered.plain) evolves.grows sameRegistrations
  shown := by
    intro started
    have sameExpected : { s with heap := heap }.expected = s.expected :=
      RaceState.expected_of_run rfl evolves.sameRun
    rw [sameExpected]
    exact (sameView started).trans (raced.shown started)

theorem Raced.create (raced : Raced s) (exposed : Bool) :
    Raced { s with heap := s.heap.allocate exposed } := by
  apply raced.of_heap (evolves_allocate s.heap exposed) (extends_allocate s.heap exposed) rfl
  intro started
  have isSeen := raced.shown started
  exact (view_allocate isSeen exposed).trans isSeen.symm

theorem Raced.settle (raced : Raced s) {p : Nat} {state : Status} {value : Value (Code User)}
    (isOutcome : state ≠ .pending) (isPlain : state = .fulfilled → value.isPlain = true)
    (other : s.phase ≠ .before → p ≠ s.result) :
    Raced { s with heap := s.heap.settle p state value } := by
  apply raced.of_heap (evolves_settle s.heap p value isOutcome) (extends_settle s.heap p state value isPlain)
  · rw [settle_log]
  · exact fun started => view_settle_ne (other started)

/-- A handler is registered behind the others. -/
theorem Entered.register (entered : Entered s) {heap : State (Code User)} {p : Nat}
    {handler : Handler (Code User)} {inputs : List Nat} (isOrderly : heap.IsOrderly)
    (plain : heap.Plain) (grows : Grows s.heap heap)
    (isNew : registrations heap.log = registrations s.heap.log ++ [(p, handler)])
    (held : ∀ q, Holds handler q → q < heap.promises.length)
    (fair : s.phase ≠ .before → Fair s.result handler)
    (listed : s.phase ≠ .before → ∀ q, q ∈ inputs ↔
      q ∈ s.inputs ∨ q = p ∧ isEntrant s.result handler = true)
    (unstarted : s.phase = .before → inputs = []) (items : List (Value (Code User))) :
    Entered { s with heap := heap, items := items, inputs := inputs } where
  orderly := isOrderly
  plain := plain
  held := by
    show ∀ registration ∈ registrations heap.log, _
    rw [isNew]
    intro registration member q holds
    rcases List.mem_append.mp member with old | isLast
    · exact grows.inside (entered.held registration old q holds)
    · cases List.mem_singleton.mp isLast
      exact held q holds
  fair := by
    show _ → ∀ registration ∈ registrations heap.log, _
    rw [isNew]
    intro started registration member
    rcases List.mem_append.mp member with old | isLast
    · exact entered.fair started registration old
    · cases List.mem_singleton.mp isLast
      exact fair started
  listed := by
    intro started q
    show q ∈ inputs ↔ ∃ other, (q, other) ∈ registrations heap.log ∧ _
    rw [listed started q, entered.listed started q, isNew]
    constructor
    · intro isListed
      rcases isListed with ⟨other, member, isEntrant⟩ | ⟨same, isEntrant⟩
      · exact ⟨other, List.mem_append_left _ member, isEntrant⟩
      · subst same
        exact ⟨handler, List.mem_append_right _ (List.mem_singleton_self _), isEntrant⟩
    · intro isRegistered
      obtain ⟨other, member, isEntrant⟩ := isRegistered
      rcases List.mem_append.mp member with old | isLast
      · exact Or.inl ⟨other, old, isEntrant⟩
      · cases List.mem_singleton.mp isLast
        exact Or.inr ⟨rfl, isEntrant⟩
  unstarted := unstarted

theorem Raced.inside (raced : Raced s) (started : s.phase ≠ .before) :
    s.result < s.heap.promises.length := lt_of_view (raced.shown started)

theorem Raced.callThen (raced : Raced s) (this : Value (Code User))
    {onFulfilled onRejected : Value (Code User)} (fulfilled : s.heap.knowsValue onFulfilled = true)
    (rejected : s.heap.knowsValue onRejected = true) :
    Raced { s with heap := s.heap.callThen this onFulfilled onRejected } := by
  have evolves := evolves_callThen s.heap this onFulfilled onRejected
  have isExtended := extends_callThen s.heap this onFulfilled onRejected
  have sameView : s.phase ≠ .before →
      (s.heap.callThen this onFulfilled onRejected).view s.result = s.heap.view s.result := by
    intro started
    have isSeen := raced.shown started
    exact (view_callThen isSeen this onFulfilled onRejected).trans isSeen.symm
  rcases registrations_callThen s.heap this onFulfilled onRejected with same | ⟨p, -, isNew⟩
  · exact raced.of_heap evolves isExtended same sameView
  · -- The promise of the call is not exposed.
    have notHeld : s.phase ≠ .before →
        ¬ Holds ⟨onFulfilled.asFunction, onRejected.asFunction, s.heap.promises.length⟩ s.result := by
      intro started holds
      obtain ⟨promise, isPromise, isExposed⟩ := exposed_of_holds fulfilled rejected holds
      have isSeen := raced.shown started
      rw [State.view, isPromise] at isSeen
      have hidden := congrArg (fun seen => seen.2.2) (Option.some.inj isSeen)
      cases isExposed.symm.trans (hidden.trans (expected_hidden s))
    constructor
    · apply raced.entered.register (evolves.orderly raced.entered.orderly)
        (isExtended.plain raced.entered.plain) evolves.grows isNew
      · intro q holds
        obtain ⟨promise, isPromise, -⟩ := exposed_of_holds fulfilled rejected holds
        exact evolves.grows.inside (lt_of_getElem? isPromise)
      · intro started
        constructor
        · exact fun holds => absurd holds (notHeld started)
        · exact (Nat.ne_of_lt (raced.inside started)).symm
      · intro started q
        constructor
        · exact Or.inl
        · intro isListed
          rcases isListed with isInput | ⟨-, isEntrant⟩
          · exact isInput
          · exact absurd (holds_of_entrant isEntrant) (notHeld started)
      · exact raced.entered.unstarted
    · intro started
      have sameExpected : { s with
          heap := s.heap.callThen this onFulfilled onRejected }.expected = s.expected :=
        RaceState.expected_of_run rfl evolves.sameRun
      rw [sameExpected]
      exact (sameView started).trans (raced.shown started)

end Program

/-! ## The loop -/

section Loop

variable {s : RaceState User}

theorem Raced.begin (raced : Raced s) (isBefore : s.phase = .before) : Raced s.begin := by
  have evolves := evolves_allocate s.heap false
  have notHeld : ∀ registration ∈ registrations s.heap.log,
      ¬ Holds registration.2 s.heap.promises.length := fun registration member holds =>
    Nat.lt_irrefl _ (raced.entered.held registration member _ holds)
  constructor
  · constructor
    · exact evolves.orderly raced.entered.orderly
    · exact (extends_allocate s.heap false).plain raced.entered.plain
    · intro registration member q holds
      exact evolves.grows.inside (raced.entered.held registration member q holds)
    · intro _ registration member
      constructor
      · exact fun holds => absurd holds (notHeld registration member)
      · exact Nat.ne_of_lt (raced.entered.orderly.older registration member)
    · intro _ p
      show p ∈ s.inputs ↔ _
      rw [raced.entered.unstarted isBefore]
      constructor
      · intro member
        cases member
      · intro isRegistered
        obtain ⟨handler, member, isEntrant⟩ := isRegistered
        exact absurd (holds_of_entrant isEntrant) (notHeld (p, handler) member)
    · intro isBefore
      cases isBefore
  · intro _
    have noneRun : s.begin.firstRun = none := by
      rw [RaceState.firstRun, List.find?_eq_none]
      intro job isRun isEntrant
      have isJob : job ∈ jobsRun s.heap.log ++ s.heap.queue := List.mem_append_left _ isRun
      exact notHeld job.registration (raced.entered.orderly.registered isJob)
        (holds_of_entrant isEntrant)
    rw [RaceState.expected, noneRun]
    show (s.heap.allocate false).view s.heap.promises.length = some (.pending, .undefined, false)
    rw [State.view, State.allocate, List.getElem?_concat_length]
    rfl

theorem Raced.next (raced : Raced s) {item : Value (Code User)} (looping : s.phase = .looping)
    (isKnown : s.heap.knowsValue item = true) : Raced (s.next item) := by
  have started : s.phase ≠ .before := by
    rw [looping]
    exact Phase.noConfusion
  have fetched := fetched_promiseFor s.heap isKnown
  have evolves := fetched.evolves.trans (evolves_callThen (s.heap.promiseFor item).1
    (.promise (s.heap.promiseFor item).2) (.function (.resolve s.result))
    (.function (.reject s.result)))
  have isExtended := (extends_promiseFor s.heap item).trans (extends_callThen
    (s.heap.promiseFor item).1 (.promise (s.heap.promiseFor item).2)
    (.function (.resolve s.result)) (.function (.reject s.result)))
  have isNew := registrations_of_inside fetched.inside (.function (.resolve s.result))
    (.function (.reject s.result))
  rw [fetched.sameRegistrations] at isNew
  have isSeen := fetched.sameView _ _ (raced.shown started)
  have isOwn : isEntrant s.result (⟨some (.resolve s.result), some (.reject s.result),
      (s.heap.promiseFor item).1.promises.length⟩ : Handler (Code User)) = true :=
    isEntrant_iff.mpr rfl
  constructor
  · apply raced.entered.register (evolves.orderly raced.entered.orderly)
      (isExtended.plain raced.entered.plain) evolves.grows isNew
    · intro q holds
      have isResult : q = s.result := by
        rcases holds with onFulfilled | onRejected
        · exact (Option.some.inj onFulfilled).symm
        · exact (Option.some.inj onRejected).symm
      subst isResult
      exact evolves.grows.inside (raced.inside started)
    · intro _
      constructor
      · exact fun _ => ⟨rfl, rfl⟩
      · exact (Nat.ne_of_lt (lt_of_view isSeen)).symm
    · intro _ q
      rw [List.mem_append, List.mem_singleton]
      exact or_congr_right (iff_self_and.mpr fun _ => isOwn)
    · exact fun isBefore => absurd isBefore started
  · intro _
    have sameExpected : (s.next item).expected = s.expected :=
      RaceState.expected_of_run rfl evolves.sameRun
    rw [sameExpected]
    exact view_callThen isSeen _ _ _

theorem Raced.finish (raced : Raced s) (looping : s.phase = .looping) :
    Raced { s with phase := .returned } := by
  have started : s.phase ≠ .before := by
    rw [looping]
    exact Phase.noConfusion
  constructor
  · constructor
    · exact raced.entered.orderly
    · exact raced.entered.plain
    · exact raced.entered.held
    · exact fun _ => raced.entered.fair started
    · exact fun _ => raced.entered.listed started
    · intro isBefore
      cases isBefore
  · exact fun _ => raced.shown started

end Loop

/-! ## The handlers -/

section Microtasks

variable {s : RaceState User} {job : Job (Code User)} {queue : List (Job (Code User))}

/-- The heap when a microtask has been taken from the queue. -/
def RaceState.taken (s : RaceState User) (job : Job (Code User)) (queue : List (Job (Code User))) :
    State (Code User) :=
  { s.heap with queue := queue }.note (.ran job)

theorem Entered.taken (entered : Entered s) (isQueue : s.heap.queue = job :: queue) :
    Entered { s with heap := s.taken job queue } :=
  entered.of_heap (orderly_dequeue isQueue entered.orderly) entered.plain
    (Grows.of_same rfl rfl) (registrations_ran s.heap.log job)

theorem Entered.fair_of_job (entered : Entered s) (started : s.phase ≠ .before)
    (isJob : job ∈ jobsRun s.heap.log ++ s.heap.queue) : Fair s.result job.handler :=
  entered.fair started job.registration (entered.orderly.registered isJob)

/-- A handler of an item settles the promise of the call. -/
theorem Entered.runs_own (entered : Entered s) (isQueue : s.heap.queue = job :: queue)
    (returned : s.phase = .returned) (isOwn : isEntrant s.result job.handler = true) :
    job.state ≠ .pending ∧ ∃ heap,
      { s with heap := { s.heap with queue := queue } }.runJob job = { s with heap := heap } ∧
      Evolves (s.taken job queue) heap ∧ Extends (s.taken job queue) heap ∧
      registrations heap.log = registrations s.heap.log ∧
      heap.view s.result =
        ((s.taken job queue).settle s.result job.state job.value).view s.result := by
  have started : s.phase ≠ .before := by
    rw [returned]
    exact Phase.noConfusion
  have isJob : job ∈ jobsRun s.heap.log ++ s.heap.queue := by
    rw [isQueue]
    exact List.mem_append_right _ List.mem_cons_self
  have fair := entered.fair_of_job started isJob
  obtain ⟨isResolve, isReject⟩ := fair.both (holds_of_entrant isOwn)
  obtain ⟨promise, isPromise, settled, sameState, sameValue⟩ := entered.orderly.carried job isJob
  have sameRegistrations := registrations_ran s.heap.log job
  have isOwned : ∀ heap : State (Code User), { s with heap := heap }.owns s.result = true := by
    intro heap
    rw [RaceState.owns, Bool.and_eq_true]
    exact ⟨decide_eq_true returned, decide_eq_true rfl⟩
  cases isState : job.state with
  | pending => exact absurd (sameState.symm.trans isState) settled
  | fulfilled =>
      have isPlain : job.value.isPlain = true := by
        rw [sameValue]
        exact entered.plain promise (List.mem_of_getElem? isPromise) (sameState.symm.trans isState)
      have isCallback : job.callback = some (.resolve s.result) := by
        rw [Job.callback, if_pos isState]
        exact isResolve
      have evolves := evolves_resolveAgain (s.taken job queue) s.result job.value
      have isExtended := extends_resolveAgain (s.taken job queue) s.result isPlain
      refine ⟨Status.noConfusion, _, ?_, evolves.trans (evolves_callResolve _ job.handler.next
        .undefined), isExtended.trans (extends_callResolve _ job.handler.next rfl), ?_, ?_⟩
      · rw [RaceState.runJob, isCallback]
        dsimp only
        rw [isOwned]
        rfl
      · rw [registrations_callResolve]
        exact (registrations_resolveAgain isPlain).trans sameRegistrations
      · rw [view_callResolve rfl fair.apart]
        exact view_resolveAgain isPlain s.result
  | rejected =>
      have isCallback : job.callback = some (.reject s.result) := by
        rw [Job.callback, isState, if_neg Status.noConfusion]
        exact isReject
      have evolves := evolves_callReject (s.taken job queue) s.result job.value
      have isExtended := extends_callReject (s.taken job queue) s.result job.value
      refine ⟨Status.noConfusion, _, ?_, evolves.trans (evolves_callResolve _ job.handler.next
        .undefined), isExtended.trans (extends_callResolve _ job.handler.next rfl), ?_, ?_⟩
      · rw [RaceState.runJob, isCallback]
        dsimp only
        rw [isOwned]
        rfl
      · rw [registrations_callResolve, registrations_callReject]
        exact sameRegistrations
      · rw [view_callResolve rfl fair.apart]
        exact view_callReject job.value

/-- Another handler does nothing to the promise of the call. -/
theorem Entered.runs_other (entered : Entered s) (isQueue : s.heap.queue = job :: queue)
    (notOwn : s.phase = .returned → isEntrant s.result job.handler = false) :
    { s with heap := { s.heap with queue := queue } }.runJob job =
      { s with heap := s.taken job queue } := by
  have isJob : job ∈ jobsRun s.heap.log ++ s.heap.queue := by
    rw [isQueue]
    exact List.mem_append_right _ List.mem_cons_self
  have notOwned : ∀ f q, job.callback = some f → f.target = some q →
      { s with heap := s.taken job queue }.owns q = false := by
    intro f q isCallback isTarget
    rw [RaceState.owns, Bool.and_eq_false_iff]
    by_cases returned : s.phase = .returned
    · apply Or.inr
      apply decide_eq_false
      intro same
      have started : s.phase ≠ .before := by
        rw [returned]
        exact Phase.noConfusion
      have holds := holds_of_callback isCallback isTarget
      rw [show q = s.result from same] at holds
      cases (notOwn returned).symm.trans
        ((entered.fair_of_job started isJob).entrant_iff.mpr holds)
    · exact Or.inl (decide_eq_false returned)
  rw [RaceState.runJob]
  dsimp only
  split
  next q isCallback => exact if_neg (Bool.eq_false_iff.mp (notOwned _ q isCallback rfl))
  next q isCallback => exact if_neg (Bool.eq_false_iff.mp (notOwned _ q isCallback rfl))
  next => rfl

theorem jobsRun_one {heap : State (Code User)} (evolves : Evolves (s.taken job queue) heap) :
    jobsRun heap.log = jobsRun s.heap.log ++ [job] :=
  evolves.sameRun.trans (jobsRun_ran s.heap.log job)

theorem firstRun_one {heap : State (Code User)} (evolves : Evolves (s.taken job queue) heap) :
    { s with heap := heap }.firstRun =
      s.firstRun.or (if isEntrant s.result job.handler then some job else none) := by
  rw [RaceState.firstRun, jobsRun_one evolves, List.find?_append, List.find?_singleton,
    RaceState.firstRun]

theorem Raced.ran (raced : Raced s) (isQueue : s.heap.queue = job :: queue)
    (notLooping : s.phase ≠ .looping) :
    Raced ({ s with heap := { s.heap with queue := queue } }.runJob job) := by
  have entered := raced.entered
  have taken := entered.taken isQueue
  by_cases isOwn : s.phase = .returned ∧ isEntrant s.result job.handler = true
  · obtain ⟨returned, isOwn⟩ := isOwn
    have started : s.phase ≠ .before := by
      rw [returned]
      exact Phase.noConfusion
    obtain ⟨settled, heap, isRun, evolves, isExtended, sameRegistrations, isView⟩ :=
      entered.runs_own isQueue returned isOwn
    rw [isRun]
    constructor
    · exact taken.of_heap (evolves.orderly taken.orderly) (isExtended.plain taken.plain)
        evolves.grows (sameRegistrations.trans (registrations_ran s.heap.log job).symm)
    · intro _
      have isSeen := raced.shown started
      rw [RaceState.expected] at isSeen
      show heap.view s.result = _
      rw [isView, RaceState.expected, firstRun_one evolves, isOwn]
      cases isFirst : s.firstRun with
      | some other =>
          rw [isFirst] at isSeen
          have otherJob : other ∈ jobsRun s.heap.log ++ s.heap.queue :=
            List.mem_append_left _ (List.mem_of_find?_eq_some isFirst)
          obtain ⟨promise, -, otherSettled, sameState, -⟩ := entered.orderly.carried other otherJob
          rw [← sameState] at otherSettled
          exact view_settle_settled (s := s.taken job queue) isSeen otherSettled
      | none =>
          rw [isFirst] at isSeen
          exact view_settle_pending (s := s.taken job queue) isSeen
  · have notOwn : s.phase = .returned → isEntrant s.result job.handler = false := fun returned =>
      Bool.eq_false_iff.mpr fun isEntrant => isOwn ⟨returned, isEntrant⟩
    rw [entered.runs_other isQueue notOwn]
    constructor
    · exact taken
    · intro started
      have returned : s.phase = .returned := by
        cases isPhase : s.phase with
        | before => exact absurd isPhase started
        | looping => exact absurd isPhase notLooping
        | returned => rfl
      have isSeen := raced.shown started
      rw [RaceState.expected] at isSeen
      rw [RaceState.expected, firstRun_one (Evolves.refl (s.taken job queue)), notOwn returned,
        if_neg Bool.false_ne_true, Option.or_none]
      exact isSeen

end Microtasks

/-! ## Runs -/

/-- What a step keeps of the promises, the microtasks and the call. -/
structure Follows (s next : RaceState User) : Prop where
  kept : Kept s.heap.promises next.heap.promises
  jobs : jobsRun s.heap.log ++ s.heap.queue <+: jobsRun next.heap.log ++ next.heap.queue
  started : s.phase ≠ .before → next.phase ≠ .before ∧ next.result = s.result
  standing : Standing s.shared → Standing next.shared

section Runs

variable {s next later : RaceState User}

theorem raced_initial : Raced (RaceState.initial : RaceState User) := by
  constructor
  · constructor
    · exact orderly_initial
    · intro promise member
      cases member
    · intro registration member
      cases member
    · exact fun started => absurd rfl started
    · exact fun started => absurd rfl started
    · exact fun _ => rfl
  · exact fun started => absurd rfl started

theorem standing_of_kept (standing : Standing s.shared)
    (kept : Kept s.heap.promises next.heap.promises) (sameItems : next.items = s.items)
    (sameInputs : next.inputs = s.inputs) : Standing next.shared :=
  standing.kept kept sameItems sameInputs

theorem standsFor_of_kept {item : Value (Code User)} {p : Nat} {heap : State (Code User)}
    (stands : { s.shared with heap := heap }.StandsFor item p)
    (kept : Kept heap.promises next.heap.promises) : next.shared.StandsFor item p :=
  stands.kept kept

theorem Follows.refl (s : RaceState User) : Follows s s where
  kept := Kept.refl s.heap.promises
  jobs := List.prefix_rfl
  started started := ⟨started, rfl⟩
  standing := id

theorem Follows.trans (first : Follows s next) (second : Follows next later) : Follows s later where
  kept := first.kept.trans second.kept
  jobs := first.jobs.trans second.jobs
  started started :=
    have middle := first.started started
    have last := second.started middle.1
    ⟨last.1, last.2.trans middle.2⟩
  standing := second.standing ∘ first.standing

theorem jobs_of_evolves {heap later : State (Code User)} (evolves : Evolves heap later)
    (isExtended : Extends heap later) :
    jobsRun heap.log ++ heap.queue <+: jobsRun later.log ++ later.queue := by
  rw [evolves.sameRun]
  exact (List.prefix_append_right_inj _).mpr isExtended.queue

theorem Follows.of_heap {heap : State (Code User)} (evolves : Evolves s.heap heap)
    (isExtended : Extends s.heap heap) : Follows s { s with heap := heap } where
  kept := evolves.kept
  jobs := jobs_of_evolves evolves isExtended
  started started := ⟨started, rfl⟩
  standing standing := standing_of_kept standing evolves.kept rfl rfl

theorem follows_next {item : Value (Code User)}
    (isKnown : s.heap.knowsValue item = true) : Follows s (s.next item) := by
  have fetched := fetched_promiseFor s.heap isKnown
  have called := evolves_callThen (s.heap.promiseFor item).1
    (.promise (s.heap.promiseFor item).2) (.function (.resolve s.result))
    (.function (.reject s.result))
  have evolves := fetched.evolves.trans called
  have isExtended := (extends_promiseFor s.heap item).trans (extends_callThen
    (s.heap.promiseFor item).1 (.promise (s.heap.promiseFor item).2)
    (.function (.resolve s.result)) (.function (.reject s.result)))
  constructor
  · exact evolves.kept
  · exact jobs_of_evolves evolves isExtended
  · intro started
    exact ⟨started, rfl⟩
  · intro standing
    have stands : (s.next item).shared.StandsFor item (s.heap.promiseFor item).2 :=
      standsFor_of_kept (standsFor_promiseFor s.shared item) called.kept
    have before : List.Forall₂ (s.next item).shared.StandsFor s.items s.inputs :=
      List.Forall₂.imp (fun _ _ stands => standsFor_of_kept stands evolves.kept) standing
    exact List.rel_append before (List.Forall₂.cons stands List.Forall₂.nil)

theorem follows_ran {job : Job (Code User)} {queue : List (Job (Code User))} (raced : Raced s)
    (isQueue : s.heap.queue = job :: queue) :
    Follows s ({ s with heap := { s.heap with queue := queue } }.runJob job) := by
  have entered := raced.entered
  have taken : Follows s { s with heap := s.taken job queue } := by
    constructor
    · exact Kept.refl s.heap.promises
    · show _ <+: jobsRun (s.heap.log ++ [.ran job]) ++ queue
      rw [jobsRun_ran, isQueue, List.append_assoc]
      exact List.prefix_rfl
    · intro started
      exact ⟨started, rfl⟩
    · intro standing
      exact standing_of_kept standing (Kept.refl s.heap.promises) rfl rfl
  by_cases isOwn : s.phase = .returned ∧ isEntrant s.result job.handler = true
  · obtain ⟨-, heap, isRun, evolves, isExtended, -⟩ := entered.runs_own isQueue isOwn.1 isOwn.2
    rw [isRun]
    exact taken.trans (Follows.of_heap evolves isExtended)
  · rw [entered.runs_other isQueue fun returned =>
      Bool.eq_false_iff.mpr fun isEntrant => isOwn ⟨returned, isEntrant⟩]
    exact taken

theorem Raced.step (raced : Raced s) {action : RaceState.Action User}
    (stepped : s.step action = some next) : Raced next ∧ Follows s next := by
  cases action with
  | create exposed =>
      cases stepped
      exact ⟨raced.create exposed, Follows.of_heap (evolves_allocate s.heap exposed)
        (extends_allocate s.heap exposed)⟩
  | settle p fulfils value =>
      rw [RaceState.step] at stepped
      split at stepped
      · cases stepped
      next accepted =>
        cases stepped
        have isOutcome := outcome_ne_pending fulfils
        have isPlain := isPlain_of_outcome fun isObject => accepted (Or.inr isObject)
        constructor
        · exact raced.settle isOutcome isPlain fun started same =>
            accepted (Or.inl ⟨started, same⟩)
        · exact Follows.of_heap (evolves_settle s.heap p value isOutcome)
            (extends_settle s.heap p _ value isPlain)
  | callThen this onFulfilled onRejected =>
      rw [RaceState.step] at stepped
      split at stepped
      next areKnown =>
        cases stepped
        rw [Bool.and_eq_true] at areKnown
        exact ⟨raced.callThen this areKnown.1 areKnown.2,
          Follows.of_heap (evolves_callThen s.heap this onFulfilled onRejected)
            (extends_callThen s.heap this onFulfilled onRejected)⟩
      next => cases stepped
  | begin =>
      rw [RaceState.step] at stepped
      split at stepped
      next isBefore =>
        cases stepped
        refine ⟨raced.begin isBefore, ?_⟩
        have evolves := evolves_allocate s.heap false
        constructor
        · exact evolves.kept
        · exact jobs_of_evolves evolves (extends_allocate s.heap false)
        · exact fun started => absurd isBefore started
        · intro standing
          exact standing_of_kept standing evolves.kept rfl rfl
      next => cases stepped
  | next item =>
      rw [RaceState.step] at stepped
      split at stepped
      next accepted =>
        cases stepped
        exact ⟨raced.next accepted.1 accepted.2.1, follows_next accepted.2.1⟩
      next => cases stepped
  | finish =>
      rw [RaceState.step] at stepped
      split at stepped
      next looping =>
        cases stepped
        refine ⟨raced.finish looping, ?_⟩
        constructor
        · exact Kept.refl s.heap.promises
        · exact List.prefix_rfl
        · exact fun _ => ⟨Phase.noConfusion, rfl⟩
        · exact id
      next => cases stepped
  | microtask =>
      rw [RaceState.step] at stepped
      split at stepped
      · cases stepped
      next job queue isQueue =>
        split at stepped
        · cases stepped
        next notLooping =>
          cases stepped
          exact ⟨raced.ran isQueue notLooping, follows_ran raced isQueue⟩

theorem Raced.run (raced : Raced s) {actions : List (RaceState.Action User)}
    (isRun : s.run actions = some later) : Raced later ∧ Follows s later := by
  induction actions generalizing s with
  | nil =>
      have same : s = later := Option.some.inj isRun
      subst same
      exact ⟨raced, Follows.refl s⟩
  | cons action actions induction =>
      obtain ⟨next, stepped, isRest⟩ := Option.bind_eq_some_iff.mp isRun
      have one := raced.step stepped
      have rest := induction one.1 isRest
      exact ⟨rest.1, one.2.trans rest.2⟩

end Runs

/-! ## The first input -/

/-- What the promise of the call shows, when `s` is a state of the call before. -/
structure RaceSettles (s later : RaceState User) (promise : Promise (Code User)) : Prop where
  items : List.Forall₂ later.shared.StandsFor later.items later.inputs
  /-- It waits for an input, and so for ever when there are no items. -/
  waits : (∀ p ∈ later.inputs, ¬ later.Settled p) → promise.state = .pending
  settles : later.phase = .returned → later.heap.queue = [] →
    (∃ p ∈ later.inputs, later.Settled p) → promise.state ≠ .pending
  shows : promise.state ≠ .pending → ∃ p ∈ later.inputs,
    later.shared.outcomeOf promise.state p = some promise.value
  /-- An input that has settled before the others decides. -/
  first : ∀ p ∈ s.inputs, s.Settled p → (∀ q ∈ s.inputs, s.Settled q → q = p) →
    promise.state ≠ .pending → later.shared.outcomeOf promise.state p = some promise.value

section First

variable {s later : RaceState User}

/-- The first microtask is that of an input, and has its outcome. -/
theorem Entered.leader_spec (entered : Entered s) (started : s.phase ≠ .before)
    {job : Job (Code User)} (isLeader : s.leader = some job) :
    job.promise ∈ s.inputs ∧ s.Settled job.promise ∧ job.state ≠ .pending ∧
      s.shared.outcomeOf job.state job.promise = some job.value := by
  have isJob := List.mem_of_find?_eq_some isLeader
  have isOwn := List.find?_some isLeader
  obtain ⟨promise, isPromise, settled, sameState, sameValue⟩ := entered.orderly.carried job isJob
  refine ⟨?_, ⟨promise, isPromise, settled⟩, ?_, ?_⟩
  · exact (entered.listed started job.promise).mpr
      ⟨job.handler, entered.orderly.registered isJob, isOwn⟩
  · rw [sameState]
    exact settled
  · exact outcomeOf_eq.mpr ⟨promise, isPromise, sameState.symm, sameValue.symm⟩

theorem Entered.leader_of_settled (entered : Entered s) (started : s.phase ≠ .before) {p : Nat}
    (isInput : p ∈ s.inputs) (isSettled : s.Settled p) : ∃ job, s.leader = some job := by
  obtain ⟨handler, isRegistered, isOwn⟩ := (entered.listed started p).mp isInput
  obtain ⟨promise, isPromise, settled⟩ := isSettled
  obtain ⟨job, isJob, -, isHandler⟩ :=
    entered.orderly.job_of_settled isRegistered isPromise settled
  apply Option.isSome_iff_exists.mp
  rw [RaceState.leader, List.find?_isSome]
  refine ⟨job, isJob, ?_⟩
  rw [isHandler]
  exact isOwn

theorem leader_of_firstRun {job : Job (Code User)} (isFirst : s.firstRun = some job) :
    s.leader = some job := by
  rw [RaceState.firstRun] at isFirst
  rw [RaceState.leader, List.find?_append, isFirst]
  rfl

theorem firstRun_of_leader (noJob : s.heap.queue = []) : s.firstRun = s.leader := by
  rw [RaceState.leader, noJob, List.append_nil]
  rfl

/-- The microtasks that come later are behind the first. -/
theorem Follows.leader (follows : Follows s later) (started : s.phase ≠ .before)
    {job : Job (Code User)} (isLeader : s.leader = some job) : later.leader = some job := by
  obtain ⟨rest, isLonger⟩ := follows.jobs
  rw [RaceState.leader] at isLeader
  rw [RaceState.leader, (follows.started started).2, ← isLonger, List.find?_append, isLeader]
  rfl

/-- A promise that has settled shows the outcome of the first microtask. -/
theorem leader_of_expected {promise : Promise (Code User)} (settled : promise.state ≠ .pending)
    (isState : promise.state = s.expected.1) (isValue : promise.value = s.expected.2.1) :
    ∃ job, s.leader = some job ∧ promise.state = job.state ∧ promise.value = job.value := by
  rw [RaceState.expected] at isState isValue
  cases isFirst : s.firstRun with
  | some job =>
      rw [isFirst] at isState isValue
      exact ⟨job, leader_of_firstRun isFirst, isState, isValue⟩
  | none =>
      rw [isFirst] at isState
      exact absurd isState settled

/-- In every run, the promise of a call of `race` takes the outcome of the input that has settled
first, whatever happens afterwards. -/
theorem race_settles {before actions : List (RaceState.Action User)}
    (isBefore : RaceState.initial.run before = some s) (started : s.phase ≠ .before)
    (isRun : s.run actions = some later) :
    ∃ promise, later.heap.promises[later.result]? = some promise ∧
      RaceSettles s later promise := by
  obtain ⟨raced, already⟩ := raced_initial.run isBefore
  obtain ⟨racedLater, follows⟩ := raced.run isRun
  have startedLater := (follows.started started).1
  have standing : Standing later.shared := (already.trans follows).standing List.Forall₂.nil
  obtain ⟨promise, isPromise, same⟩ := Option.map_eq_some_iff.mp (racedLater.shown startedLater)
  have isState : promise.state = later.expected.1 := congrArg Prod.fst same
  have isValue : promise.value = later.expected.2.1 := congrArg (fun seen => seen.2.1) same
  have entered := racedLater.entered
  refine ⟨promise, isPromise, ?_⟩
  constructor
  case items => exact standing
  case waits =>
    intro noneSettled
    by_contra settled
    obtain ⟨job, isLeader, -⟩ := leader_of_expected settled isState isValue
    obtain ⟨isInput, isSettled, -⟩ := entered.leader_spec startedLater isLeader
    exact noneSettled _ isInput isSettled
  case settles =>
    intro _ noJob someSettled
    obtain ⟨p, isInput, isSettled⟩ := someSettled
    obtain ⟨job, isLeader⟩ := entered.leader_of_settled startedLater isInput isSettled
    rw [RaceState.expected, firstRun_of_leader noJob, isLeader] at isState
    rw [isState]
    exact (entered.leader_spec startedLater isLeader).2.2.1
  case shows =>
    intro settled
    obtain ⟨job, isLeader, sameState, sameValue⟩ := leader_of_expected settled isState isValue
    obtain ⟨isInput, -, -, isOutcome⟩ := entered.leader_spec startedLater isLeader
    rw [sameState, sameValue]
    exact ⟨job.promise, isInput, isOutcome⟩
  case first =>
    intro p isInput isSettled alone settled
    obtain ⟨job, isLeader⟩ := raced.entered.leader_of_settled started isInput isSettled
    obtain ⟨jobInput, jobSettled, -⟩ := raced.entered.leader_spec started isLeader
    obtain ⟨other, isOther, sameState, sameValue⟩ := leader_of_expected settled isState isValue
    have isLeaderLater := follows.leader started isLeader
    obtain rfl : other = job := Option.some.inj (isOther.symm.trans isLeaderLater)
    obtain ⟨-, -, -, isOutcome⟩ := entered.leader_spec startedLater isLeaderLater
    rw [alone _ jobInput jobSettled] at isOutcome
    rw [sameState, sameValue]
    exact isOutcome

/-- The second of two promises is rejected, and then the first is fulfilled. -/
def secondRejected : List (RaceState.Action Nat) :=
  [.create true, .create true, .begin, .next (.promise 0), .next (.promise 1), .finish,
    .settle 1 false (.primitive (.program 7))]

def firstFulfilled : List (RaceState.Action Nat) :=
  [.settle 0 true (.primitive (.program 5)), .microtask, .microtask]

theorem race_settles_second_rejected :
    ∃ s later promise, RaceState.initial.run secondRejected = some s ∧
      s.run firstFulfilled = some later ∧ later.heap.promises[later.result]? = some promise ∧
      promise.state = .rejected ∧ promise.value = .primitive (.program 7) ∧
      RaceSettles s later promise := by
  obtain ⟨promise, isPromise, settles⟩ := race_settles
    (show RaceState.initial.run secondRejected = some _ from rfl) Phase.noConfusion
    (show RaceState.run _ firstFulfilled = some _ from rfl)
  have isShown := Option.some.inj isPromise
  refine ⟨_, _, promise, rfl, rfl, isPromise, ?_, ?_, settles⟩
  · rw [← isShown]
  · rw [← isShown]

end First

end FoundationsLab.Promises
