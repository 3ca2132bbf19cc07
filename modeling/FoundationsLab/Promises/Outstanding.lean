import FoundationsLab.Promises.Counting

/-! # `APromise.all` in any order

The accounts of the call are kept by every step of the program and of the call. -/

namespace FoundationsLab.Promises

variable {User : Type}

structure Accounted (s : AllState User) : Prop where
  registered : Registered s
  counted : Counted s

section Program

variable {s : AllState User}

theorem lt_of_view {heap : State (Code User)} {p : Nat}
    {seen : Status × Value (Code User) × Bool} (isSeen : heap.view p = some seen) :
    p < heap.promises.length := by
  rw [State.view] at isSeen
  obtain ⟨promise, isPromise, -⟩ := Option.map_eq_some_iff.mp isSeen
  exact lt_of_getElem? isPromise

/-- The heap changes, and no handler is registered or run. -/
theorem Accounted.of_heap (accounted : Accounted s) {heap : State (Code User)}
    (evolves : Evolves s.heap heap)
    (sameRegistrations : registrations heap.log = registrations s.heap.log)
    (sameView : s.phase ≠ .before → heap.view s.result = s.heap.view s.result) :
    Accounted { s with heap := heap } where
  registered := accounted.registered.of_heap (evolves.orderly accounted.registered.orderly)
    evolves.grows sameRegistrations Iff.rfl rfl rfl rfl
  counted := accounted.counted.of_heap evolves.sameRun sameView

theorem Accounted.create (accounted : Accounted s) (exposed : Bool) :
    Accounted { s with heap := s.heap.allocate exposed } := by
  apply accounted.of_heap (evolves_allocate s.heap exposed) rfl
  intro started
  have isSeen := accounted.counted.shown started
  exact (view_allocate isSeen exposed).trans isSeen.symm

theorem Accounted.settle (accounted : Accounted s) {p : Nat} {state : Status}
    (value : Value (Code User)) (isOutcome : state ≠ .pending)
    (other : s.phase ≠ .before → p ≠ s.result) :
    Accounted { s with heap := s.heap.settle p state value } := by
  apply accounted.of_heap (evolves_settle s.heap p value isOutcome)
  · rw [settle_log]
  · exact fun started => view_settle_ne (other started)

theorem elementOf_foreign {onFulfilled : Value (Code User)}
    (isForeign : AllState.isElement onFulfilled = false) (onRejected : Option (Function (Code User)))
    (next : Nat) : elementOf ⟨onFulfilled.asFunction, onRejected, next⟩ = none := by
  rw [elementOf]
  split
  next i isElement =>
    cases onFulfilled with
    | function f =>
        cases isElement
        cases isForeign
    | _ => cases isElement
  next => rfl

theorem Accounted.callThen (accounted : Accounted s) (this : Value (Code User))
    {onFulfilled onRejected : Value (Code User)} (fulfilled : s.foreign onFulfilled = true)
    (rejected : s.foreign onRejected = true) :
    Accounted { s with heap := s.heap.callThen this onFulfilled onRejected } := by
  have evolves := evolves_callThen s.heap this onFulfilled onRejected
  have sameView : s.phase ≠ .before →
      (s.heap.callThen this onFulfilled onRejected).view s.result = s.heap.view s.result := by
    intro started
    have isSeen := accounted.counted.shown started
    exact (view_callThen isSeen this onFulfilled onRejected).trans isSeen.symm
  rcases registrations_callThen s.heap this onFulfilled onRejected with same | ⟨p, -, isNew⟩
  · exact accounted.of_heap evolves same sameView
  · rw [AllState.foreign, Bool.and_eq_true, Bool.not_eq_true'] at fulfilled rejected
    have known : ∀ value : Value (Code User), s.heap.knowsValue value = true → ∀ q,
        value.asFunction = some (.reject q) → s.heap.knows (.reject q) = true := by
      intro value isKnown q isRefusing
      cases value with
      | function f =>
          cases isRefusing
          exact isKnown
      | _ => cases isRefusing
    have notOwn := elementOf_foreign fulfilled.2 onRejected.asFunction s.heap.promises.length
    constructor
    · apply accounted.registered.foreign (evolves.orderly accounted.registered.orderly)
        evolves.grows isNew notOwn
      constructor
      · intro i isElement
        cases notOwn.symm.trans isElement
      · intro _ q isRefusing
        apply evolves.grows.knows
        rcases isRefusing with onFulfilled | onRejected
        · exact known _ fulfilled.1 q onFulfilled
        · exact known _ rejected.1 q onRejected
      · intro i isElement
        cases onRejected with
        | function f =>
            cases isElement
            cases rejected.2
        | _ => cases isElement
      · intro started
        have inside := lt_of_view (accounted.counted.shown started)
        exact (Nat.ne_of_lt inside).symm
    · exact accounted.counted.of_heap evolves.sameRun sameView

end Program

/-! ## The loop -/

section Loop

variable {s : AllState User}

theorem firstRejection_none {log : List (Event (Code User))}
    (notYet : ∀ job ∈ jobsRun log, elementOf job.handler = none) : firstRejection log = none := by
  rw [firstRejection, List.find?_eq_none]
  intro job member isRejected
  rw [isRejection, notYet job member] at isRejected
  cases isRejected

theorem Accounted.begin (accounted : Accounted s) (isBefore : s.phase = .before) :
    Accounted s.begin := by
  have registered := accounted.registered
  have evolves := evolves_allocate s.heap false
  have noOwn : ∀ registration ∈ registrations s.heap.log, elementOf registration.2 = none := by
    intro registration member
    have isOwn := registered.own
    rw [registered.unstarted isBefore, ownRegistrations, List.zipIdx_nil,
      List.filterMap_eq_nil_iff] at isOwn
    have notListed := isOwn registration member
    rw [ownRegistration] at notListed
    exact Option.map_eq_none_iff.mp notListed
  constructor
  · constructor
    · exact evolves.orderly registered.orderly
    · exact registered.own
    · exact registered.indexed
    · intro registration member
      constructor
      · intro i isElement
        cases (noOwn registration member).symm.trans isElement
      · intro notOwn q isRefusing
        exact evolves.grows.knows ((registered.lawful registration member).hidden notOwn q isRefusing)
      · exact (registered.lawful registration member).plain
      · exact fun _ => Nat.ne_of_lt (registered.orderly.older registration member)
    · intro isBefore
      cases isBefore
  · constructor
    · exact accounted.counted.stored
    · exact accounted.counted.counted
    · exact accounted.counted.short
    · intro _
      exact accounted.counted.notYet (by rw [isBefore]; exact Phase.noConfusion)
    · intro _
      have noRejection : firstRejection s.begin.heap.log = none :=
        firstRejection_none (accounted.counted.notYet (by rw [isBefore]; exact Phase.noConfusion))
      rw [expected, noRejection]
      show (s.heap.allocate false).view s.heap.promises.length = some (.pending, .undefined, false)
      rw [State.view, State.allocate, List.getElem?_concat_length]
      rfl

/-- The promise of an item exists, and is not that of the call. -/
structure Fetched (heap : State (Code User)) (fetched : State (Code User) × Nat) : Prop where
  evolves : Evolves heap fetched.1
  sameRegistrations : registrations fetched.1.log = registrations heap.log
  inside : fetched.2 < fetched.1.promises.length
  sameView : ∀ q seen, heap.view q = some seen → fetched.1.view q = some seen

theorem fetched_promiseFor (heap : State (Code User)) {item : Value (Code User)}
    (isKnown : heap.knowsValue item = true) : Fetched heap (heap.promiseFor item) := by
  have fresh : ∀ value : Value (Code User), Fetched heap
      (if value.isObject then heap.allocate false
        else (heap.allocate false).callResolve heap.promises.length value, heap.promises.length) := by
    intro value
    have longer : heap.promises.length < (heap.allocate false).promises.length := by
      rw [State.allocate, List.length_append, List.length_singleton]
      omega
    cases isObject : value.isObject with
    | true =>
        constructor
        · exact evolves_allocate heap false
        · rfl
        · exact longer
        · exact fun q seen isSeen => view_allocate isSeen false
    | false =>
        have evolves := evolves_callResolve (heap.allocate false) heap.promises.length value
        constructor
        · exact (evolves_allocate heap false).trans evolves
        · exact registrations_callResolve (heap.allocate false) _ _
        · exact evolves.grows.inside longer
        · intro q seen isSeen
          have different : heap.promises.length ≠ q := (Nat.ne_of_lt (lt_of_view isSeen)).symm
          exact (view_callResolve isObject different).trans (view_allocate isSeen false)
  cases item with
  | promise p =>
      constructor
      · exact Evolves.refl heap
      · rfl
      · exact of_decide_eq_true isKnown
      · exact fun _ _ isSeen => isSeen
  | undefined => exact fresh .undefined
  | primitive data => exact fresh (.primitive data)
  | object data => exact fresh (.object data)
  | typeError => exact fresh .typeError
  | function f => exact fresh (.function f)

/-- `then` is called on a promise, which notes the handler. -/
theorem registrations_of_inside {heap : State (Code User)} {p : Nat}
    (inside : p < heap.promises.length) (onFulfilled onRejected : Value (Code User)) :
    registrations (heap.callThen (.promise p) onFulfilled onRejected).log =
      registrations heap.log ++
        [(p, ⟨onFulfilled.asFunction, onRejected.asFunction, heap.promises.length⟩)] := by
  have isPromise : heap.promiseOf (.promise p) = some p := if_pos inside
  have sameLog := register_log (heap.allocate false) p
    ⟨onFulfilled.asFunction, onRejected.asFunction, heap.promises.length⟩
  rw [State.callThen, isPromise]
  show registrations (_ ++ [_]) = _
  rw [sameLog, registrations_registered]
  rfl

theorem next_heap (s : AllState User) (item : Value (Code User)) :
    (s.next item).heap = (s.heap.promiseFor item).1.callThen (.promise (s.heap.promiseFor item).2)
      (.function (.user (.element s.index))) (.function (.reject s.result)) := by
  rfl

theorem next_inputs (s : AllState User) (item : Value (Code User)) :
    (s.next item).inputs = s.inputs ++ [(s.heap.promiseFor item).2] := by
  rfl

theorem Accounted.next (accounted : Accounted s) {item : Value (Code User)}
    (looping : s.phase = .looping) (isKnown : s.heap.knowsValue item = true) :
    Accounted (s.next item) := by
  have started : s.phase ≠ .before := by
    rw [looping]
    exact Phase.noConfusion
  have registered := accounted.registered
  have counted := accounted.counted
  have isSeen := counted.shown started
  have fetched := fetched_promiseFor s.heap isKnown
  have evolves := fetched.evolves.trans (evolves_callThen (s.heap.promiseFor item).1
    (.promise (s.heap.promiseFor item).2) (.function (.user (.element s.index)))
    (.function (.reject s.result)))
  have isNew := registrations_of_inside fetched.inside (.function (.user (.element s.index)))
    (.function (.reject s.result))
  rw [fetched.sameRegistrations] at isNew
  have isApart : (s.heap.promiseFor item).1.promises.length ≠ s.result :=
    (Nat.ne_of_lt (lt_of_view (fetched.sameView _ _ isSeen))).symm
  have notRun := counted.notYet (by rw [looping]; exact Phase.noConfusion)
  have noRejection : firstRejection s.heap.log = none := firstRejection_none notRun
  constructor
  · constructor
    · exact evolves.orderly registered.orderly
    · rw [ownRegistrations, next_heap, next_inputs, isNew, List.filterMap_append,
        List.zipIdx_append, Nat.zero_add]
      have isOwn := registered.own
      rw [ownRegistrations] at isOwn
      rw [isOwn, ← registered.indexed]
      rfl
    · rw [next_inputs, List.length_append, List.length_singleton, ← registered.indexed]
      rfl
    · intro registration member
      rw [next_heap, isNew] at member
      rcases List.mem_append.mp member with old | isLast
      · exact (registered.lawful registration old).of_heap evolves.grows Iff.rfl rfl
      · cases List.mem_singleton.mp isLast
        constructor
        · intro i _
          rfl
        · intro notOwn
          cases notOwn
        · intro i isElement
          cases isElement
        · exact fun _ => isApart
    · intro isBefore
      exact absurd isBefore started
  · constructor
    · rw [next_heap, evolves.sameRun]
      exact counted.stored
    · show s.remaining + 1 = ((holes s.results (s.index + 1) : Nat) : Int)
      rw [holes_succ, read_of_length_le counted.short, counted.counted]
      rfl
    · exact Nat.le_succ_of_le counted.short
    · intro _
      rw [next_heap, evolves.sameRun]
      exact notRun
    · intro _
      have sameExpected : expected (s.next item) = expected s := by
        have noRejection' : firstRejection (s.next item).heap.log = none := by
          rw [firstRejection, next_heap, evolves.sameRun]
          exact noRejection
        rw [expected, expected, noRejection, noRejection',
          show (s.next item).phase = .looping from looping, looping]
        rfl
      rw [sameExpected, next_heap]
      exact view_callThen (fetched.sameView _ _ isSeen) _ _ _

theorem Accounted.finish (accounted : Accounted s) (looping : s.phase = .looping) :
    Accounted s.finish := by
  have started : s.phase ≠ .before := by
    rw [looping]
    exact Phase.noConfusion
  have registered := accounted.registered
  have counted := accounted.counted
  have isSeen := counted.shown started
  have notRun := counted.notYet (by rw [looping]; exact Phase.noConfusion)
  have noRejection : firstRejection s.heap.log = none := firstRejection_none notRun
  have notSettled : ¬ (s.phase = .returned ∧ s.remaining = 0) := by
    rw [looping]
    exact fun both => Phase.noConfusion both.1
  rw [expected, noRejection] at isSeen
  dsimp only at isSeen
  rw [if_neg notSettled] at isSeen
  have noResult : ∀ i, read s.results i = none := by
    intro i
    cases isRead : read s.results i with
    | none => rfl
    | some value =>
        obtain ⟨job, isRun, isElement, -⟩ := (counted.stored i value).mp isRead
        cases (notRun job isRun).symm.trans isElement
  have allOpen : s.remaining = s.index := by
    rw [counted.counted, holes_all noResult]
  have evolves : Evolves s.heap s.finish.heap := by
    show Evolves s.heap (if s.index = 0 then _ else s.heap)
    split
    · exact evolves_resolveArray
    · exact Evolves.refl s.heap
  have sameRegistrations : registrations s.finish.heap.log = registrations s.heap.log := by
    show registrations (State.log (if s.index = 0 then _ else s.heap)) = _
    split
    · exact registrations_resolveArray s.heap s.result .empty
    · rfl
  have phases : s.finish.phase = .before ↔ s.phase = .before := by
    rw [looping]
    exact ⟨Phase.noConfusion, Phase.noConfusion⟩
  constructor
  · exact registered.of_heap (evolves.orderly registered.orderly) evolves.grows sameRegistrations
      phases rfl rfl rfl
  · constructor
    · rw [evolves.sameRun]
      exact counted.stored
    · exact counted.counted
    · exact counted.short
    · intro notReturned
      exact absurd rfl notReturned
    · intro _
      have noRejection' : firstRejection s.finish.heap.log = none := by
        rw [firstRejection, evolves.sameRun]
        exact noRejection
      rw [expected, noRejection']
      show State.view (if s.index = 0 then _ else s.heap) s.result =
        some (if Phase.returned = .returned ∧ s.remaining = 0 then
          (.fulfilled, .object (if s.index = 0 then .empty else .results), false)
          else (.pending, .undefined, false))
      by_cases isEmpty : s.index = 0
      · have isZero : s.remaining = 0 := by omega
        rw [if_pos isEmpty, if_pos ⟨rfl, isZero⟩, if_pos isEmpty, view_resolveArray,
          view_settle_pending isSeen]
      · have notZero : s.remaining ≠ 0 := by omega
        rw [if_neg isEmpty, if_neg fun both => notZero both.2]
        exact isSeen

end Loop

/-! ## The handlers -/

section Microtasks

variable {s : AllState User} {job : Job (Code User)} {queue : List (Job (Code User))}

theorem Registered.input_of_job (registered : Registered s)
    (isJob : job ∈ jobsRun s.heap.log ++ s.heap.queue) {i : Nat}
    (isElement : elementOf job.handler = some i) : s.inputs[i]? = some job.promise := by
  have isOwn : (job.promise, i) ∈ ownRegistrations s.heap.log := by
    apply List.mem_filterMap.mpr
    refine ⟨job.registration, registered.orderly.registered isJob, ?_⟩
    rw [ownRegistration, show elementOf job.registration.2 = some i from isElement]
    rfl
  rw [registered.own] at isOwn
  exact List.mk_mem_zipIdx_iff_getElem?.mp isOwn

/-- A callback of an item is run once. -/
theorem Registered.once (registered : Registered s) (isQueue : s.heap.queue = job :: queue) {i : Nat}
    (isElement : elementOf job.handler = some i) :
    ∀ other ∈ jobsRun s.heap.log, elementOf other.handler ≠ some i := by
  intro other isRun otherElement
  have isJob : job ∈ jobsRun s.heap.log ++ s.heap.queue := by
    rw [isQueue]
    exact List.mem_append_right _ List.mem_cons_self
  have isOther : other ∈ jobsRun s.heap.log ++ s.heap.queue := List.mem_append_left _ isRun
  have samePromise : other.promise = job.promise := by
    have first := registered.input_of_job isOther otherElement
    exact Option.some.inj (first.symm.trans (registered.input_of_job isJob isElement))
  have listedOnce : (ownRegistrations s.heap.log).Nodup := by
    rw [registered.own]
    apply List.Nodup.of_map Prod.snd
    rw [List.zipIdx_map_snd]
    exact List.nodup_range'
  have same : other.registration = job.registration := by
    apply eq_of_nodup_filterMap listedOnce (registered.orderly.registered isOther)
      (registered.orderly.registered isJob)
    · rw [ownRegistration, show elementOf other.registration.2 = some i from otherElement]
      rfl
    · rw [ownRegistration, show elementOf job.registration.2 = some i from isElement]
      exact congrArg (fun p => some (p, i)) samePromise.symm
  have sameNext : other.handler.next = job.handler.next := congrArg (fun pair => pair.2.next) same
  have nodup := registered.orderly.jobs_once
  rw [isQueue, List.map_append, List.map_cons, List.nodup_append] at nodup
  exact nodup.2.2 _ (List.mem_map_of_mem isRun) _ List.mem_cons_self sameNext

/-- One more handler has run. -/
theorem firstRejection_ran_one {log later : List (Event (Code User))}
    (ranOne : jobsRun later = jobsRun log ++ [job]) :
    firstRejection later = (firstRejection log).or (if isRejection job then some job else none) := by
  rw [firstRejection, ranOne, List.find?_append, List.find?_singleton, firstRejection]

theorem exists_mem_concat {jobs : List (Job (Code User))} {P : Job (Code User) → Prop} :
    (∃ other ∈ jobs ++ [job], P other) ↔ (∃ other ∈ jobs, P other) ∨ P job := by
  constructor
  · rintro ⟨other, isRun, holds⟩
    rcases List.mem_append.mp isRun with isRun | isLast
    · exact Or.inl ⟨other, isRun, holds⟩
    · exact Or.inr (List.mem_singleton.mp isLast ▸ holds)
  · rintro (⟨other, isRun, holds⟩ | holds)
    · exact ⟨other, List.mem_append_left _ isRun, holds⟩
    · exact ⟨job, List.mem_append_right _ List.mem_cons_self, holds⟩

/-- The heap after a microtask has been taken from the queue. -/
def AllState.taken (s : AllState User) (job : Job (Code User)) (queue : List (Job (Code User))) :
    State (Code User) := { s.heap with queue := queue }.note (.ran job)

theorem jobsRun_taken (s : AllState User) (job : Job (Code User)) (queue : List (Job (Code User))) :
    jobsRun (s.taken job queue).log = jobsRun s.heap.log ++ [job] := jobsRun_ran s.heap.log job

theorem Registered.taken (registered : Registered s) (isQueue : s.heap.queue = job :: queue) :
    Registered { s with heap := s.taken job queue } := by
  have grows : Grows s.heap (s.taken job queue) := Grows.of_same rfl rfl
  exact registered.of_heap (orderly_dequeue isQueue registered.orderly) grows
    (registrations_ran s.heap.log job) Iff.rfl rfl rfl rfl

/-- A handler of the program runs. -/
theorem Accounted.ran_foreign (accounted : Accounted s) (isQueue : s.heap.queue = job :: queue)
    (notOwn : elementOf job.handler = none) :
    Accounted { s with heap := s.taken job queue } := by
  have counted := accounted.counted
  constructor
  · exact accounted.registered.taken isQueue
  · constructor
    · intro i value
      rw [counted.stored i value, jobsRun_taken, exists_mem_concat]
      apply (or_iff_left ?_).symm
      rintro ⟨isElement, -⟩
      cases notOwn.symm.trans isElement
    · exact counted.counted
    · exact counted.short
    · intro notReturned
      rw [jobsRun_taken]
      intro other isRun
      rcases List.mem_append.mp isRun with isRun | isLast
      · exact counted.notYet notReturned other isRun
      · cases List.mem_singleton.mp isLast
        exact notOwn
    · intro started
      have notRejection : isRejection job = false := by
        rw [isRejection, notOwn]
        rfl
      have sameFirst : firstRejection (s.taken job queue).log = firstRejection s.heap.log := by
        rw [firstRejection_ran_one (jobsRun_taken s job queue), notRejection]
        exact Option.or_none
      have sameExpected : expected { s with heap := s.taken job queue } = expected s := by
        rw [expected, expected, sameFirst]
      rw [sameExpected]
      exact counted.shown started

theorem Accounted.isOpen (accounted : Accounted s) (isQueue : s.heap.queue = job :: queue) {i : Nat}
    (isElement : elementOf job.handler = some i) : read s.results i = none ∧ i < s.index := by
  constructor
  · cases isRead : read s.results i with
    | none => rfl
    | some value =>
        obtain ⟨other, isRun, otherElement, -⟩ := (accounted.counted.stored i value).mp isRead
        exact absurd otherElement (accounted.registered.once isQueue isElement other isRun)
  · have isJob : job ∈ jobsRun s.heap.log ++ s.heap.queue := by
      rw [isQueue]
      exact List.mem_append_right _ List.mem_cons_self
    rw [accounted.registered.indexed]
    exact lt_of_getElem? (accounted.registered.input_of_job isJob isElement)

/-- While an item has no result, the promise of the call is pending or has been rejected. -/
theorem expected_of_open {i : Nat} (accounted : Accounted s) (isHole : read s.results i = none)
    (inside : i < s.index) : expected s =
      match firstRejection s.heap.log with
      | some other => (.rejected, other.value, false)
      | none => (.pending, .undefined, false) := by
  have notZero : s.remaining ≠ 0 := by
    have positive := holes_pos isHole inside
    rw [accounted.counted.counted]
    omega
  rw [expected]
  cases firstRejection s.heap.log with
  | some other => rfl
  | none => exact if_neg fun both => notZero both.2

/-- The callback of an item runs with its value. -/
theorem Accounted.ran_fulfilled (accounted : Accounted s) (isQueue : s.heap.queue = job :: queue)
    {i : Nat} (isElement : elementOf job.handler = some i) (isFulfilled : job.state = .fulfilled)
    (returned : s.phase = .returned) :
    Accounted ({ s with heap := s.taken job queue }.element i job.value) := by
  have counted := accounted.counted
  obtain ⟨isHole, inside⟩ := accounted.isOpen isQueue isElement
  have started : s.phase ≠ .before := by
    rw [returned]
    exact Phase.noConfusion
  have isSeen := counted.shown started
  rw [expected_of_open accounted isHole inside] at isSeen
  have filled := holes_assign job.value isHole inside
  have notEmpty : s.index ≠ 0 := by omega
  -- The array resolves the promise of the call, or nothing else happens to the heap.
  have stepped : ∃ heap, { s with heap := s.taken job queue }.element i job.value =
      { s with heap := heap, results := assign s.results i job.value, remaining := s.remaining - 1 } ∧
      Evolves (s.taken job queue) heap ∧
      registrations heap.log = registrations (s.taken job queue).log ∧
      heap.view s.result = if s.remaining - 1 = 0 then
        ((s.taken job queue).settle s.result .fulfilled (.object .results)).view s.result
        else s.heap.view s.result := by
    rw [AllState.element]
    dsimp only
    split
    · exact ⟨_, rfl, evolves_resolveArray, registrations_resolveArray _ _ _, view_resolveArray⟩
    · exact ⟨_, rfl, Evolves.refl _, rfl, rfl⟩
  obtain ⟨heap, isElementState, evolves, sameRegistrations, isView⟩ := stepped
  rw [isElementState]
  have ranHere : jobsRun heap.log = jobsRun s.heap.log ++ [job] :=
    evolves.sameRun.trans (jobsRun_taken s job queue)
  have notRejection : isRejection job = false := by
    rw [isRejection, isFulfilled]
    exact Bool.and_false _
  have sameFirst : firstRejection heap.log = firstRejection s.heap.log := by
    rw [firstRejection_ran_one ranHere, notRejection]
    exact Option.or_none
  constructor
  · have registered := accounted.registered.taken isQueue
    exact registered.of_heap (evolves.orderly registered.orderly) evolves.grows sameRegistrations
      Iff.rfl rfl rfl rfl
  · constructor
    · intro j value
      show read (assign s.results i job.value) j = some value ↔ ∃ other ∈ jobsRun heap.log, _
      rw [read_assign, ranHere, exists_mem_concat]
      by_cases same : j = i
      · subst same
        rw [if_pos rfl]
        constructor
        · intro isValue
          exact Or.inr ⟨isElement, isFulfilled, Option.some.inj isValue⟩
        · rintro (⟨other, isRun, otherElement, -⟩ | ⟨-, -, isValue⟩)
          · exact absurd otherElement (accounted.registered.once isQueue isElement other isRun)
          · exact congrArg some isValue
      · rw [if_neg same, counted.stored j value]
        apply (or_iff_left ?_).symm
        rintro ⟨otherElement, -⟩
        exact same (Option.some.inj (otherElement.symm.trans isElement))
    · show s.remaining - 1 = (holes (assign s.results i job.value) s.index : Int)
      rw [counted.counted]
      omega
    · exact length_assign job.value counted.short inside
    · intro notReturned
      exact absurd returned notReturned
    · intro _
      show heap.view s.result = some (expected _)
      rw [isView, expected]
      dsimp only
      rw [sameFirst]
      cases isFirst : firstRejection s.heap.log with
      | some other =>
          rw [isFirst] at isSeen
          dsimp only
          split
          · exact view_settle_settled (s := s.taken job queue) isSeen Status.noConfusion
          · exact isSeen
      | none =>
          rw [isFirst] at isSeen
          dsimp only
          by_cases isZero : s.remaining - 1 = 0
          · rw [if_pos isZero, if_pos ⟨returned, isZero⟩, if_neg notEmpty]
            exact view_settle_pending (s := s.taken job queue) isSeen
          · rw [if_neg isZero, if_neg fun both => isZero both.2]
            exact isSeen

/-- The rejection handler of an item runs. -/
theorem Accounted.ran_rejected (accounted : Accounted s) (isQueue : s.heap.queue = job :: queue)
    {i : Nat} (isElement : elementOf job.handler = some i) (isRejected : job.state = .rejected)
    (returned : s.phase = .returned) :
    Accounted { s with heap := (s.taken job queue).callReject s.result job.value } := by
  have counted := accounted.counted
  obtain ⟨isHole, inside⟩ := accounted.isOpen isQueue isElement
  have started : s.phase ≠ .before := by
    rw [returned]
    exact Phase.noConfusion
  have isSeen := counted.shown started
  rw [expected_of_open accounted isHole inside] at isSeen
  have evolves := evolves_callReject (s.taken job queue) s.result job.value
  have ranHere : jobsRun ((s.taken job queue).callReject s.result job.value).log =
      jobsRun s.heap.log ++ [job] := evolves.sameRun.trans (jobsRun_taken s job queue)
  have isRejection : isRejection job = true := by
    rw [isRejection, isElement, isRejected]
    rfl
  have isFirst : firstRejection ((s.taken job queue).callReject s.result job.value).log =
      (firstRejection s.heap.log).or (some job) := by
    rw [firstRejection_ran_one ranHere, isRejection]
    rfl
  constructor
  · have registered := accounted.registered.taken isQueue
    exact registered.of_heap (evolves.orderly registered.orderly) evolves.grows
      (registrations_callReject _ _ _) Iff.rfl rfl rfl rfl
  · constructor
    · intro j value
      rw [counted.stored j value, ranHere, exists_mem_concat]
      apply (or_iff_left ?_).symm
      rintro ⟨-, isFulfilled, -⟩
      cases isRejected.symm.trans isFulfilled
    · exact counted.counted
    · exact counted.short
    · intro notReturned
      exact absurd returned notReturned
    · intro _
      rw [expected, isFirst, view_callReject]
      cases isOld : firstRejection s.heap.log with
      | some other =>
          rw [isOld] at isSeen
          exact view_settle_settled (s := s.taken job queue) isSeen Status.noConfusion
      | none =>
          rw [isOld] at isSeen
          exact view_settle_pending (s := s.taken job queue) isSeen

/-- The promise of the call is not one that `then` has returned. -/
theorem Accounted.resolveNext (accounted : Accounted s) {next : Nat}
    (isApart : s.phase ≠ .before → next ≠ s.result) :
    Accounted { s with heap := s.heap.callResolve next .undefined } := by
  apply accounted.of_heap (evolves_callResolve s.heap next .undefined)
    (registrations_callResolve s.heap next .undefined)
  exact fun started => view_callResolve rfl (isApart started)

theorem Accounted.ran_own (accounted : Accounted s) (isQueue : s.heap.queue = job :: queue)
    {i : Nat} (isElement : elementOf job.handler = some i) (notLooping : s.phase ≠ .looping) :
    Accounted ({ s with heap := { s.heap with queue := queue } }.runJob job) := by
  have registered := accounted.registered
  have isJob : job ∈ jobsRun s.heap.log ++ s.heap.queue := by
    rw [isQueue]
    exact List.mem_append_right _ List.mem_cons_self
  have lawful := registered.lawful _ (registered.orderly.registered isJob)
  have returned : s.phase = .returned := by
    cases isPhase : s.phase with
    | before =>
        have isInput := registered.input_of_job isJob isElement
        rw [registered.unstarted isPhase] at isInput
        cases isInput
    | looping => exact absurd isPhase notLooping
    | returned => rfl
  cases isState : job.state with
  | pending =>
      obtain ⟨promise, -, settled, sameState, -⟩ := registered.orderly.carried job isJob
      exact absurd (sameState.symm.trans isState) settled
  | fulfilled =>
      have isCallback : job.callback = some (.user (.element i)) := by
        rw [Job.callback, if_pos isState]
        exact elementOf_eq.mp isElement
      have ran := accounted.ran_fulfilled isQueue isElement isState returned
      have samePlace : ({ s with heap := s.taken job queue }.element i job.value).phase = s.phase ∧
          ({ s with heap := s.taken job queue }.element i job.value).result = s.result := by
        rw [AllState.element]
        dsimp only
        split
        · exact ⟨rfl, rfl⟩
        · exact ⟨rfl, rfl⟩
      rw [AllState.runJob]
      dsimp only
      rw [isCallback]
      apply ran.resolveNext
      rw [samePlace.1, samePlace.2]
      exact lawful.apart
  | rejected =>
      have isCallback : job.callback = some (.reject s.result) := by
        rw [Job.callback, isState, if_neg Status.noConfusion]
        exact lawful.refusing i isElement
      have ran := accounted.ran_rejected isQueue isElement isState returned
      rw [AllState.runJob]
      dsimp only
      rw [isCallback]
      exact ran.resolveNext lawful.apart

theorem Accounted.ran_other (accounted : Accounted s) (isQueue : s.heap.queue = job :: queue)
    (notOwn : elementOf job.handler = none) :
    Accounted ({ s with heap := { s.heap with queue := queue } }.runJob job) := by
  have registered := accounted.registered
  have isJob : job ∈ jobsRun s.heap.log ++ s.heap.queue := by
    rw [isQueue]
    exact List.mem_append_right _ List.mem_cons_self
  have lawful := registered.lawful _ (registered.orderly.registered isJob)
  have ran := accounted.ran_foreign isQueue notOwn
  have isHandler : ∀ f, job.callback = some f →
      job.handler.onFulfilled = some f ∨ job.handler.onRejected = some f := by
    intro f isCallback
    rw [Job.callback] at isCallback
    split at isCallback
    · exact Or.inl isCallback
    · exact Or.inr isCallback
  rw [AllState.runJob]
  dsimp only
  split
  next i isCallback =>
    exfalso
    rcases isHandler _ isCallback with onFulfilled | onRejected
    · cases notOwn.symm.trans (elementOf_eq.mpr onFulfilled)
    · exact lawful.plain i onRejected
  next q isCallback =>
    have notResult : s.phase ≠ .before → q ≠ s.result := by
      intro started same
      have isKnown := lawful.hidden notOwn q (isHandler _ isCallback)
      have isSeen := accounted.counted.shown started
      obtain ⟨promise, isPromise, isExposed⟩ := (Option.any_eq_true _ _).mp isKnown
      rw [State.view, ← same, isPromise] at isSeen
      have hidden : promise.exposed = (expected s).2.2 :=
        congrArg (fun seen => seen.2.2) (Option.some.inj isSeen)
      have isHidden : (expected s).2.2 = false := by
        rw [expected]
        split
        · rfl
        · split
          · rfl
          · rfl
      cases isExposed.symm.trans (hidden.trans isHidden)
    have refused : Accounted { s with heap := (s.taken job queue).callReject q job.value } := by
      have evolves := evolves_callReject (s.taken job queue) q job.value
      apply ran.of_heap evolves (registrations_callReject _ _ _)
      intro started
      rw [view_callReject]
      exact view_settle_ne (s := s.taken job queue) (notResult started)
    exact refused.resolveNext lawful.apart
  next => exact ran

end Microtasks

/-! ## Runs -/

section Runs

theorem accounted_initial : Accounted (AllState.initial : AllState User) := by
  constructor
  · constructor
    · exact orderly_initial
    · rfl
    · rfl
    · intro registration member
      cases member
    · exact fun _ => rfl
  · constructor
    · intro i value
      constructor
      · intro isRead
        cases isRead
      · rintro ⟨job, isRun, _⟩
        cases isRun
    · rfl
    · exact Nat.le_refl 0
    · intro _ job isRun
      cases isRun
    · intro started
      exact absurd rfl started

theorem Accounted.step {s next : AllState User} (accounted : Accounted s)
    {action : AllState.Action User} (stepped : s.step action = some next) : Accounted next := by
  cases action with
  | create exposed =>
      cases stepped
      exact accounted.create exposed
  | settle p fulfils value =>
      rw [AllState.step] at stepped
      split at stepped
      · cases stepped
      next other =>
        cases stepped
        apply accounted.settle value
        · split
          · exact Status.noConfusion
          · exact Status.noConfusion
        · exact fun started same => other ⟨started, same⟩
  | callThen this onFulfilled onRejected =>
      rw [AllState.step] at stepped
      split at stepped
      next areForeign =>
        cases stepped
        rw [Bool.and_eq_true] at areForeign
        exact accounted.callThen this areForeign.1 areForeign.2
      next => cases stepped
  | begin =>
      rw [AllState.step] at stepped
      split at stepped
      next isBefore =>
        cases stepped
        exact accounted.begin isBefore
      next => cases stepped
  | next item =>
      rw [AllState.step] at stepped
      split at stepped
      next accepted =>
        cases stepped
        exact accounted.next accepted.1 accepted.2.1
      next => cases stepped
  | finish =>
      rw [AllState.step] at stepped
      split at stepped
      next looping =>
        cases stepped
        exact accounted.finish looping
      next => cases stepped
  | microtask =>
      rw [AllState.step] at stepped
      split at stepped
      · cases stepped
      next job queue isQueue =>
        split at stepped
        · cases stepped
        next notLooping =>
          cases stepped
          cases isElement : elementOf job.handler with
          | some i => exact accounted.ran_own isQueue isElement notLooping
          | none => exact accounted.ran_other isQueue isElement

theorem Accounted.run {s later : AllState User} (accounted : Accounted s)
    {actions : List (AllState.Action User)} (isRun : s.run actions = some later) :
    Accounted later := by
  induction actions generalizing s with
  | nil => exact Option.some.inj isRun ▸ accounted
  | cons action actions induction =>
      obtain ⟨next, stepped, isRest⟩ := Option.bind_eq_some_iff.mp isRun
      exact induction (accounted.step stepped) isRest

end Runs

end FoundationsLab.Promises
