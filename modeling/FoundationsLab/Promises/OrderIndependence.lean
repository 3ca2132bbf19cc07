import Mathlib.Data.List.Forall2
import FoundationsLab.Promises.Outstanding

/-! # What `APromise.all` returns

In whichever order the inputs settle, the promise of the call shows their values, or the reason
of the first rejection handler that has run. -/

namespace FoundationsLab.Promises

variable {User : Type}

namespace AllState

/-- The elements of the array that fulfils the promise of the call. -/
def contents (s : AllState User) : Value (Code User) → Option (List (Option (Value (Code User))))
  | .object .results => some s.results
  | .object .empty => some []
  | _ => none

def outcomeOf (s : AllState User) (state : Status) (p : Nat) : Option (Value (Code User)) :=
  match s.heap.promises[p]? with
  | some promise => if promise.state = state then some promise.value else none
  | none => none

/-- The promise of an item is the item, or has the item for its value, or is that of an object. -/
def StandsFor (s : AllState User) (item : Value (Code User)) (p : Nat) : Prop :=
  match item with
  | .promise q => p = q
  | item => item.isObject = false → s.outcomeOf .fulfilled p = some item

end AllState

section Outcomes

variable {s : AllState User}

theorem outcomeOf_eq {state : Status} {p : Nat} {value : Value (Code User)} :
    s.outcomeOf state p = some value ↔
      ∃ promise, s.heap.promises[p]? = some promise ∧ promise.state = state ∧
        promise.value = value := by
  rw [AllState.outcomeOf]
  cases s.heap.promises[p]? with
  | none =>
      constructor
      · intro same
        cases same
      · rintro ⟨promise, isPromise, _⟩
        cases isPromise
  | some promise =>
      dsimp only
      constructor
      · intro same
        split at same
        next isState => exact ⟨promise, rfl, isState, Option.some.inj same⟩
        next => cases same
      · rintro ⟨other, isOther, isState, isValue⟩
        cases isOther
        rw [if_pos isState, isValue]

/-- A handler of the call has run with the outcome of its input. -/
theorem Registered.outcome_of_ran (registered : Registered s) {job : Job (Code User)}
    (isRun : job ∈ jobsRun s.heap.log) {i : Nat} (isElement : elementOf job.handler = some i) :
    s.inputs[i]? = some job.promise ∧ s.outcomeOf job.state job.promise = some job.value ∧
      job.state ≠ .pending := by
  have isJob : job ∈ jobsRun s.heap.log ++ s.heap.queue := List.mem_append_left _ isRun
  obtain ⟨promise, isPromise, settled, sameState, sameValue⟩ := registered.orderly.carried job isJob
  refine ⟨registered.input_of_job isJob isElement, ?_, ?_⟩
  · exact outcomeOf_eq.mpr ⟨promise, isPromise, sameState.symm, sameValue.symm⟩
  · rw [sameState]
    exact settled

/-- Once no microtask is left, the handlers of the inputs that have settled have run. -/
theorem Registered.ran_of_settled (registered : Registered s) (noJob : s.heap.queue = [])
    {i p : Nat} (isInput : s.inputs[i]? = some p) {state : Status} (settled : state ≠ .pending)
    {value : Value (Code User)} (isOutcome : s.outcomeOf state p = some value) :
    ∃ job ∈ jobsRun s.heap.log, elementOf job.handler = some i ∧ job.state = state ∧
      job.value = value := by
  obtain ⟨promise, isPromise, isState, isValue⟩ := outcomeOf_eq.mp isOutcome
  have listed : (p, i) ∈ ownRegistrations s.heap.log := by
    rw [registered.own]
    exact List.mk_mem_zipIdx_iff_getElem?.mpr isInput
  obtain ⟨⟨q, handler⟩, isRegistered, isOwn⟩ := List.mem_filterMap.mp listed
  rw [ownRegistration] at isOwn
  obtain ⟨j, isElement, same⟩ := Option.map_eq_some_iff.mp isOwn
  obtain rfl : p = q := (congrArg Prod.fst same).symm
  obtain rfl : i = j := (congrArg Prod.snd same).symm
  have waits : handler ∈ handlersOf (registrations s.heap.log) p :=
    List.mem_filterMap.mpr ⟨(p, handler), isRegistered, if_pos rfl⟩
  have flushed := registered.orderly.flushed p promise isPromise (isState ▸ settled)
  rw [registered.orderly.accounted p promise isPromise, flushed, noJob, List.append_nil,
    List.append_nil] at waits
  obtain ⟨job, isRun, isJob⟩ := List.mem_map.mp (mem_of_mem_handlersOf waits)
  have samePromise : job.promise = p := congrArg Prod.fst isJob
  have sameHandler : job.handler = handler := congrArg Prod.snd isJob
  obtain ⟨other, isOther, -, sameState, sameValue⟩ :=
    registered.orderly.carried job (List.mem_append_left _ isRun)
  rw [samePromise, isPromise] at isOther
  cases isOther
  refine ⟨job, isRun, ?_, sameState.trans isState, sameValue.trans isValue⟩
  rw [sameHandler]
  exact isElement

theorem Accounted.no_holes (accounted : Accounted s) (isZero : s.remaining = 0) {i : Nat}
    (inside : i < s.index) : ∃ value, read s.results i = some value := by
  cases isRead : read s.results i with
  | some value => exact ⟨value, rfl⟩
  | none =>
      have positive := holes_pos isRead inside
      have counted := accounted.counted.counted
      omega

/-- When nothing remains, the array holds the values of the inputs. -/
theorem Accounted.results_eq (accounted : Accounted s) (isZero : s.remaining = 0) :
    s.results = s.inputs.map (s.outcomeOf .fulfilled) ∧
      ∀ p ∈ s.inputs, ∃ value, s.outcomeOf .fulfilled p = some value := by
  have registered := accounted.registered
  have stored : ∀ i < s.index, ∃ p value, s.inputs[i]? = some p ∧
      s.results[i]? = some (some value) ∧ s.outcomeOf .fulfilled p = some value := by
    intro i inside
    obtain ⟨value, isRead⟩ := accounted.no_holes isZero inside
    obtain ⟨job, isRun, isElement, isFulfilled, isValue⟩ :=
      (accounted.counted.stored i value).mp isRead
    obtain ⟨isInput, isOutcome, -⟩ := registered.outcome_of_ran isRun isElement
    rw [isFulfilled, isValue] at isOutcome
    exact ⟨job.promise, value, isInput, Option.join_eq_some_iff.mp isRead, isOutcome⟩
  constructor
  · apply List.ext_getElem?
    intro i
    by_cases inside : i < s.index
    · obtain ⟨p, value, isInput, isResult, isOutcome⟩ := stored i inside
      rw [isResult, List.getElem?_map, isInput]
      exact congrArg some isOutcome.symm
    · have short := accounted.counted.short
      have indexed := registered.indexed
      rw [List.getElem?_eq_none (by omega), List.getElem?_eq_none]
      rw [List.length_map]
      omega
  · intro p member
    obtain ⟨i, isInput⟩ := List.mem_iff_getElem?.mp member
    have inside : i < s.index := by
      rw [registered.indexed]
      exact lt_of_getElem? isInput
    obtain ⟨q, value, isInput', -, isOutcome⟩ := stored i inside
    cases isInput.symm.trans isInput'
    exact ⟨value, isOutcome⟩

theorem firstRejection_ran {job : Job (Code User)} (isFirst : firstRejection s.heap.log = some job) :
    job ∈ jobsRun s.heap.log ∧ (∃ i, elementOf job.handler = some i) ∧ job.state = .rejected := by
  rw [firstRejection] at isFirst
  have isRejected := List.find?_some isFirst
  rw [isRejection, Bool.and_eq_true] at isRejected
  exact ⟨List.mem_of_find?_eq_some isFirst, Option.isSome_iff_exists.mp isRejected.1,
    of_decide_eq_true isRejected.2⟩

end Outcomes

/-! ## The promises of the items -/

section Standing

variable {s next : AllState User}

theorem outcomeOf_kept (kept : Kept s.heap.promises next.heap.promises) {p : Nat}
    {value : Value (Code User)} (isOutcome : s.outcomeOf .fulfilled p = some value) :
    next.outcomeOf .fulfilled p = some value := by
  obtain ⟨promise, isPromise, isState, isValue⟩ := outcomeOf_eq.mp isOutcome
  obtain ⟨promise', isPromise', -, sameOutcome⟩ := kept p promise isPromise
  obtain ⟨sameState, sameValue⟩ := sameOutcome (by rw [isState]; exact Status.noConfusion)
  exact outcomeOf_eq.mpr ⟨promise', isPromise', sameState.trans isState, sameValue.trans isValue⟩

theorem AllState.StandsFor.kept (kept : Kept s.heap.promises next.heap.promises) {item : Value (Code User)}
    {p : Nat} (stands : s.StandsFor item p) : next.StandsFor item p := by
  cases item with
  | promise q => exact stands
  | _ => exact fun primitive => outcomeOf_kept kept (stands primitive)

/-- A primitive fulfils the promise that is made for it. -/
theorem callResolve_primitive (heap : State (Code User)) {value : Value (Code User)}
    (primitive : value.isObject = false) :
    ((heap.allocate false).callResolve heap.promises.length value).view heap.promises.length =
      some (.fulfilled, value, false) := by
  have notPromise : value.isPromise heap.promises.length = false := by
    cases value with
    | promise q => cases primitive
    | _ => rfl
  have isPending : (heap.allocate false).isPending heap.promises.length = true := by
    rw [State.isPending, State.allocate, List.getElem?_concat_length]
    rfl
  have isSeen : ((heap.allocate false).note (.called heap.promises.length (.resolve value) true)).view
      heap.promises.length = some (.pending, .undefined, false) := by
    show Option.map _ (heap.promises ++ [_])[heap.promises.length]? = _
    rw [List.getElem?_concat_length]
    rfl
  rw [State.callResolve, isPending, if_pos rfl, State.resolvePromise, notPromise, primitive]
  exact view_settle_pending isSeen

theorem standsFor_promiseFor (s : AllState User) (item : Value (Code User)) :
    { s with heap := (s.heap.promiseFor item).1 }.StandsFor item (s.heap.promiseFor item).2 := by
  have fresh : ∀ value : Value (Code User), value.isObject = false →
      { s with heap := (s.heap.allocate false).callResolve s.heap.promises.length value }.outcomeOf
        .fulfilled s.heap.promises.length = some value := by
    intro value primitive
    have isSeen := callResolve_primitive s.heap primitive
    obtain ⟨promise, isPromise, same⟩ := Option.map_eq_some_iff.mp isSeen
    exact outcomeOf_eq.mpr ⟨promise, isPromise, congrArg Prod.fst same,
      congrArg (fun seen => seen.2.1) same⟩
  cases item with
  | promise q => rfl
  | undefined => exact fun primitive => fresh .undefined primitive
  | primitive data => exact fun primitive => fresh (.primitive data) primitive
  | object data => exact fun primitive => Bool.noConfusion primitive
  | typeError => exact fun primitive => Bool.noConfusion primitive
  | function f => exact fun primitive => Bool.noConfusion primitive

theorem kept_runJob (s : AllState User) (job : Job (Code User)) :
    Kept s.heap.promises (s.runJob job).heap.promises := by
  rw [AllState.runJob]
  dsimp only
  split
  next i isCallback =>
    have resolved := evolves_callResolve
      ({ s with heap := s.heap.note (.ran job) }.element i job.value).heap job.handler.next .undefined
    apply Kept.trans ?_ resolved.kept
    rw [AllState.element]
    dsimp only
    split
    · exact (evolves_resolveArray (s := s.heap.note (.ran job))).kept
    · exact Kept.refl _
  next q isCallback =>
    have refused := evolves_callReject (s.heap.note (.ran job)) q job.value
    exact refused.kept.trans (evolves_callResolve _ job.handler.next .undefined).kept
  next => exact Kept.refl _

theorem items_runJob (s : AllState User) (job : Job (Code User)) :
    (s.runJob job).items = s.items ∧ (s.runJob job).inputs = s.inputs := by
  rw [AllState.runJob]
  dsimp only
  split
  next i isCallback =>
    rw [AllState.element]
    dsimp only
    split
    · exact ⟨rfl, rfl⟩
    · exact ⟨rfl, rfl⟩
  next => exact ⟨rfl, rfl⟩
  next => exact ⟨rfl, rfl⟩

/-- Each input stands for its item. -/
def Standing (s : AllState User) : Prop := List.Forall₂ s.StandsFor s.items s.inputs

theorem Standing.kept (standing : Standing s) (kept : Kept s.heap.promises next.heap.promises)
    (sameItems : next.items = s.items) (sameInputs : next.inputs = s.inputs) : Standing next := by
  rw [Standing, sameItems, sameInputs]
  exact List.Forall₂.imp (fun _ _ stands => stands.kept kept) standing

theorem Standing.step (standing : Standing s) {action : AllState.Action User}
    (stepped : s.step action = some next) : Standing next := by
  cases action with
  | create exposed =>
      cases stepped
      exact standing.kept (evolves_allocate s.heap exposed).kept rfl rfl
  | settle p fulfils value =>
      rw [AllState.step] at stepped
      split at stepped
      · cases stepped
      · cases stepped
        have isOutcome : (if fulfils then Status.fulfilled else .rejected) ≠ .pending := by
          split
          · exact Status.noConfusion
          · exact Status.noConfusion
        exact standing.kept (evolves_settle s.heap p value isOutcome).kept rfl rfl
  | callThen this onFulfilled onRejected =>
      rw [AllState.step] at stepped
      split at stepped
      · cases stepped
        exact standing.kept (evolves_callThen s.heap this onFulfilled onRejected).kept rfl rfl
      · cases stepped
  | begin =>
      rw [AllState.step] at stepped
      split at stepped
      · cases stepped
        exact standing.kept (evolves_allocate s.heap false).kept rfl rfl
      · cases stepped
  | next item =>
      rw [AllState.step] at stepped
      split at stepped
      next accepted =>
        cases stepped
        have fetched := fetched_promiseFor s.heap accepted.2.1
        have evolves := evolves_callThen (s.heap.promiseFor item).1
          (.promise (s.heap.promiseFor item).2) (.function (.user (.element s.index)))
          (.function (.reject s.result))
        have stands : (s.next item).StandsFor item (s.heap.promiseFor item).2 :=
          (standsFor_promiseFor s item).kept evolves.kept
        have keptBefore : Kept s.heap.promises (s.next item).heap.promises :=
          fetched.evolves.kept.trans evolves.kept
        have before : List.Forall₂ (s.next item).StandsFor s.items s.inputs :=
          List.Forall₂.imp (fun _ _ stands => stands.kept keptBefore) standing
        exact List.rel_append before (List.Forall₂.cons stands List.Forall₂.nil)
      next => cases stepped
  | finish =>
      rw [AllState.step] at stepped
      split at stepped
      · cases stepped
        have kept : Kept s.heap.promises s.finish.heap.promises := by
          show Kept s.heap.promises (State.promises (if s.index = 0 then _ else s.heap))
          split
          · exact evolves_resolveArray.kept
          · exact Kept.refl _
        exact standing.kept kept rfl rfl
      · cases stepped
  | microtask =>
      rw [AllState.step] at stepped
      split at stepped
      · cases stepped
      · split at stepped
        · cases stepped
        next job queue isQueue _ =>
          cases stepped
          have same := items_runJob { s with heap := { s.heap with queue := queue } } job
          exact standing.kept (kept_runJob { s with heap := { s.heap with queue := queue } } job)
            same.1 same.2

theorem Standing.run {later : AllState User} (standing : Standing s)
    {actions : List (AllState.Action User)} (isRun : s.run actions = some later) :
    Standing later := by
  induction actions generalizing s with
  | nil => exact Option.some.inj isRun ▸ standing
  | cons action actions induction =>
      obtain ⟨next, stepped, isRest⟩ := Option.bind_eq_some_iff.mp isRun
      exact induction (standing.step stepped) isRest

end Standing

/-! ## Any order -/

/-- What the promise of the call shows of its inputs. -/
structure AllSettles (s : AllState User) (promise : Promise (Code User)) : Prop where
  items : List.Forall₂ s.StandsFor s.items s.inputs
  /-- It fulfils with the values of all inputs, in the order of the items. -/
  fulfils : promise.state = .fulfilled → s.phase = .returned ∧
    (∀ p ∈ s.inputs, ∃ value, s.outcomeOf .fulfilled p = some value) ∧
    s.contents promise.value = some (s.inputs.map (s.outcomeOf .fulfilled))
  empty : s.phase = .returned → s.inputs = [] → promise.state = .fulfilled
  allFulfilled : s.phase = .returned → s.heap.queue = [] →
    (∀ p ∈ s.inputs, ∃ value, s.outcomeOf .fulfilled p = some value) → promise.state = .fulfilled
  /-- It rejects with the reason of the rejection handler that has run first. -/
  rejects : promise.state = .rejected →
    ∃ job, firstRejection s.heap.log = some job ∧ promise.value = job.value
  firstRejected : ∀ job, firstRejection s.heap.log = some job →
    promise.state = .rejected ∧ promise.value = job.value ∧
      ∃ i, elementOf job.handler = some i ∧ s.inputs[i]? = some job.promise ∧
        s.outcomeOf .rejected job.promise = some job.value
  someRejected : s.phase = .returned → s.heap.queue = [] →
    (∃ p ∈ s.inputs, ∃ reason, s.outcomeOf .rejected p = some reason) → promise.state = .rejected

section Settling

variable {s : AllState User}

/-- Once all inputs have been fulfilled and their handlers have run, nothing remains. -/
theorem Accounted.remaining_zero (accounted : Accounted s) (noJob : s.heap.queue = [])
    (all : ∀ p ∈ s.inputs, ∃ value, s.outcomeOf .fulfilled p = some value) : s.remaining = 0 := by
  rw [accounted.counted.counted]
  have noHole : holes s.results s.index = 0 := by
    rw [holes, List.countP_eq_zero]
    intro i member isHole
    have inside : i < s.inputs.length := by
      rw [← accounted.registered.indexed]
      exact List.mem_range.mp member
    have isInput := List.getElem?_eq_getElem inside
    obtain ⟨value, isOutcome⟩ := all _ (List.getElem_mem inside)
    obtain ⟨job, isRun, isElement, isFulfilled, isValue⟩ :=
      accounted.registered.ran_of_settled noJob isInput Status.noConfusion isOutcome
    have isRead := (accounted.counted.stored i value).mpr
      ⟨job, isRun, isElement, isFulfilled, isValue⟩
    rw [isRead] at isHole
    cases isHole
  omega

theorem Accounted.noRejection (accounted : Accounted s)
    (all : ∀ p ∈ s.inputs, ∃ value, s.outcomeOf .fulfilled p = some value) :
    firstRejection s.heap.log = none := by
  cases isFirst : firstRejection s.heap.log with
  | none => rfl
  | some job =>
      exfalso
      obtain ⟨isRun, ⟨i, isElement⟩, isRejected⟩ := firstRejection_ran isFirst
      obtain ⟨isInput, isOutcome, -⟩ := accounted.registered.outcome_of_ran isRun isElement
      obtain ⟨value, isFulfilled⟩ := all _ (List.mem_of_getElem? isInput)
      obtain ⟨first, isPromise, isState, -⟩ := outcomeOf_eq.mp isOutcome
      obtain ⟨second, isPromise', isState', -⟩ := outcomeOf_eq.mp isFulfilled
      cases isPromise.symm.trans isPromise'
      rw [isState', isRejected] at isState
      cases isState

theorem expected_fulfilled (noRejection : firstRejection s.heap.log = none)
    (returned : s.phase = .returned) (isZero : s.remaining = 0) : (expected s).1 = .fulfilled := by
  rw [expected, noRejection]
  dsimp only
  rw [if_pos ⟨returned, isZero⟩]

theorem expected_cases (s : AllState User) :
    (∃ job, firstRejection s.heap.log = some job ∧ expected s = (.rejected, job.value, false)) ∨
      (s.phase = .returned ∧ s.remaining = 0 ∧ expected s =
        (.fulfilled, .object (if s.index = 0 then .empty else .results), false)) ∨
      expected s = (.pending, .undefined, false) := by
  rw [expected]
  cases firstRejection s.heap.log with
  | some job => exact Or.inl ⟨job, rfl, rfl⟩
  | none =>
      dsimp only
      split
      next both => exact Or.inr (Or.inl ⟨both.1, both.2, rfl⟩)
      next => exact Or.inr (Or.inr rfl)

/-- In every run, the promise of a call of `all` shows the values of the inputs in the order of
the items once all are fulfilled, or the reason of the first rejection handler that has run. -/
theorem all_settles {actions : List (AllState.Action User)}
    (isRun : AllState.initial.run actions = some s) (started : s.phase ≠ .before) :
    ∃ promise, s.heap.promises[s.result]? = some promise ∧ AllSettles s promise := by
  have accounted : Accounted s := accounted_initial.run isRun
  have standing : Standing s := Standing.run (s := AllState.initial) List.Forall₂.nil isRun
  obtain ⟨promise, isPromise, same⟩ := Option.map_eq_some_iff.mp (accounted.counted.shown started)
  have isState : promise.state = (expected s).1 := congrArg Prod.fst same
  have isValue : promise.value = (expected s).2.1 := congrArg (fun seen => seen.2.1) same
  refine ⟨promise, isPromise, ?_⟩
  constructor
  case items => exact standing
  case fulfils =>
    intro isFulfilled
    rcases expected_cases s with ⟨job, -, rejected⟩ | ⟨returned, isZero, fulfilled⟩ | pending
    · rw [rejected] at isState
      cases isState.symm.trans isFulfilled
    · obtain ⟨isResults, all⟩ := accounted.results_eq isZero
      refine ⟨returned, all, ?_⟩
      rw [isValue, fulfilled]
      by_cases isEmpty : s.index = 0
      · have noInput : s.inputs = [] := by
          rw [← List.length_eq_zero_iff, ← accounted.registered.indexed]
          exact isEmpty
        rw [if_pos isEmpty, noInput]
        rfl
      · rw [if_neg isEmpty]
        exact congrArg some isResults
    · rw [pending] at isState
      cases isState.symm.trans isFulfilled
  case empty =>
    intro returned noInput
    have none : ∀ p ∈ s.inputs, ∃ value, s.outcomeOf .fulfilled p = some value := by
      rw [noInput]
      intro p member
      cases member
    have isZero : s.remaining = 0 := by
      have isEmpty := accounted.registered.indexed
      rw [noInput] at isEmpty
      rw [accounted.counted.counted, isEmpty]
      rfl
    exact isState.trans (expected_fulfilled (accounted.noRejection none) returned isZero)
  case allFulfilled =>
    intro returned noJob all
    exact isState.trans (expected_fulfilled (accounted.noRejection all) returned
      (accounted.remaining_zero noJob all))
  case rejects =>
    intro isRejected
    rcases expected_cases s with ⟨job, isFirst, rejected⟩ | ⟨-, -, fulfilled⟩ | pending
    · rw [rejected] at isValue
      exact ⟨job, isFirst, isValue⟩
    · rw [fulfilled] at isState
      cases isState.symm.trans isRejected
    · rw [pending] at isState
      cases isState.symm.trans isRejected
  case firstRejected =>
    intro job isFirst
    obtain ⟨isRun, ⟨i, isElement⟩, isRejected⟩ := firstRejection_ran isFirst
    obtain ⟨isInput, isOutcome, -⟩ := accounted.registered.outcome_of_ran isRun isElement
    rw [isRejected] at isOutcome
    rw [expected, isFirst] at isState isValue
    exact ⟨isState, isValue, i, isElement, isInput, isOutcome⟩
  case someRejected =>
    rintro returned noJob ⟨p, member, reason, isOutcome⟩
    obtain ⟨i, isInput⟩ := List.mem_iff_getElem?.mp member
    obtain ⟨job, isRun, isElement, isRejected, -⟩ :=
      accounted.registered.ran_of_settled noJob isInput Status.noConfusion isOutcome
    have found : (firstRejection s.heap.log).isSome := by
      rw [firstRejection, List.find?_isSome]
      refine ⟨job, isRun, ?_⟩
      rw [isRejection, isElement, isRejected]
      rfl
    obtain ⟨first, isFirst⟩ := Option.isSome_iff_exists.mp found
    rw [expected, isFirst] at isState
    exact isState

/-- The second item is a number, and the promise that is the first one is fulfilled later. -/
def secondFirst : List (AllState.Action Nat) :=
  [.create true, .begin, .next (.promise 0), .next (.primitive (.program 5)), .finish, .microtask,
    .settle 0 true (.primitive (.program 7)), .microtask]

theorem all_settles_second_first :
    ∃ s, AllState.initial.run secondFirst = some s ∧
      s.results = [some (.primitive (.program 7)), some (.primitive (.program 5))] ∧
      ∃ promise, s.heap.promises[s.result]? = some promise ∧ AllSettles s promise := by
  refine ⟨_, rfl, rfl, ?_⟩
  exact all_settles (show AllState.initial.run secondFirst = some _ from rfl) Phase.noConfusion

end Settling

end FoundationsLab.Promises
