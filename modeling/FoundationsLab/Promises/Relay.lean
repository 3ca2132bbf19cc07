import FoundationsLab.Promises.Finally

/-! # The handlers of `finally`

Three handlers take part in a call: that of its promise, that of the promise of `onFinally()` and
that by which the promise of the call follows the one that the callback returns. Each runs once. -/

namespace FoundationsLab.Promises

variable {User : Type}

/-! ## The handlers of the call -/

namespace FinallyState

def first (s : FinallyState User) : Nat × Handler (Code (FinallyCode User)) :=
  (s.subject, ⟨some (callback .onValue), some (callback .onReason), s.result⟩)

def second (s : FinallyState User) : Nat × Handler (Code (FinallyCode User)) :=
  (s.awaited, ⟨some (callback s.restoring), none, s.restored⟩)

def third (s : FinallyState User) : Nat × Handler (Code (FinallyCode User)) :=
  (s.restored, ⟨some (.adopt s.guard), some (.refuse s.guard), s.restored + 1⟩)

def own (s : FinallyState User) : List (Nat × Handler (Code (FinallyCode User))) :=
  match s.stage with
  | .before => []
  | .waiting => [s.first, s.second, s.third]
  | _ => [s.first]

/-- The microtask of the handler that `then` has made a promise for. -/
def ran (s : FinallyState User) (next : Nat) : Option (Job (Code (FinallyCode User))) :=
  (jobsRun s.heap.log).find? fun job => job.handler.next = next

/-- What the promise that the callback has returned should show. -/
def restoredView (s : FinallyState User) : Status × Value (Code (FinallyCode User)) × Bool :=
  match s.ran s.restored with
  | some job =>
      if job.state = .fulfilled then (s.state, s.value, false) else (.rejected, job.value, false)
  | none => (.pending, .undefined, false)

/-- What the promise of the call should show. -/
def resultView (s : FinallyState User) : Status × Value (Code (FinallyCode User)) × Bool :=
  match s.stage with
  | .threw => (.rejected, s.given, false)
  | .waiting =>
      match s.ran (s.restored + 1) with
      | some job => (job.state, job.value, false)
      | none => (.pending, .undefined, false)
  | _ => (.pending, .undefined, false)

end FinallyState

def isCallback : Function (Code (FinallyCode User)) → Bool
  | .user (.program (.program _)) => false
  | .user (.program _) | .adopt _ | .refuse _ => true
  | _ => false

/-- A handler of the program has none of the functions of the call. -/
def Foreign (handler : Handler (Code (FinallyCode User))) : Prop :=
  ∀ f, handler.onFulfilled = some f ∨ handler.onRejected = some f → isCallback f = false

structure Chained (s : FinallyState User) : Prop where
  orderly : s.heap.IsOrderly
  plain : s.heap.Plain
  own : ∀ registration ∈ registrations s.heap.log, registration ∈ s.own ∨ Foreign registration.2
  present : ∀ registration ∈ s.own, registration ∈ registrations s.heap.log
  guardZero : s.guard = 0
  once : s.calls = if s.stage = .before ∨ s.stage = .called then 0 else 1
  older : s.stage = .waiting → s.result < s.restored

/-- What the promises of the call show, and its guard. -/
structure Told (s : FinallyState User) : Prop where
  guards : s.heap.guards = if s.stage = .waiting then
    [⟨s.result, .promise s.restored, true, (s.ran (s.restored + 1)).isSome⟩] else []
  waits : s.stage = .called → s.ran s.result = none
  begun : s.stage ≠ .before → s.stage ≠ .called →
    ∃ job, s.ran s.result = some job ∧ job.state = s.state ∧ job.value = s.value
  shown : s.stage ≠ .before → s.heap.view s.result = some s.resultView
  restored : s.stage = .waiting → s.heap.view s.restored = some s.restoredView

structure Relayed (s : FinallyState User) : Prop where
  chained : Chained s
  told : Told s

section Own

variable {s : FinallyState User} {job : Job (Code (FinallyCode User))}

theorem ran_of_run {later : FinallyState User}
    (sameRun : jobsRun later.heap.log = jobsRun s.heap.log) (next : Nat) :
    later.ran next = s.ran next := by
  rw [FinallyState.ran, FinallyState.ran, sameRun]

theorem first_mem_own (started : s.stage ≠ .before) : s.first ∈ s.own := by
  rw [FinallyState.own]
  split
  next isBefore => exact absurd isBefore started
  next => exact List.mem_cons_self
  next => exact List.mem_cons_self

theorem own_waiting (waiting : s.stage = .waiting) : s.own = [s.first, s.second, s.third] := by
  rw [FinallyState.own, waiting]

theorem second_mem_own (waiting : s.stage = .waiting) : s.second ∈ s.own := by
  rw [own_waiting waiting]
  exact List.mem_cons_of_mem _ List.mem_cons_self

theorem third_mem_own (waiting : s.stage = .waiting) : s.third ∈ s.own := by
  rw [own_waiting waiting]
  exact List.mem_cons_of_mem _ (List.mem_cons_of_mem _ List.mem_cons_self)

theorem own_cases {registration : Nat × Handler (Code (FinallyCode User))}
    (member : registration ∈ s.own) :
    (s.stage ≠ .before ∧ registration = s.first) ∨
      (s.stage = .waiting ∧ (registration = s.second ∨ registration = s.third)) := by
  rw [FinallyState.own] at member
  split at member
  next => cases member
  next waiting =>
    rcases List.mem_cons.mp member with isFirst | later
    · exact Or.inl ⟨by rw [waiting]; exact Stage.noConfusion, isFirst⟩
    · rcases List.mem_cons.mp later with isSecond | last
      · exact Or.inr ⟨waiting, Or.inl isSecond⟩
      · exact Or.inr ⟨waiting, Or.inr (List.mem_singleton.mp last)⟩
  next notBefore _ => exact Or.inl ⟨notBefore, List.mem_singleton.mp member⟩

theorem not_foreign_own {registration : Nat × Handler (Code (FinallyCode User))}
    (member : registration ∈ s.own) : ¬ Foreign registration.2 := by
  intro isForeign
  rcases own_cases member with ⟨-, isFirst⟩ | ⟨-, isSecond | isThird⟩
  · subst isFirst
    cases isForeign _ (Or.inl rfl)
  · subst isSecond
    have notOwn := isForeign _ (Or.inl rfl)
    rw [FinallyState.restoring] at notOwn
    split at notOwn
    · cases notOwn
    · cases notOwn
  · subst isThird
    cases isForeign _ (Or.inl rfl)

theorem Chained.same_of_next (chained : Chained s)
    {one other : Nat × Handler (Code (FinallyCode User))}
    (isOne : one ∈ registrations s.heap.log) (isOther : other ∈ registrations s.heap.log)
    (sameNext : one.2.next = other.2.next) : one = other :=
  List.inj_on_of_nodup_map chained.orderly.fresh isOne isOther sameNext

/-- A microtask for a promise of the call is that of its handler. -/
theorem Chained.job_of_ran (chained : Chained s)
    {registration : Nat × Handler (Code (FinallyCode User))} (member : registration ∈ s.own)
    (isRan : s.ran registration.2.next = some job) :
    job ∈ jobsRun s.heap.log ∧ job.promise = registration.1 ∧ job.handler = registration.2 := by
  rw [FinallyState.ran] at isRan
  have isRun := List.mem_of_find?_eq_some isRan
  have isFound := List.find?_some isRan
  have sameNext : job.handler.next = registration.2.next := of_decide_eq_true isFound
  have same : job.registration = registration :=
    chained.same_of_next (chained.orderly.registered (List.mem_append_left _ isRun))
      (chained.present registration member) sameNext
  exact ⟨isRun, congrArg Prod.fst same, congrArg Prod.snd same⟩

theorem Chained.ran_none (chained : Chained s) {next : Nat}
    (outside : s.heap.promises.length ≤ next) : s.ran next = none := by
  rw [FinallyState.ran, List.find?_eq_none]
  intro job isRun isNext
  have isRegistered := chained.orderly.registered (List.mem_append_left s.heap.queue isRun)
  have inside : job.handler.next < s.heap.promises.length :=
    chained.orderly.older _ isRegistered
  have same : job.handler.next = next := of_decide_eq_true isNext
  omega

/-- The first callback closes over the outcome of its promise. -/
theorem Relayed.closure (relayed : Relayed s) (started : s.stage ≠ .before)
    (notCalled : s.stage ≠ .called) :
    s.state ≠ .pending ∧ (s.state = .fulfilled → s.value.isPlain = true) ∧
      s.shared.outcomeOf s.state s.subject = some s.value := by
  obtain ⟨job, isRan, sameState, sameValue⟩ := relayed.told.begun started notCalled
  obtain ⟨isRun, isSubject, -⟩ := relayed.chained.job_of_ran (first_mem_own started) isRan
  obtain ⟨promise, isPromise, settled, isState, isValue⟩ :=
    relayed.chained.orderly.carried job (List.mem_append_left _ isRun)
  rw [sameState] at isState
  rw [sameValue] at isValue
  refine ⟨?_, ?_, ?_⟩
  · rw [isState]
    exact settled
  · rw [isState, isValue]
    exact relayed.chained.plain promise (List.mem_of_getElem? isPromise)
  · rw [show job.promise = s.subject from isSubject] at isPromise
    exact outcomeOf_eq.mpr ⟨promise, isPromise, isState.symm, isValue.symm⟩

end Own

/-! ## The moves of the program -/

section Program

variable {s : FinallyState User}

/-- Handlers of the program alone are registered. -/
theorem Chained.of_heap (chained : Chained s) {heap : State (Code (FinallyCode User))}
    (isOrderly : heap.IsOrderly) (plain : heap.Plain)
    (registered : ∀ registration ∈ registrations heap.log,
      registration ∈ registrations s.heap.log ∨ Foreign registration.2)
    (kept : ∀ registration ∈ registrations s.heap.log, registration ∈ registrations heap.log) :
    Chained { s with heap := heap } where
  orderly := isOrderly
  plain := plain
  own := by
    intro registration member
    rcases registered registration member with old | isForeign
    · exact chained.own registration old
    · exact Or.inr isForeign
  present registration member := kept registration (chained.present registration member)
  guardZero := chained.guardZero
  once := chained.once
  older := chained.older

theorem owns_result (started : s.stage ≠ .before) : s.owns s.result = true := by
  rw [FinallyState.owns, Bool.or_eq_true]
  apply Or.inl
  rw [Bool.and_eq_true]
  exact ⟨decide_eq_true started, decide_eq_true rfl⟩

theorem owns_restored (waiting : s.stage = .waiting) : s.owns s.restored = true := by
  rw [FinallyState.owns, Bool.or_eq_true]
  apply Or.inr
  rw [Bool.and_eq_true]
  exact ⟨decide_eq_true waiting, decide_eq_true rfl⟩

theorem Told.of_ran (told : Told s) {heap : State (Code (FinallyCode User))}
    (sameGuards : heap.guards = s.heap.guards)
    (sameRan : ∀ registration ∈ s.own,
      { s with heap := heap }.ran registration.2.next = s.ran registration.2.next)
    (sameView : ∀ p, s.owns p = true → heap.view p = s.heap.view p) :
    Told { s with heap := heap } := by
  have sameFirst : s.stage ≠ .before → { s with heap := heap }.ran s.result = s.ran s.result :=
    fun started => sameRan s.first (first_mem_own started)
  have sameThird : s.stage = .waiting →
      { s with heap := heap }.ran (s.restored + 1) = s.ran (s.restored + 1) :=
    fun waiting => sameRan s.third (third_mem_own waiting)
  constructor
  · rw [sameGuards, told.guards]
    by_cases waiting : s.stage = .waiting
    · rw [if_pos waiting, if_pos waiting, sameThird waiting]
    · rw [if_neg waiting, if_neg waiting]
  · intro isCalled
    have started : s.stage ≠ .before := by
      rw [show s.stage = .called from isCalled]
      exact Stage.noConfusion
    exact (sameFirst started).trans (told.waits isCalled)
  · intro started notCalled
    obtain ⟨job, isRan, isOutcome⟩ := told.begun started notCalled
    exact ⟨job, (sameFirst started).trans isRan, isOutcome⟩
  · intro started
    have sameResult : { s with heap := heap }.resultView = s.resultView := by
      by_cases waiting : s.stage = .waiting
      · rw [FinallyState.resultView, FinallyState.resultView, sameThird waiting]
      · rw [FinallyState.resultView, FinallyState.resultView]
        dsimp only
        cases isStage : s.stage with
        | waiting => exact absurd isStage waiting
        | _ => rfl
    rw [sameResult]
    exact (sameView _ (owns_result started)).trans (told.shown started)
  · intro waiting
    have sameRestored : { s with heap := heap }.restoredView = s.restoredView := by
      have sameSecond := sameRan s.second (second_mem_own waiting)
      rw [FinallyState.second] at sameSecond
      rw [FinallyState.restoredView, FinallyState.restoredView, sameSecond]
    rw [sameRestored]
    exact (sameView _ (owns_restored waiting)).trans (told.restored waiting)

theorem Relayed.of_heap (relayed : Relayed s) {heap : State (Code (FinallyCode User))}
    (evolves : Evolves s.heap heap) (isExtended : Extends s.heap heap)
    (sameGuards : heap.guards = s.heap.guards)
    (registered : ∀ registration ∈ registrations heap.log,
      registration ∈ registrations s.heap.log ∨ Foreign registration.2)
    (kept : ∀ registration ∈ registrations s.heap.log, registration ∈ registrations heap.log)
    (sameView : ∀ p, s.owns p = true → heap.view p = s.heap.view p) :
    Relayed { s with heap := heap } := by
  constructor
  · exact relayed.chained.of_heap (evolves.orderly relayed.chained.orderly)
      (isExtended.plain relayed.chained.plain) registered kept
  · apply relayed.told.of_ran sameGuards ?_ sameView
    exact fun registration _ => ran_of_run evolves.sameRun registration.2.next

theorem Relayed.seen (relayed : Relayed s) {p : Nat} (isOwned : s.owns p = true) :
    ∃ seen, s.heap.view p = some seen := by
  rw [FinallyState.owns, Bool.or_eq_true, Bool.and_eq_true, Bool.and_eq_true] at isOwned
  rcases isOwned with ⟨started, isResult⟩ | ⟨waiting, isRestored⟩
  · rw [of_decide_eq_true isResult]
    exact ⟨_, relayed.told.shown (of_decide_eq_true started)⟩
  · rw [of_decide_eq_true isRestored]
    exact ⟨_, relayed.told.restored (of_decide_eq_true waiting)⟩

theorem Relayed.create (relayed : Relayed s) (exposed : Bool) :
    Relayed { s with heap := s.heap.allocate exposed } := by
  apply relayed.of_heap (evolves_allocate s.heap exposed) (extends_allocate s.heap exposed) rfl
  · exact fun _ member => Or.inl member
  · exact fun _ member => member
  · intro p isOwned
    obtain ⟨seen, isSeen⟩ := relayed.seen isOwned
    exact (view_allocate isSeen exposed).trans isSeen.symm

theorem Relayed.settle (relayed : Relayed s) {p : Nat} {state : Status}
    {value : Value (Code (FinallyCode User))} (isOutcome : state ≠ .pending)
    (isPlain : state = .fulfilled → value.isPlain = true) (notOwned : s.owns p = false) :
    Relayed { s with heap := s.heap.settle p state value } := by
  have sameRegistrations : registrations (s.heap.settle p state value).log =
      registrations s.heap.log := by
    rw [settle_log]
  apply relayed.of_heap (evolves_settle s.heap p value isOutcome)
    (extends_settle s.heap p state value isPlain) (settle_guards s.heap p state value)
  · rw [sameRegistrations]
    exact fun _ member => Or.inl member
  · rw [sameRegistrations]
    exact fun _ member => member
  · intro q isOwned
    apply view_settle_ne
    intro same
    subst same
    cases isOwned.symm.trans notOwned

theorem not_callback (relayed : Relayed s) {value : Value (Code (FinallyCode User))}
    (isForeign : s.foreign value = true) {f : Function (Code (FinallyCode User))}
    (isFunction : value.asFunction = some f) : isCallback f = false := by
  rw [FinallyState.foreign, Bool.and_eq_true, Bool.not_eq_true'] at isForeign
  have natives : ∀ g, s.heap.knows (.adopt g) = false := by
    intro g
    rw [State.knows, relayed.told.guards]
    split
    · cases g with
      | zero => rfl
      | succ g => rfl
    · rfl
  cases value with
  | function other =>
      cases isFunction
      cases f with
      | user code =>
          cases code with
          | program code =>
              cases code with
              | program code => rfl
              | _ => cases isForeign.2
          | _ => rfl
      | adopt g => cases (natives g).symm.trans isForeign.1
      | refuse g => cases (natives g).symm.trans isForeign.1
      | _ => rfl
  | _ => cases isFunction

theorem Relayed.callThen (relayed : Relayed s) (this : Value (Code (FinallyCode User)))
    {onFulfilled onRejected : Value (Code (FinallyCode User))}
    (fulfilled : s.foreign onFulfilled = true) (rejected : s.foreign onRejected = true) :
    Relayed { s with heap := s.heap.callThen this onFulfilled onRejected } := by
  have isForeign : Foreign ⟨onFulfilled.asFunction, onRejected.asFunction,
      s.heap.promises.length⟩ := by
    intro f isFunction
    rcases isFunction with onFulfilled | onRejected
    · exact not_callback relayed fulfilled onFulfilled
    · exact not_callback relayed rejected onRejected
  have isNew := registrations_callThen s.heap this onFulfilled onRejected
  apply relayed.of_heap (evolves_callThen s.heap this onFulfilled onRejected)
    (extends_callThen s.heap this onFulfilled onRejected)
    (callThen_guards s.heap this onFulfilled onRejected)
  · intro registration member
    rcases isNew with same | ⟨p, -, isNew⟩
    · rw [same] at member
      exact Or.inl member
    · rw [isNew] at member
      rcases List.mem_append.mp member with old | isLast
      · exact Or.inl old
      · cases List.mem_singleton.mp isLast
        exact Or.inr isForeign
  · intro registration member
    rcases isNew with same | ⟨p, -, isNew⟩
    · rw [same]
      exact member
    · rw [isNew]
      exact List.mem_append_left _ member
  · intro p isOwned
    obtain ⟨seen, isSeen⟩ := relayed.seen isOwned
    exact (view_callThen isSeen this onFulfilled onRejected).trans isSeen.symm

end Program

/-! ## The call -/

section Call

variable {s : FinallyState User}

/-- The promise that `then` returns is new. -/
theorem view_callThen_new {heap : State User} {p : Nat} (inside : p < heap.promises.length)
    (onFulfilled onRejected : Value User) :
    (heap.callThen (.promise p) onFulfilled onRejected).view heap.promises.length =
      some (.pending, .undefined, false) := by
  have isPromise : heap.promiseOf (.promise p) = some p := if_pos inside
  have isNew : (heap.allocate false).view heap.promises.length =
      some (.pending, .undefined, false) := by
    rw [State.view, State.allocate, List.getElem?_concat_length]
    rfl
  rw [State.callThen, isPromise]
  exact (view_register _).trans isNew

theorem length_callThen {heap : State User} {p : Nat} (inside : p < heap.promises.length)
    (onFulfilled onRejected : Value User) :
    (heap.callThen (.promise p) onFulfilled onRejected).promises.length =
      heap.promises.length + 1 := by
  have isPromise : heap.promiseOf (.promise p) = some p := if_pos inside
  have isRegistered : ∀ (other : State User) (handler : Handler User),
      (other.register p handler).promises.length = other.promises.length := by
    intro other handler
    rw [State.register]
    split
    · split
      · exact List.length_set
      · rfl
    · rfl
  rw [State.callThen, isPromise]
  exact (isRegistered _ _).trans List.length_append

theorem promiseFor_guards (heap : State (Code User)) (item : Value (Code User)) :
    (heap.promiseFor item).1.guards = heap.guards := by
  have fresh : ∀ value : Value (Code User), (if value.isObject then heap.allocate false
      else (heap.allocate false).callResolve heap.promises.length value).guards = heap.guards := by
    intro value
    split
    · rfl
    · exact callResolve_guards (heap.allocate false) heap.promises.length value
  cases item with
  | promise p => rfl
  | undefined => exact fresh .undefined
  | primitive data => exact fresh (.primitive data)
  | object data => exact fresh (.object data)
  | typeError => exact fresh .typeError
  | function f => exact fresh (.function f)

theorem begin_own (s : FinallyState User) (p : Nat) : (s.begin p).own = [(s.begin p).first] := rfl

theorem Relayed.begin (relayed : Relayed s) {p : Nat} (isBefore : s.stage = .before)
    (inside : p < s.heap.promises.length) : Relayed (s.begin p) := by
  have chained := relayed.chained
  have told := relayed.told
  have evolves := evolves_callThen s.heap (.promise p)
    (.function (FinallyState.callback .onValue)) (.function (FinallyState.callback .onReason))
  have isExtended := extends_callThen s.heap (.promise p)
    (.function (FinallyState.callback .onValue)) (.function (FinallyState.callback .onReason))
  have isNew : registrations (s.begin p).heap.log = registrations s.heap.log ++ [(s.begin p).first] :=
    registrations_of_inside inside _ _
  have noOwn : s.own = [] := by
    rw [FinallyState.own, isBefore]
  constructor
  · constructor
    · exact evolves.orderly chained.orderly
    · exact isExtended.plain chained.plain
    · rw [isNew, begin_own]
      intro registration member
      rcases List.mem_append.mp member with old | isLast
      · rcases chained.own registration old with isOwn | isForeign
        · rw [noOwn] at isOwn
          cases isOwn
        · exact Or.inr isForeign
      · exact Or.inl isLast
    · rw [isNew, begin_own]
      exact fun registration member => List.mem_append_right _ member
    · exact chained.guardZero
    · have none := chained.once
      rw [if_pos (Or.inl isBefore)] at none
      exact none
    · intro waiting
      cases waiting
  · constructor
    · have noGuard := told.guards
      rw [isBefore, if_neg Stage.noConfusion] at noGuard
      exact (callThen_guards s.heap _ _ _).trans noGuard
    · intro _
      have sameRan : (s.begin p).ran s.heap.promises.length = s.ran s.heap.promises.length :=
        ran_of_run evolves.sameRun _
      exact sameRan.trans (chained.ran_none (Nat.le_refl s.heap.promises.length))
    · intro _ notCalled
      exact absurd rfl notCalled
    · intro _
      exact view_callThen_new inside _ _
    · intro waiting
      cases waiting

theorem resultView_inside (isInside : s.stage = .inside) :
    s.resultView = (.pending, .undefined, false) := by
  rw [FinallyState.resultView, isInside]

theorem Relayed.throw (relayed : Relayed s) (isInside : s.stage = .inside)
    (error : Value (Code (FinallyCode User))) : Relayed (s.throw error) := by
  have chained := relayed.chained
  have told := relayed.told
  have started : s.stage ≠ .before := by
    rw [isInside]
    exact Stage.noConfusion
  have notCalled : s.stage ≠ .called := by
    rw [isInside]
    exact Stage.noConfusion
  have evolves := evolves_callReject s.heap s.result error
  have isExtended := extends_callReject s.heap s.result error
  have sameRegistrations := registrations_callReject s.heap s.result error
  have sameOwn : (s.throw error).own = s.own := by
    rw [FinallyState.own, FinallyState.own, isInside]
    rfl
  have sameRan : ∀ next, (s.throw error).ran next = s.ran next := ran_of_run evolves.sameRun
  constructor
  · constructor
    · exact evolves.orderly chained.orderly
    · exact isExtended.plain chained.plain
    · rw [sameOwn]
      show ∀ registration ∈ registrations (s.heap.callReject s.result error).log, _
      rw [sameRegistrations]
      exact chained.own
    · rw [sameOwn]
      show ∀ registration ∈ s.own, registration ∈
        registrations (s.heap.callReject s.result error).log
      rw [sameRegistrations]
      exact chained.present
    · exact chained.guardZero
    · have one := chained.once
      rw [isInside, if_neg (by decide)] at one
      exact one
    · intro waiting
      cases waiting
  · constructor
    · have noGuard := told.guards
      rw [isInside, if_neg Stage.noConfusion] at noGuard
      exact (callReject_guards s.heap s.result error).trans noGuard
    · intro isCalled
      cases isCalled
    · intro _ _
      rw [sameRan]
      exact told.begun started notCalled
    · intro _
      have isSeen := told.shown started
      rw [resultView_inside isInside] at isSeen
      exact (view_callReject error).trans (view_settle_pending isSeen)
    · intro waiting
      cases waiting

theorem isPending_of_view {heap : State User} {p : Nat} {value : Value User} {exposed : Bool}
    (isSeen : heap.view p = some (.pending, value, exposed)) : heap.isPending p = true := by
  rw [State.view] at isSeen
  obtain ⟨promise, isPromise, same⟩ := Option.map_eq_some_iff.mp isSeen
  exact isPending_iff.mpr ⟨promise, isPromise, congrArg Prod.fst same⟩

/-- What the return of `onFinally` does to the heap. -/
structure Returns (s next : FinallyState User) : Prop where
  evolves : Evolves s.heap next.heap
  isExtended : Extends s.heap next.heap
  sameRegistrations : registrations next.heap.log =
    registrations s.heap.log ++ [next.second, next.third]
  guards : next.heap.guards = [⟨s.result, .promise next.restored, true, false⟩]
  guardZero : next.guard = 0
  result : next.heap.view s.result = some (.pending, .undefined, false)
  restored : next.heap.view next.restored = some (.pending, .undefined, false)
  later : s.heap.promises.length ≤ next.restored

/-- `then` is called on the promise of what has been returned. -/
structure Awaits (s : FinallyState User) (middle : State (Code (FinallyCode User)))
    (q t : Nat) : Prop where
  evolves : Evolves s.heap middle
  isExtended : Extends s.heap middle
  sameRegistrations : registrations middle.log = registrations s.heap.log ++
    [(q, ⟨some (FinallyState.callback s.restoring), none, t⟩)]
  length : middle.promises.length = t + 1
  guards : middle.guards = s.heap.guards
  sameView : ∀ p seen, s.heap.view p = some seen → middle.view p = some seen
  isNew : middle.view t = some (.pending, .undefined, false)
  later : s.heap.promises.length ≤ t

theorem awaits (s : FinallyState User) {item : Value (Code (FinallyCode User))}
    (isKnown : s.heap.knowsValue item = true) :
    Awaits s ((s.heap.promiseFor item).1.callThen (.promise (s.heap.promiseFor item).2)
      (.function (FinallyState.callback s.restoring)) .undefined)
      (s.heap.promiseFor item).2 (s.heap.promiseFor item).1.promises.length := by
  have fetched := fetched_promiseFor s.heap isKnown
  constructor
  · exact fetched.evolves.trans (evolves_callThen _ _ _ _)
  · exact (extends_promiseFor s.heap item).trans (extends_callThen _ _ _ _)
  · rw [registrations_of_inside fetched.inside, fetched.sameRegistrations]
    rfl
  · exact length_callThen fetched.inside _ _
  · rw [callThen_guards, promiseFor_guards]
  · intro p seen isSeen
    exact view_callThen (fetched.sameView p seen isSeen) _ _ _
  · exact view_callThen_new fetched.inside _ _
  · exact Nat.le_of_not_lt fun shorter => Nat.lt_irrefl _ (fetched.evolves.grows.inside shorter)

theorem Relayed.returns (relayed : Relayed s) (isInside : s.stage = .inside)
    {item : Value (Code (FinallyCode User))} (isKnown : s.heap.knowsValue item = true) :
    Returns s (s.giveBack item) := by
  have started : s.stage ≠ .before := by
    rw [isInside]
    exact Stage.noConfusion
  have isSeen := relayed.told.shown started
  rw [resultView_inside isInside] at isSeen
  have noGuard := relayed.told.guards
  rw [isInside, if_neg Stage.noConfusion] at noGuard
  have waits := awaits s isKnown
  have noneMiddle := waits.guards.trans noGuard
  have resultMiddle := waits.sameView _ _ isSeen
  -- The promise of the call follows the one that `then` has made.
  have different : (s.heap.promiseFor item).1.promises.length ≠ s.result :=
    (Nat.ne_of_lt (Nat.lt_of_lt_of_le (lt_of_view isSeen) waits.later)).symm
  have follows := followed (isPending_of_view resultMiddle) (lt_of_view waits.isNew) different
  have guardZero : (s.giveBack item).guard = 0 := by
    show (s.heap.promiseFor item).1.guards.length = 0
    rw [promiseFor_guards, noGuard]
    rfl
  have guards := follows.guards
  have sameRegistrations := follows.sameRegistrations
  rw [noneMiddle] at guards sameRegistrations
  rw [waits.sameRegistrations, waits.length, List.append_assoc] at sameRegistrations
  constructor
  · exact waits.evolves.trans (evolves_follow _ _ _)
  · exact waits.isExtended.trans follows.isExtended
  · rw [FinallyState.third, guardZero]
    exact sameRegistrations
  · exact guards
  · exact guardZero
  · exact follows.sameView _ _ resultMiddle
  · exact follows.sameView _ _ waits.isNew
  · exact waits.later

theorem Relayed.giveBack (relayed : Relayed s) (isInside : s.stage = .inside)
    {item : Value (Code (FinallyCode User))} (isKnown : s.heap.knowsValue item = true) :
    Relayed (s.giveBack item) := by
  have chained := relayed.chained
  have told := relayed.told
  have started : s.stage ≠ .before := by
    rw [isInside]
    exact Stage.noConfusion
  have notCalled : s.stage ≠ .called := by
    rw [isInside]
    exact Stage.noConfusion
  have returns := relayed.returns isInside isKnown
  have sameRan : ∀ next, (s.giveBack item).ran next = s.ran next :=
    ran_of_run returns.evolves.sameRun
  have isOwn : s.own = [s.first] := by
    rw [FinallyState.own, isInside]
  have nextOwn : (s.giveBack item).own =
      [s.first, (s.giveBack item).second, (s.giveBack item).third] := rfl
  have noneRestored : (s.giveBack item).ran (s.giveBack item).restored = none := by
    rw [sameRan]
    exact chained.ran_none returns.later
  have noneAfter : (s.giveBack item).ran ((s.giveBack item).restored + 1) = none := by
    rw [sameRan]
    exact chained.ran_none (Nat.le_succ_of_le returns.later)
  constructor
  · constructor
    · exact returns.evolves.orderly chained.orderly
    · exact returns.isExtended.plain chained.plain
    · rw [returns.sameRegistrations, nextOwn]
      intro registration member
      rcases List.mem_append.mp member with old | isNew
      · rcases chained.own registration old with wasOwn | isForeign
        · rw [isOwn] at wasOwn
          rw [List.mem_singleton.mp wasOwn]
          exact Or.inl List.mem_cons_self
        · exact Or.inr isForeign
      · exact Or.inl (List.mem_cons_of_mem _ isNew)
    · rw [returns.sameRegistrations, nextOwn]
      intro registration member
      rcases List.mem_cons.mp member with isFirst | isNew
      · rw [isFirst]
        exact List.mem_append_left _ (chained.present s.first (first_mem_own started))
      · exact List.mem_append_right _ isNew
    · exact returns.guardZero
    · have one := chained.once
      rw [isInside, if_neg (by decide)] at one
      exact one
    · intro _
      exact Nat.lt_of_lt_of_le (lt_of_view (told.shown started)) returns.later
  · constructor
    · rw [noneAfter]
      exact returns.guards
    · intro isCalled
      cases isCalled
    · intro _ _
      rw [sameRan]
      exact told.begun started notCalled
    · intro _
      have isPending : (s.giveBack item).resultView = (.pending, .undefined, false) := by
        rw [FinallyState.resultView, noneAfter]
        rfl
      rw [isPending]
      exact returns.result
    · intro _
      rw [FinallyState.restoredView, noneRestored]
      exact returns.restored

end Call

end FoundationsLab.Promises
