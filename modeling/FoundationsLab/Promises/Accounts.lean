import FoundationsLab.Promises.Promise
import Mathlib.Data.List.Nodup

/-! # Accounts of the handlers

The handlers of a promise are run one after the other, in the order in which they were
registered: those whose microtasks have run, those whose microtasks are in the queue and those
that still wait are, in this order, all that were registered. -/

namespace FoundationsLab.Promises

variable {User : Type}

/-! ## Accounts of the handlers -/

namespace Event

def job : Event User → Option (Job User)
  | ran job => some job
  | _ => none

def registration : Event User → Option (Nat × Handler User)
  | registered p handler => some (p, handler)
  | _ => none

end Event

/-- The microtasks that have run, in this order. -/
def jobsRun (log : List (Event User)) : List (Job User) := log.filterMap Event.job

/-- The handlers in the order of the calls of `then`, with their promises. -/
def registrations (log : List (Event User)) : List (Nat × Handler User) :=
  log.filterMap Event.registration

def handlerAt (p : Nat) (registration : Nat × Handler User) : Option (Handler User) :=
  if registration.1 = p then some registration.2 else none

/-- The handlers of one promise. -/
def handlersOf (registrations : List (Nat × Handler User)) (p : Nat) : List (Handler User) :=
  registrations.filterMap (handlerAt p)

def Job.registration (job : Job User) : Nat × Handler User := (job.promise, job.handler)

/-- A job carries the outcome of its promise. -/
def Carries (promises : List (Promise User)) (job : Job User) : Prop :=
  ∃ promise, promises[job.promise]? = some promise ∧ promise.state ≠ .pending ∧
    job.state = promise.state ∧ job.value = promise.value

/-- The jobs are those that have run, and then those in the queue. -/
structure Orderly (promises : List (Promise User)) (jobs : List (Job User))
    (registrations : List (Nat × Handler User)) : Prop where
  accounted : ∀ (p : Nat) (promise : Promise User), promises[p]? = some promise →
    handlersOf registrations p = handlersOf (jobs.map Job.registration) p ++ promise.callbacks
  bounded : ∀ registration ∈ registrations, registration.1 < promises.length
  fresh : (registrations.map (·.2.next)).Nodup
  older : ∀ registration ∈ registrations, registration.2.next < promises.length
  waiting : ∀ (p : Nat) (promise : Promise User), promises[p]? = some promise →
    promise.state = .pending → promise.value = .undefined
  flushed : ∀ (p : Nat) (promise : Promise User), promises[p]? = some promise →
    promise.state ≠ .pending → promise.callbacks = []
  carried : ∀ job ∈ jobs, Carries promises job

def State.IsOrderly (s : State User) : Prop :=
  Orderly s.promises (jobsRun s.log ++ s.queue) (registrations s.log)

/-- A promise that has settled stays as it is. -/
def Kept (promises later : List (Promise User)) : Prop :=
  ∀ (p : Nat) (promise : Promise User), promises[p]? = some promise →
    ∃ promise' : Promise User, later[p]? = some promise' ∧ promise'.exposed = promise.exposed ∧
      (promise.state ≠ .pending → promise'.state = promise.state ∧ promise'.value = promise.value)

/-- A guard that has been called stays so. -/
def KeptGuards (guards later : List (Guard User)) : Prop :=
  ∀ (g : Nat) (guard : Guard User), guards[g]? = some guard →
    ∃ guard' : Guard User, later[g]? = some guard' ∧ guard'.promise = guard.promise ∧
      guard'.subject = guard.subject ∧ guard'.native = guard.native ∧
      (guard'.called = false → guard.called = false)

/-- The handler waits for the promise, or for its microtask. -/
def State.Pends (s : State User) (p : Nat) (handler : Handler User) : Prop :=
  (∃ promise, s.promises[p]? = some promise ∧ handler ∈ promise.callbacks) ∨
    ∃ job ∈ s.queue, job.promise = p ∧ job.handler = handler

/-- What every function of the library respects. -/
structure Evolves (s later : State User) : Prop where
  orderly : s.IsOrderly → later.IsOrderly
  kept : Kept s.promises later.promises
  keptGuards : KeptGuards s.guards later.guards
  pends : ∀ (p : Nat) (handler : Handler User), s.Pends p handler → later.Pends p handler
  sameRun : jobsRun later.log = jobsRun s.log

theorem Kept.refl (promises : List (Promise User)) : Kept promises promises :=
  fun _ promise isPromise => ⟨promise, isPromise, rfl, fun _ => ⟨rfl, rfl⟩⟩

theorem Kept.trans {promises middle later : List (Promise User)} (first : Kept promises middle)
    (second : Kept middle later) : Kept promises later := by
  intro p promise isPromise
  obtain ⟨promise', isPromise', sameExposed, sameOutcome⟩ := first p promise isPromise
  obtain ⟨promise'', isPromise'', sameExposed', sameOutcome'⟩ := second p promise' isPromise'
  refine ⟨promise'', isPromise'', sameExposed'.trans sameExposed, fun settled => ?_⟩
  obtain ⟨sameState, sameValue⟩ := sameOutcome settled
  obtain ⟨sameState', sameValue'⟩ := sameOutcome' (sameState ▸ settled)
  exact ⟨sameState'.trans sameState, sameValue'.trans sameValue⟩

theorem KeptGuards.refl (guards : List (Guard User)) : KeptGuards guards guards :=
  fun _ guard isGuard => ⟨guard, isGuard, rfl, rfl, rfl, id⟩

theorem KeptGuards.trans {guards middle later : List (Guard User)} (first : KeptGuards guards middle)
    (second : KeptGuards middle later) : KeptGuards guards later := by
  intro g guard isGuard
  obtain ⟨guard', isGuard', samePromise, sameSubject, sameNative, open'⟩ := first g guard isGuard
  obtain ⟨guard'', isGuard'', samePromise', sameSubject', sameNative', open''⟩ :=
    second g guard' isGuard'
  exact ⟨guard'', isGuard'', samePromise'.trans samePromise, sameSubject'.trans sameSubject,
    sameNative'.trans sameNative, open' ∘ open''⟩

theorem Carries.of_kept {promises later : List (Promise User)} {job : Job User}
    (carries : Carries promises job) (kept : Kept promises later) : Carries later job := by
  obtain ⟨promise, isPromise, settled, sameState, sameValue⟩ := carries
  obtain ⟨promise', isPromise', -, sameOutcome⟩ := kept job.promise promise isPromise
  obtain ⟨isState, isValue⟩ := sameOutcome settled
  exact ⟨promise', isPromise', isState ▸ settled, sameState.trans isState.symm,
    sameValue.trans isValue.symm⟩

namespace Evolves

variable {s middle later : State User}

theorem refl (s : State User) : Evolves s s where
  orderly := id
  kept := Kept.refl s.promises
  keptGuards := KeptGuards.refl s.guards
  pends _ _ := id
  sameRun := rfl

theorem trans (first : Evolves s middle) (second : Evolves middle later) : Evolves s later where
  orderly := second.orderly ∘ first.orderly
  kept := first.kept.trans second.kept
  keptGuards := first.keptGuards.trans second.keptGuards
  pends p handler := second.pends p handler ∘ first.pends p handler
  sameRun := second.sameRun.trans first.sameRun

/-- Where control is makes no difference. -/
theorem of_heap (samePromises : later.promises = s.promises) (sameQueue : later.queue = s.queue)
    (keptGuards : KeptGuards s.guards later.guards) (sameRun : jobsRun later.log = jobsRun s.log)
    (sameRegistrations : registrations later.log = registrations s.log) : Evolves s later where
  orderly orderly := by
    rw [State.IsOrderly, samePromises, sameQueue, sameRun, sameRegistrations]
    exact orderly
  kept := samePromises ▸ Kept.refl s.promises
  keptGuards := keptGuards
  pends p handler isPending := by
    rw [State.Pends, samePromises, sameQueue]
    exact isPending
  sameRun := sameRun

theorem completeWith (evolves : Evolves s later) (completion : Completion User) :
    Evolves s (later.completeWith completion) :=
  evolves.trans (of_heap rfl rfl (KeptGuards.refl later.guards) rfl rfl)

theorem push (evolves : Evolves s later) (frame : Frame User) : Evolves s (later.push frame) :=
  evolves.trans (of_heap rfl rfl (KeptGuards.refl later.guards) rfl rfl)

/-- Nothing else is noted of the handlers than the calls of `then` and the microtasks. -/
theorem note (evolves : Evolves s later) (event : Event User) (noJob : event.job = none)
    (noRegistration : event.registration = none) : Evolves s (later.note event) := by
  have sameRun : jobsRun (later.note event).log = jobsRun later.log := by
    show (later.log ++ [event]).filterMap Event.job = _
    rw [List.filterMap_append, List.filterMap_cons_none noJob]
    exact List.append_nil _
  have sameRegistrations : registrations (later.note event).log = registrations later.log := by
    show (later.log ++ [event]).filterMap Event.registration = _
    rw [List.filterMap_append, List.filterMap_cons_none noRegistration]
    exact List.append_nil _
  exact evolves.trans (of_heap rfl rfl (KeptGuards.refl later.guards) sameRun sameRegistrations)

end Evolves

/-! ## Settling and registering -/

section Heap

variable {s : State User} {promises : List (Promise User)} {p : Nat} {promise : Promise User}

theorem lt_of_getElem? {α : Type} {xs : List α} {i : Nat} {x : α} (isElement : xs[i]? = some x) :
    i < xs.length :=
  (List.getElem?_eq_some_iff.mp isElement).1

/-- One promise has changed. -/
theorem getElem?_set_cases {later : Promise User} {q : Nat} {other : Promise User}
    (isOther : (promises.set p later)[q]? = some other) :
    q = p ∧ other = later ∨ q ≠ p ∧ promises[q]? = some other := by
  by_cases same : p = q
  · subst same
    have inside : p < promises.length := by simpa using lt_of_getElem? isOther
    rw [List.getElem?_set_self inside] at isOther
    exact Or.inl ⟨rfl, (Option.some.inj isOther).symm⟩
  · rw [List.getElem?_set_ne same] at isOther
    exact Or.inr ⟨fun equal => same equal.symm, isOther⟩

/-- A promise that is pending may change its state, and any promise its callbacks. -/
theorem kept_set (later : Promise User) (isPromise : promises[p]? = some promise)
    (sameExposed : later.exposed = promise.exposed) (sameOutcome : promise.state ≠ .pending →
      later.state = promise.state ∧ later.value = promise.value) :
    Kept promises (promises.set p later) := by
  intro q other isOther
  by_cases same : p = q
  · subst same
    cases isPromise.symm.trans isOther
    refine ⟨later, ?_, sameExposed, sameOutcome⟩
    rw [List.getElem?_set_self (lt_of_getElem? isPromise)]
  · exact ⟨other, by rw [List.getElem?_set_ne same, isOther], rfl, fun _ => ⟨rfl, rfl⟩⟩

theorem handlersOf_append (first second : List (Nat × Handler User)) (q : Nat) :
    handlersOf (first ++ second) q = handlersOf first q ++ handlersOf second q :=
  List.filterMap_append

theorem handlersOf_self (p : Nat) (handlers : List (Handler User)) :
    handlersOf (handlers.map fun handler => (p, handler)) p = handlers := by
  induction handlers with
  | nil => rfl
  | cons handler handlers induction =>
      have isHandler : handlerAt p (p, handler) = some handler := if_pos rfl
      rw [List.map_cons, handlersOf, List.filterMap_cons_some isHandler]
      exact congrArg (handler :: ·) induction

theorem handlersOf_ne {q : Nat} (handlers : List (Handler User)) (different : p ≠ q) :
    handlersOf (handlers.map fun handler => (p, handler)) q = [] := by
  induction handlers with
  | nil => rfl
  | cons handler handlers induction =>
      have notHandler : handlerAt q (p, handler) = none := if_neg different
      rw [List.map_cons, handlersOf, List.filterMap_cons_none notHandler]
      exact induction

theorem handlersOf_eq_nil {registrations : List (Nat × Handler User)}
    (elsewhere : ∀ registration ∈ registrations, registration.1 ≠ p) :
    handlersOf registrations p = [] :=
  List.filterMap_eq_nil_iff.mpr fun registration member => if_neg (elsewhere registration member)

theorem settle_of_pending {state : Status} {value : Value User}
    (isPromise : s.promises[p]? = some promise) (isPending : promise.state = .pending) :
    s.settle p state value =
      { s with
        promises := s.promises.set p
          { promise with state := state, value := value, callbacks := [] }
        queue := s.queue ++ promise.callbacks.map fun handler => ⟨p, handler, state, value⟩ } := by
  rw [State.settle, isPromise]
  exact if_pos isPending

theorem settle_of_settled {state : Status} {value : Value User}
    (settled : ∀ promise, s.promises[p]? = some promise → promise.state ≠ .pending) :
    s.settle p state value = s := by
  rw [State.settle]
  split
  next promise isPromise => exact if_neg (settled promise isPromise)
  next => rfl

/-- The handlers that waited are scheduled, in this order. -/
theorem Orderly.settle {jobs : List (Job User)} {registrations : List (Nat × Handler User)}
    (orderly : Orderly promises jobs registrations) (isPromise : promises[p]? = some promise)
    (isPending : promise.state = .pending) {state : Status} (isOutcome : state ≠ .pending)
    (value : Value User) :
    Orderly (promises.set p { promise with state := state, value := value, callbacks := [] })
      (jobs ++ promise.callbacks.map fun handler => ⟨p, handler, state, value⟩)
      registrations := by
  have kept := kept_set { promise with state := state, value := value, callbacks := [] }
    isPromise rfl fun settled => absurd isPending settled
  have sameHandlers : (promise.callbacks.map fun handler => (⟨p, handler, state, value⟩ : Job User)).map
      Job.registration = promise.callbacks.map fun handler => (p, handler) := List.map_map
  constructor
  · intro q other isOther
    rw [List.map_append, handlersOf_append, sameHandlers]
    rcases getElem?_set_cases isOther with ⟨rfl, rfl⟩ | ⟨different, isOther⟩
    · rw [handlersOf_self, orderly.accounted q promise isPromise, List.append_nil]
    · rw [handlersOf_ne _ (Ne.symm different), List.append_nil]
      exact orderly.accounted q other isOther
  · intro registration member
    rw [List.length_set]
    exact orderly.bounded registration member
  · exact orderly.fresh
  · intro registration member
    rw [List.length_set]
    exact orderly.older registration member
  · intro q other isOther stillPending
    rcases getElem?_set_cases isOther with ⟨rfl, rfl⟩ | ⟨-, isOther⟩
    · exact absurd stillPending isOutcome
    · exact orderly.waiting q other isOther stillPending
  · intro q other isOther settled
    rcases getElem?_set_cases isOther with ⟨rfl, rfl⟩ | ⟨-, isOther⟩
    · rfl
    · exact orderly.flushed q other isOther settled
  · intro job member
    rcases List.mem_append.mp member with member | isNew
    · exact (orderly.carried job member).of_kept kept
    · obtain ⟨handler, -, rfl⟩ := List.mem_map.mp isNew
      exact ⟨_, List.getElem?_set_self (lt_of_getElem? isPromise), isOutcome, rfl, rfl⟩

theorem pends_settle (s : State User) (p : Nat) (state : Status) (value : Value User) (q : Nat)
    (handler : Handler User) : (s.settle p state value).Pends q handler ↔ s.Pends q handler := by
  by_cases isPending : ∃ promise, s.promises[p]? = some promise ∧ promise.state = .pending
  · obtain ⟨promise, isPromise, isPending⟩ := isPending
    rw [settle_of_pending isPromise isPending]
    constructor
    · intro pends
      rcases pends with ⟨other, isOther, member⟩ | ⟨job, isJob, isThis⟩
      · rcases getElem?_set_cases isOther with ⟨rfl, rfl⟩ | ⟨-, isOther⟩
        · cases member
        · exact Or.inl ⟨other, isOther, member⟩
      · rcases List.mem_append.mp isJob with isJob | isNew
        · exact Or.inr ⟨job, isJob, isThis⟩
        · obtain ⟨waiting, member, rfl⟩ := List.mem_map.mp isNew
          obtain ⟨rfl, rfl⟩ := isThis
          exact Or.inl ⟨promise, isPromise, member⟩
    · intro pends
      rcases pends with ⟨other, isOther, member⟩ | ⟨job, isJob, isThis⟩
      · by_cases same : p = q
        · subst same
          cases isPromise.symm.trans isOther
          exact Or.inr ⟨_, List.mem_append_right _ (List.mem_map_of_mem member), rfl, rfl⟩
        · exact Or.inl ⟨other, by rw [List.getElem?_set_ne same, isOther], member⟩
      · exact Or.inr ⟨job, List.mem_append_left _ isJob, isThis⟩
  · rw [settle_of_settled fun promise isPromise pending => isPending ⟨promise, isPromise, pending⟩]

theorem evolves_settle (s : State User) (p : Nat) {state : Status} (value : Value User)
    (isOutcome : state ≠ .pending) : Evolves s (s.settle p state value) := by
  by_cases isPending : ∃ promise, s.promises[p]? = some promise ∧ promise.state = .pending
  · obtain ⟨promise, isPromise, isPending⟩ := isPending
    rw [settle_of_pending isPromise isPending]
    constructor
    · intro orderly
      have settled := Orderly.settle orderly isPromise isPending isOutcome value
      rw [List.append_assoc] at settled
      exact settled
    · exact kept_set _ isPromise rfl fun settled => absurd isPending settled
    · exact KeptGuards.refl s.guards
    · intro q handler pends
      have still := (pends_settle s p state value q handler).mpr pends
      rwa [settle_of_pending isPromise isPending] at still
    · rfl
  · rw [settle_of_settled fun promise isPromise pending => isPending ⟨promise, isPromise, pending⟩]
    exact Evolves.refl s

theorem getElem?_append_new {α : Type} {xs : List α} {fresh other : α} {i : Nat}
    (isOther : (xs ++ [fresh])[i]? = some other) :
    xs[i]? = some other ∨ i = xs.length ∧ other = fresh := by
  rcases Nat.lt_or_ge i xs.length with inside | outside
  · rw [List.getElem?_append_left inside] at isOther
    exact Or.inl isOther
  · have isLast : i = xs.length := by
      have := lt_of_getElem? isOther
      rw [List.length_append, List.length_singleton] at this
      omega
    subst isLast
    rw [List.getElem?_concat_length] at isOther
    exact Or.inr ⟨rfl, (Option.some.inj isOther).symm⟩

theorem kept_append (promises : List (Promise User)) (fresh : Promise User) :
    Kept promises (promises ++ [fresh]) := fun _ promise isPromise =>
  ⟨promise, by rw [List.getElem?_append_left (lt_of_getElem? isPromise), isPromise],
    rfl, fun _ => ⟨rfl, rfl⟩⟩

/-- A new promise has no handlers. -/
theorem Orderly.allocate {jobs : List (Job User)} {registrations : List (Nat × Handler User)}
    (orderly : Orderly promises jobs registrations) (exposed : Bool) :
    Orderly (promises ++ [.new exposed]) jobs registrations := by
  have noneRegistered : handlersOf registrations promises.length = [] :=
    handlersOf_eq_nil fun registration member =>
      Nat.ne_of_lt (orderly.bounded registration member)
  have noneScheduled : handlersOf (jobs.map Job.registration) promises.length = [] := by
    apply handlersOf_eq_nil
    intro registration member
    obtain ⟨job, isJob, rfl⟩ := List.mem_map.mp member
    obtain ⟨promise, isPromise, -⟩ := orderly.carried job isJob
    exact Nat.ne_of_lt (lt_of_getElem? isPromise)
  have longer : (promises ++ [Promise.new exposed]).length = promises.length + 1 :=
    List.length_append
  constructor
  · intro q other isOther
    rcases getElem?_append_new isOther with isOther | ⟨rfl, rfl⟩
    · exact orderly.accounted q other isOther
    · rw [noneRegistered, noneScheduled]
      rfl
  · intro registration member
    have := orderly.bounded registration member
    omega
  · exact orderly.fresh
  · intro registration member
    have := orderly.older registration member
    omega
  · intro q other isOther stillPending
    rcases getElem?_append_new isOther with isOther | ⟨rfl, rfl⟩
    · exact orderly.waiting q other isOther stillPending
    · rfl
  · intro q other isOther settled
    rcases getElem?_append_new isOther with isOther | ⟨rfl, rfl⟩
    · exact orderly.flushed q other isOther settled
    · rfl
  · exact fun job member => (orderly.carried job member).of_kept (kept_append _ _)

theorem pends_allocate (s : State User) (exposed : Bool) (q : Nat) (handler : Handler User) :
    (s.allocate exposed).Pends q handler ↔ s.Pends q handler := by
  constructor
  · intro pends
    rcases pends with ⟨other, isOther, member⟩ | isQueued
    · rcases getElem?_append_new isOther with isOther | ⟨rfl, rfl⟩
      · exact Or.inl ⟨other, isOther, member⟩
      · cases member
    · exact Or.inr isQueued
  · intro pends
    rcases pends with ⟨other, isOther, member⟩ | isQueued
    · refine Or.inl ⟨other, ?_, member⟩
      rw [State.allocate, List.getElem?_append_left (lt_of_getElem? isOther), isOther]
    · exact Or.inr isQueued

theorem evolves_allocate (s : State User) (exposed : Bool) : Evolves s (s.allocate exposed) where
  orderly orderly := Orderly.allocate orderly exposed
  kept := kept_append _ _
  keptGuards := KeptGuards.refl s.guards
  pends q handler := (pends_allocate s exposed q handler).mpr
  sameRun := rfl

theorem register_of_pending {handler : Handler User} (isPromise : s.promises[p]? = some promise)
    (isPending : promise.state = .pending) :
    s.register p handler =
      { s with
        promises := s.promises.set p
          { promise with callbacks := promise.callbacks ++ [handler] } } := by
  rw [State.register, isPromise]
  exact if_pos isPending

theorem register_of_settled {handler : Handler User} (isPromise : s.promises[p]? = some promise)
    (settled : promise.state ≠ .pending) :
    s.register p handler =
      { s with queue := s.queue ++ [⟨p, handler, promise.state, promise.value⟩] } := by
  rw [State.register, isPromise]
  exact if_neg settled

theorem pends_register {registered : Handler User} (isPromise : s.promises[p]? = some promise)
    (q : Nat) (handler : Handler User) : (s.register p registered).Pends q handler ↔
      s.Pends q handler ∨ q = p ∧ handler = registered := by
  by_cases isPending : promise.state = .pending
  · rw [register_of_pending isPromise isPending]
    constructor
    · intro pends
      rcases pends with ⟨other, isOther, member⟩ | isQueued
      · rcases getElem?_set_cases isOther with ⟨rfl, rfl⟩ | ⟨-, isOther⟩
        · rcases List.mem_append.mp member with member | isLast
          · exact Or.inl (Or.inl ⟨promise, isPromise, member⟩)
          · exact Or.inr ⟨rfl, List.mem_singleton.mp isLast⟩
        · exact Or.inl (Or.inl ⟨other, isOther, member⟩)
      · exact Or.inl (Or.inr isQueued)
    · intro pends
      rcases pends with (⟨other, isOther, member⟩ | isQueued) | ⟨rfl, rfl⟩
      · by_cases same : p = q
        · subst same
          cases isPromise.symm.trans isOther
          exact Or.inl ⟨_, List.getElem?_set_self (lt_of_getElem? isPromise),
            List.mem_append_left _ member⟩
        · exact Or.inl ⟨other, by rw [List.getElem?_set_ne same, isOther], member⟩
      · exact Or.inr isQueued
      · exact Or.inl ⟨_, List.getElem?_set_self (lt_of_getElem? isPromise),
          List.mem_append_right _ (List.mem_singleton_self handler)⟩
  · rw [register_of_settled isPromise isPending]
    constructor
    · intro pends
      rcases pends with isWaiting | ⟨job, isJob, isThis⟩
      · exact Or.inl (Or.inl isWaiting)
      · rcases List.mem_append.mp isJob with isJob | isLast
        · exact Or.inl (Or.inr ⟨job, isJob, isThis⟩)
        · rw [List.mem_singleton.mp isLast] at isThis
          exact Or.inr ⟨isThis.1.symm, isThis.2.symm⟩
    · intro pends
      rcases pends with (isWaiting | ⟨job, isJob, isThis⟩) | ⟨rfl, rfl⟩
      · exact Or.inl isWaiting
      · exact Or.inr ⟨job, List.mem_append_left _ isJob, isThis⟩
      · exact Or.inr ⟨_, List.mem_append_right _ (List.mem_singleton_self _), rfl, rfl⟩

/-- The handler waits behind the others. -/
theorem Orderly.register_pending {jobs : List (Job User)}
    {registrations : List (Nat × Handler User)} {handler : Handler User}
    (orderly : Orderly promises jobs registrations) (isPromise : promises[p]? = some promise)
    (isPending : promise.state = .pending)
    (isFresh : ((registrations ++ [(p, handler)]).map (·.2.next)).Nodup)
    (isOlder : handler.next < promises.length) :
    Orderly (promises.set p { promise with callbacks := promise.callbacks ++ [handler] }) jobs
      (registrations ++ [(p, handler)]) := by
  constructor
  · intro q other isOther
    rw [handlersOf_append]
    rcases getElem?_set_cases isOther with ⟨rfl, rfl⟩ | ⟨different, isOther⟩
    · have isLast : handlersOf [(q, handler)] q = [handler] := handlersOf_self q [handler]
      rw [isLast, orderly.accounted q promise isPromise]
      exact List.append_assoc _ _ _
    · have notLast : handlersOf [(p, handler)] q = [] := handlersOf_ne [handler] (Ne.symm different)
      rw [notLast, List.append_nil]
      exact orderly.accounted q other isOther
  · rw [List.length_set]
    exact List.forall_mem_append.mpr ⟨orderly.bounded,
      List.forall_mem_singleton.mpr (lt_of_getElem? isPromise)⟩
  · exact isFresh
  · rw [List.length_set]
    exact List.forall_mem_append.mpr ⟨orderly.older, List.forall_mem_singleton.mpr isOlder⟩
  · intro q other isOther stillPending
    rcases getElem?_set_cases isOther with ⟨rfl, rfl⟩ | ⟨-, isOther⟩
    · exact orderly.waiting q promise isPromise isPending
    · exact orderly.waiting q other isOther stillPending
  · intro q other isOther settled
    rcases getElem?_set_cases isOther with ⟨rfl, rfl⟩ | ⟨-, isOther⟩
    · exact absurd isPending settled
    · exact orderly.flushed q other isOther settled
  · exact fun job member => (orderly.carried job member).of_kept
      (kept_set _ isPromise rfl fun settled => absurd isPending settled)

/-- Nothing waits any more, and the handler is scheduled behind the others. -/
theorem Orderly.register_settled {jobs : List (Job User)}
    {registrations : List (Nat × Handler User)} {handler : Handler User}
    (orderly : Orderly promises jobs registrations) (isPromise : promises[p]? = some promise)
    (settled : promise.state ≠ .pending)
    (isFresh : ((registrations ++ [(p, handler)]).map (·.2.next)).Nodup)
    (isOlder : handler.next < promises.length) :
    Orderly promises (jobs ++ [⟨p, handler, promise.state, promise.value⟩])
      (registrations ++ [(p, handler)]) := by
  constructor
  · intro q other isOther
    have sameHandlers : handlersOf [(p, handler)] q ++ other.callbacks =
        other.callbacks ++ handlersOf [(p, handler)] q := by
      by_cases same : p = q
      · subst same
        cases isPromise.symm.trans isOther
        rw [orderly.flushed p promise isPromise settled]
        exact List.append_nil _
      · have notLast : handlersOf [(p, handler)] q = [] := handlersOf_ne [handler] same
        rw [notLast]
        exact (List.append_nil _).symm
    rw [List.map_append, handlersOf_append, handlersOf_append, orderly.accounted q other isOther,
      List.append_assoc, List.append_assoc, ← sameHandlers]
    rfl
  · exact List.forall_mem_append.mpr ⟨orderly.bounded,
      List.forall_mem_singleton.mpr (lt_of_getElem? isPromise)⟩
  · exact isFresh
  · exact List.forall_mem_append.mpr ⟨orderly.older, List.forall_mem_singleton.mpr isOlder⟩
  · exact orderly.waiting
  · exact orderly.flushed
  · exact List.forall_mem_append.mpr ⟨orderly.carried,
      List.forall_mem_singleton.mpr ⟨promise, isPromise, settled, rfl, rfl⟩⟩

theorem registrations_registered (log : List (Event User)) (p : Nat) (handler : Handler User) :
    registrations (log ++ [.registered p handler]) = registrations log ++ [(p, handler)] :=
  List.filterMap_append

theorem jobsRun_registered (log : List (Event User)) (p : Nat) (handler : Handler User) :
    jobsRun (log ++ [.registered p handler]) = jobsRun log :=
  List.filterMap_append.trans (List.append_nil _)

theorem Evolves.register {origin : State User} {handler : Handler User} (evolves : Evolves origin s)
    (isPromise : s.promises[p]? = some promise)
    (isFresh : origin.IsOrderly → ∀ registration ∈ registrations s.log,
      registration.2.next ≠ handler.next)
    (isOlder : handler.next < s.promises.length) :
    Evolves origin ((s.register p handler).note (.registered p handler)) := by
  have freshAll : origin.IsOrderly →
      ((registrations s.log ++ [(p, handler)]).map (·.2.next)).Nodup := by
    intro orderly
    rw [List.map_append]
    apply List.nodup_append.mpr
    refine ⟨(evolves.orderly orderly).fresh, List.pairwise_singleton _ _,
      fun next isNext last isLast => ?_⟩
    obtain ⟨registration, member, rfl⟩ := List.mem_map.mp isNext
    rw [List.mem_singleton.mp isLast]
    exact isFresh orderly registration member
  have stillPends : ∀ (q : Nat) (waiting : Handler User), origin.Pends q waiting →
      (s.register p handler).Pends q waiting := fun q waiting pends =>
    (pends_register isPromise q waiting).mpr (Or.inl (evolves.pends q waiting pends))
  by_cases isPending : promise.state = .pending
  · rw [register_of_pending isPromise isPending] at stillPends ⊢
    constructor
    · intro orderly
      rw [State.IsOrderly, State.note, registrations_registered, jobsRun_registered]
      exact (evolves.orderly orderly).register_pending isPromise isPending (freshAll orderly)
        isOlder
    · exact evolves.kept.trans (kept_set _ isPromise rfl fun settled => absurd isPending settled)
    · exact evolves.keptGuards
    · exact stillPends
    · exact (jobsRun_registered _ _ _).trans evolves.sameRun
  · rw [register_of_settled isPromise isPending] at stillPends ⊢
    constructor
    · intro orderly
      rw [State.IsOrderly, State.note, registrations_registered, jobsRun_registered,
        ← List.append_assoc]
      exact (evolves.orderly orderly).register_settled isPromise isPending (freshAll orderly)
        isOlder
    · exact evolves.kept
    · exact evolves.keptGuards
    · exact stillPends
    · exact (jobsRun_registered _ _ _).trans evolves.sameRun

end Heap

end FoundationsLab.Promises
