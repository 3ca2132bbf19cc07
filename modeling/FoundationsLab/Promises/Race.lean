import FoundationsLab.Promises.OrderIndependence

/-! # `APromise.race`

One call of `race` beside the rest of a program, as for `all`. The functions of its promise are
themselves the handlers of the items. An object that has fulfilled a promise had no `then` that
is a function, and the program leaves it so. -/

namespace FoundationsLab.Promises

/-- The promises, and the variables of the call. -/
structure RaceState (User : Type) where
  heap : State (Code User)
  phase : Phase
  result : Nat
  /-- The items so far, and their promises. -/
  items : List (Value (Code User))
  inputs : List Nat

variable {User : Type}

/-- A promise is never fulfilled with a promise. -/
def Value.isPlain : Value User → Bool
  | promise _ => false
  | _ => true

namespace State

/-- `resolve(value)` for the value of a promise that has been fulfilled. -/
def resolveAgain (s : State (Code User)) (p : Nat) (value : Value (Code User)) :
    State (Code User) :=
  if s.isPending p && value.isObject then
    { s.callResolve p value with stack := s.stack }.afterRead p value (.returned .undefined)
  else s.callResolve p value

end State

namespace RaceState

def initial : RaceState User where
  heap := .initial
  phase := .before
  result := 0
  items := []
  inputs := []

/-- `new APromise((resolve, reject) => …)` -/
def begin (s : RaceState User) : RaceState User :=
  { s with
    heap := s.heap.allocate false
    phase := .looping
    result := s.heap.promises.length }

/-- `APromise.resolve(item).then(resolve, reject)` -/
def next (s : RaceState User) (item : Value (Code User)) : RaceState User :=
  let (heap, p) := s.heap.promiseFor item
  { s with
    heap := heap.callThen (.promise p) (.function (.resolve s.result))
      (.function (.reject s.result))
    items := s.items ++ [item]
    inputs := s.inputs ++ [p] }

def owns (s : RaceState User) (q : Nat) : Bool := s.phase = .returned && q = s.result

/-- A microtask. What the other handlers do is left to the program. -/
def runJob (s : RaceState User) (job : Job (Code User)) : RaceState User :=
  let s := { s with heap := s.heap.note (.ran job) }
  match job.callback with
  | some (.resolve q) =>
      if s.owns q then
        { s with heap := (s.heap.resolveAgain q job.value).callResolve job.handler.next .undefined }
      else s
  | some (.reject q) =>
      if s.owns q then
        { s with heap := (s.heap.callReject q job.value).callResolve job.handler.next .undefined }
      else s
  | _ => s

/-! ## Steps -/

inductive Action (User : Type) where
  | create (exposed : Bool)
  | settle (p : Nat) (fulfils : Bool) (value : Value (Code User))
  | callThen (this onFulfilled onRejected : Value (Code User))
  | begin
  | next (item : Value (Code User))
  | finish
  | microtask

def step (s : RaceState User) : Action User → Option (RaceState User)
  | .create exposed => some { s with heap := s.heap.allocate exposed }
  | .settle p fulfils value =>
      if (s.phase ≠ .before ∧ p = s.result) ∨ (fulfils = true ∧ value.isPlain = false) then none
      else some { s with
        heap := s.heap.settle p (if fulfils then .fulfilled else .rejected) value }
  | .callThen this onFulfilled onRejected =>
      if s.heap.knowsValue onFulfilled && s.heap.knowsValue onRejected then
        some { s with heap := s.heap.callThen this onFulfilled onRejected }
      else none
  | .begin => if s.phase = .before then some s.begin else none
  | .next item =>
      -- The call has not returned its promise yet.
      if s.phase = .looping ∧ s.heap.knowsValue item = true ∧ item.isPromise s.result = false then
        some (s.next item)
      else none
  | .finish => if s.phase = .looping then some { s with phase := .returned } else none
  | .microtask =>
      match s.heap.queue with
      | [] => none
      | job :: queue =>
          if s.phase = .looping then none
          else some ({ s with heap := { s.heap with queue := queue } }.runJob job)

def run (s : RaceState User) : List (Action User) → Option (RaceState User)
  | [] => some s
  | action :: actions => (s.step action).bind fun next => next.run actions

/-- What a call of `all` would have of the same promises. -/
def shared (s : RaceState User) : AllState User :=
  { AllState.initial with heap := s.heap, items := s.items, inputs := s.inputs }

end RaceState

section Outcomes

variable {fulfils : Bool} {value : Value User}

theorem outcome_ne_pending (fulfils : Bool) :
    (if fulfils then Status.fulfilled else .rejected) ≠ .pending := by
  split
  · exact Status.noConfusion
  · exact Status.noConfusion

theorem isPlain_of_outcome (accepted : ¬ (fulfils = true ∧ value.isPlain = false)) :
    (if fulfils then Status.fulfilled else .rejected) = .fulfilled → value.isPlain = true := by
  intro isFulfilled
  cases fulfils with
  | true =>
      apply (Bool.not_eq_false _).mp
      exact fun notPlain => accepted ⟨rfl, notPlain⟩
  | false => cases isFulfilled

end Outcomes

/-! ## The queue and the values -/

/-- Microtasks are put behind those that wait, and no promise becomes the value of another. -/
def State.Plain (s : State User) : Prop :=
  ∀ promise ∈ s.promises, promise.state = .fulfilled → promise.value.isPlain = true

structure Extends (s later : State User) : Prop where
  queue : s.queue <+: later.queue
  plain : s.Plain → later.Plain

section Extending

variable {s middle later : State User}

theorem Extends.refl (s : State User) : Extends s s where
  queue := List.prefix_rfl
  plain := id

theorem Extends.trans (first : Extends s middle) (second : Extends middle later) :
    Extends s later where
  queue := first.queue.trans second.queue
  plain := second.plain ∘ first.plain

theorem Extends.of_same (samePromises : later.promises = s.promises)
    (sameQueue : later.queue = s.queue) : Extends s later where
  queue := ⟨[], (List.append_nil s.queue).trans sameQueue.symm⟩
  plain := by
    intro plain
    rw [State.Plain, samePromises]
    exact plain

theorem extends_settle (s : State User) (p : Nat) (state : Status) (value : Value User)
    (isPlain : state = .fulfilled → value.isPlain = true) : Extends s (s.settle p state value) := by
  by_cases isPending : ∃ promise, s.promises[p]? = some promise ∧ promise.state = .pending
  · obtain ⟨promise, isPromise, isPending⟩ := isPending
    rw [settle_of_pending isPromise isPending]
    constructor
    · exact List.prefix_append _ _
    · intro plain other member
      rcases List.mem_or_eq_of_mem_set member with old | isNew
      · exact plain other old
      · subst isNew
        exact isPlain
  · rw [settle_of_settled fun promise isPromise pending => isPending ⟨promise, isPromise, pending⟩]
    exact Extends.refl s

theorem extends_allocate (s : State User) (exposed : Bool) : Extends s (s.allocate exposed) where
  queue := List.prefix_rfl
  plain := by
    intro plain promise member
    rcases List.mem_append.mp member with old | isNew
    · exact plain promise old
    · rw [List.mem_singleton.mp isNew]
      intro isFulfilled
      cases isFulfilled

theorem extends_register (s : State User) (p : Nat) (handler : Handler User) :
    Extends s (s.register p handler) := by
  cases isPromise : s.promises[p]? with
  | none =>
      rw [State.register, isPromise]
      exact Extends.refl s
  | some promise =>
      by_cases isPending : promise.state = .pending
      · rw [register_of_pending isPromise isPending]
        constructor
        · exact List.prefix_rfl
        · intro plain other member
          rcases List.mem_or_eq_of_mem_set member with old | isNew
          · exact plain other old
          · subst isNew
            exact plain promise (List.mem_of_getElem? isPromise)
      · rw [register_of_settled isPromise isPending]
        constructor
        · exact List.prefix_append _ _
        · exact id

theorem extends_callThen (s : State User) (this onFulfilled onRejected : Value User) :
    Extends s (s.callThen this onFulfilled onRejected) := by
  have allocated := extends_allocate s false
  rw [State.callThen]
  split
  next p _ =>
    have registered := allocated.trans (extends_register (s.allocate false) p
      ⟨onFulfilled.asFunction, onRejected.asFunction, s.promises.length⟩)
    exact registered.trans (Extends.of_same rfl rfl)
  next => exact allocated.trans (Extends.of_same rfl rfl)

theorem extends_callReject (s : State User) (p : Nat) (r : Value User) :
    Extends s (s.callReject p r) := by
  have noted : Extends s (s.note (.called p (.reject r) (s.isPending p))) := Extends.of_same rfl rfl
  have settled := extends_settle (s.note (.called p (.reject r) (s.isPending p))) p .rejected r
    Status.noConfusion
  exact (noted.trans settled).trans (Extends.of_same rfl rfl)

theorem isPlain_of_primitive {value : Value User} (primitive : value.isObject = false) :
    value.isPlain = true := by
  cases value with
  | promise p => cases primitive
  | _ => rfl

theorem extends_callResolve (s : State User) (p : Nat) {value : Value User}
    (primitive : value.isObject = false) : Extends s (s.callResolve p value) := by
  have noted : Extends s (s.note (.called p (.resolve value) (s.isPending p))) :=
    Extends.of_same rfl rfl
  rw [State.callResolve]
  split
  · rw [State.resolvePromise, primitive]
    split
    · have settled := extends_settle (s.note (.called p (.resolve value) (s.isPending p))) p
        .rejected .typeError Status.noConfusion
      exact (noted.trans settled).trans (Extends.of_same rfl rfl)
    · have settled := extends_settle (s.note (.called p (.resolve value) (s.isPending p))) p
        .fulfilled value fun _ => isPlain_of_primitive primitive
      exact (noted.trans settled).trans (Extends.of_same rfl rfl)
  · exact noted.trans (Extends.of_same rfl rfl)

end Extending

section Resolving

variable {s : State (Code User)} {p : Nat} {value : Value (Code User)}

theorem extends_promiseFor (s : State (Code User)) (item : Value (Code User)) :
    Extends s (s.promiseFor item).1 := by
  have fresh : ∀ value : Value (Code User), Extends s
      (if value.isObject then s.allocate false
        else (s.allocate false).callResolve s.promises.length value) := by
    intro value
    cases isObject : value.isObject with
    | true => exact extends_allocate s false
    | false => exact (extends_allocate s false).trans (extends_callResolve _ _ isObject)
  cases item with
  | promise p => exact Extends.refl s
  | undefined => exact fresh .undefined
  | primitive data => exact fresh (.primitive data)
  | object data => exact fresh (.object data)
  | typeError => exact fresh .typeError
  | function f => exact fresh (.function f)

/-- A plain value fulfils a promise that is pending. -/
theorem resolveAgain_pending (isPending : s.isPending p = true) (isPlain : value.isPlain = true) :
    ∃ noted : State (Code User), noted.promises = s.promises ∧ noted.queue = s.queue ∧
      registrations noted.log = registrations s.log ∧
      s.resolveAgain p value = (noted.settle p .fulfilled value).completeWith .done := by
  have notSelf : value.isPromise p = false := by
    cases value with
    | promise q => cases isPlain
    | _ => rfl
  have called : registrations (s.note (.called p (.resolve value) true)).log =
      registrations s.log := registrations_note s.log rfl
  cases isObject : value.isObject with
  | true =>
      refine ⟨{ s.note (.called p (.resolve value) true) with control := .user }.note
        (.noThenable p), rfl, rfl, ?_, ?_⟩
      · exact (registrations_note (s.note (.called p (.resolve value) true)).log rfl).trans called
      · rw [State.resolveAgain, isPending, isObject, State.callResolve, isPending,
          State.resolvePromise, notSelf, isObject]
        rfl
  | false =>
      refine ⟨s.note (.called p (.resolve value) true), rfl, rfl, called, ?_⟩
      rw [State.resolveAgain, isPending, isObject, State.callResolve, isPending,
        State.resolvePromise, notSelf, isObject]
      rfl

theorem resolveAgain_settled (notPending : s.isPending p = false) :
    s.resolveAgain p value =
      (s.note (.called p (.resolve value) false)).completeWith .done := by
  rw [State.resolveAgain, State.callResolve, notPending]
  rfl

theorem view_resolveAgain (isPlain : value.isPlain = true) (q : Nat) :
    (s.resolveAgain p value).view q = (s.settle p .fulfilled value).view q := by
  cases isPending : s.isPending p with
  | true =>
      obtain ⟨noted, samePromises, -, -, isResolved⟩ := resolveAgain_pending isPending isPlain
      rw [isResolved]
      apply view_of_same
      exact settle_promises samePromises
  | false =>
      rw [resolveAgain_settled isPending]
      have notPending : ∀ promise, s.promises[p]? = some promise → promise.state ≠ .pending := by
        intro promise isPromise pending
        cases isPending.symm.trans (isPending_iff.mpr ⟨promise, isPromise, pending⟩)
      rw [settle_of_settled notPending]
      rfl

theorem evolves_resolveAgain (s : State (Code User)) (p : Nat) (value : Value (Code User)) :
    Evolves s (s.resolveAgain p value) := by
  rw [State.resolveAgain]
  split
  · have resolved := evolves_callResolve s p value
    have read : Evolves (s.callResolve p value) { s.callResolve p value with stack := s.stack } :=
      Evolves.of_heap rfl rfl (KeptGuards.refl _) rfl rfl
    exact (resolved.trans read).trans (evolves_afterRead _ p value _)
  · exact evolves_callResolve s p value

theorem registrations_resolveAgain (isPlain : value.isPlain = true) :
    registrations (s.resolveAgain p value).log = registrations s.log := by
  cases isPending : s.isPending p with
  | true =>
      obtain ⟨noted, -, -, sameRegistrations, isResolved⟩ :=
        resolveAgain_pending isPending isPlain
      rw [isResolved]
      show registrations (State.settle _ p .fulfilled value).log = _
      rw [settle_log]
      exact sameRegistrations
  | false =>
      rw [resolveAgain_settled isPending]
      exact registrations_note _ rfl

theorem extends_resolveAgain (s : State (Code User)) (p : Nat) (isPlain : value.isPlain = true) :
    Extends s (s.resolveAgain p value) := by
  cases isPending : s.isPending p with
  | true =>
      obtain ⟨noted, samePromises, sameQueue, -, isResolved⟩ :=
        resolveAgain_pending isPending isPlain
      rw [isResolved]
      have settled := extends_settle noted p .fulfilled value fun _ => isPlain
      have before : Extends s noted := Extends.of_same samePromises sameQueue
      exact (before.trans settled).trans (Extends.of_same rfl rfl)
  | false =>
      rw [resolveAgain_settled isPending]
      exact Extends.of_same rfl rfl

end Resolving

end FoundationsLab.Promises
