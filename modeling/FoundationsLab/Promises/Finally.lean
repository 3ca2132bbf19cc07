import FoundationsLab.Promises.FirstSettled

/-! # `finally`

One call of `finally` beside the rest of a program, as for `race`. While `onFinally` runs, the
program goes on, and no microtask runs before it has returned or thrown. -/

namespace FoundationsLab.Promises

/-- The functions of the program, and those that `finally` gives to `then`: the two for its
promise, and the one that each of them gives to the promise of `onFinally()`. -/
inductive FinallyCode (User : Type) where
  | program (code : User)
  | onValue
  | onReason
  | giveValue
  | throwReason

inductive Stage where
  | before
  | called
  | inside
  | threw
  | waiting
deriving DecidableEq

/-- The promises, and the variables of the call and of its callbacks. -/
structure FinallyState (User : Type) where
  heap : State (Code (FinallyCode User))
  stage : Stage
  /-- How often `onFinally` has been called. -/
  calls : Nat
  subject : Nat
  result : Nat
  /-- The `value` or the `reason` of the callback that runs. -/
  state : Status
  value : Value (Code (FinallyCode User))
  /-- What `onFinally` has thrown or returned. -/
  given : Value (Code (FinallyCode User))
  /-- The promise of what it has returned, the one that `then` makes of it, and its guard. -/
  awaited : Nat
  restored : Nat
  guard : Nat

variable {User : Type}

namespace State

/-- `resolve(q)` for a promise `q`, whose `then` is the method. -/
def follow (s : State User) (p q : Nat) : State User :=
  if s.isPending p then
    { { s.callResolve p (.promise q) with stack := s.stack }.afterRead p (.promise q)
        (.returned (.function .thenMethod)) with stack := s.stack }.completeWith .done
  else s.callResolve p (.promise q)

/-- The first function that a thenable's `then` gets, for the value of a promise. -/
def adoptAgain (s : State User) (g : Nat) (y : Value User) : State User :=
  match s.guards[g]? with
  | some ⟨p, _, _, false⟩ =>
      if y.isObject then
        { s.callAdopt g y with stack := s.stack }.afterRead p y (.returned .undefined)
      else s.callAdopt g y
  | _ => s.callAdopt g y

end State

namespace FinallyState

def initial : FinallyState User where
  heap := .initial
  stage := .before
  calls := 0
  subject := 0
  result := 0
  state := .pending
  value := .undefined
  given := .undefined
  awaited := 0
  restored := 0
  guard := 0

def callback (code : FinallyCode User) : Function (Code (FinallyCode User)) :=
  .user (.program code)

/-- `p.finally(onFinally)` -/
def begin (s : FinallyState User) (p : Nat) : FinallyState User :=
  { s with
    heap := s.heap.callThen (.promise p) (.function (callback .onValue))
      (.function (callback .onReason))
    stage := .called
    subject := p
    result := s.heap.promises.length }

/-- `onFinally` has thrown. -/
def throw (s : FinallyState User) (error : Value (Code (FinallyCode User))) :
    FinallyState User :=
  { s with
    heap := s.heap.callReject s.result error
    stage := .threw
    given := error }

/-- `() => value`, or `() => { throw reason; }` -/
def restoring (s : FinallyState User) : FinallyCode User :=
  if s.state = .fulfilled then .giveValue else .throwReason

/-- `onFinally` has returned, and the callback returns the promise that `then` makes. -/
def giveBack (s : FinallyState User) (item : Value (Code (FinallyCode User))) :
    FinallyState User :=
  let (heap, q) := s.heap.promiseFor item
  let t := heap.promises.length
  { s with
    heap := (heap.callThen (.promise q) (.function (callback s.restoring)) .undefined).follow
      s.result t
    stage := .waiting
    given := item
    awaited := q
    restored := t
    guard := heap.guards.length }

def isRestoring (handler : Handler (Code (FinallyCode User))) : Bool :=
  match handler.onFulfilled with
  | some (.user (.program .giveValue)) | some (.user (.program .throwReason)) => true
  | _ => false

/-- A microtask. What the other handlers do is left to the program. -/
def runJob (s : FinallyState User) (job : Job (Code (FinallyCode User))) : FinallyState User :=
  let s := { s with heap := s.heap.note (.ran job) }
  let next := job.handler.next
  match job.callback with
  | some (.user (.program .onValue)) | some (.user (.program .onReason)) =>
      { s with stage := .inside, calls := s.calls + 1, state := job.state, value := job.value }
  | some (.user (.program .giveValue)) => { s with heap := s.heap.resolveAgain next s.value }
  | some (.user (.program .throwReason)) => { s with heap := s.heap.callReject next s.value }
  | some (.adopt g) =>
      { s with heap := (s.heap.adoptAgain g job.value).callResolve next .undefined }
  | some (.refuse g) =>
      { s with heap := (s.heap.callRefuse g job.value).callResolve next .undefined }
  | none =>
      if isRestoring job.handler then { s with heap := s.heap.callReject next job.value } else s
  | _ => s

/-! ## Steps -/

/-- The program has not been given the callbacks of the call. -/
def isOwn : Value (Code (FinallyCode User)) → Bool
  | .function (.user (.program (.program _))) => false
  | .function (.user (.program _)) => true
  | _ => false

def foreign (s : FinallyState User) (value : Value (Code (FinallyCode User))) : Bool :=
  s.heap.knowsValue value && !isOwn value

/-- The promises that only the call can settle. -/
def owns (s : FinallyState User) (p : Nat) : Bool :=
  (s.stage ≠ .before && p = s.result) || (s.stage = .waiting && p = s.restored)

inductive Action (User : Type) where
  | create (exposed : Bool)
  | settle (p : Nat) (fulfils : Bool) (value : Value (Code (FinallyCode User)))
  | callThen (this onFulfilled onRejected : Value (Code (FinallyCode User)))
  | begin (p : Nat)
  | giveBack (item : Value (Code (FinallyCode User)))
  | throw (error : Value (Code (FinallyCode User)))
  | microtask

def step (s : FinallyState User) : Action User → Option (FinallyState User)
  | .create exposed => some { s with heap := s.heap.allocate exposed }
  | .settle p fulfils value =>
      if s.owns p = true ∨ (fulfils = true ∧ value.isPlain = false) then none
      else some { s with
        heap := s.heap.settle p (if fulfils then .fulfilled else .rejected) value }
  | .callThen this onFulfilled onRejected =>
      if s.foreign onFulfilled && s.foreign onRejected then
        some { s with heap := s.heap.callThen this onFulfilled onRejected }
      else none
  | .begin p =>
      if s.stage = .before ∧ p < s.heap.promises.length then some (s.begin p) else none
  | .giveBack item =>
      if s.stage = .inside ∧ s.heap.knowsValue item = true then some (s.giveBack item) else none
  | .throw error => if s.stage = .inside then some (s.throw error) else none
  | .microtask =>
      match s.heap.queue with
      | [] => none
      | job :: queue =>
          if s.stage = .inside then none
          else some ({ s with heap := { s.heap with queue := queue } }.runJob job)

def run (s : FinallyState User) : List (Action User) → Option (FinallyState User)
  | [] => some s
  | action :: actions => (s.step action).bind fun next => next.run actions

/-- What a call of `all` would have of the promise of what `onFinally` has returned. -/
def shared (s : FinallyState User) : AllState (FinallyCode User) :=
  { AllState.initial with heap := s.heap }

end FinallyState

/-! ## A promise follows another one -/

section Following

variable {s : State User} {p q : Nat}

theorem callResolve_promise (isPending : s.isPending p = true) (different : q ≠ p) :
    s.callResolve p (.promise q) = { (s.note (.called p (.resolve (.promise q)) true)).push
      (.getter p (.promise q)) with control := .user } := by
  have notSelf : (Value.promise q : Value User).isPromise p = false := decide_eq_false different
  rw [State.callResolve, isPending, State.resolvePromise, notSelf]
  rfl

/-- The guard is made, and `then` is called with its functions. -/
theorem follow_pending (isPending : s.isPending p = true) (inside : q < s.promises.length)
    (different : q ≠ p) :
    ∃ before : State User, before.promises = s.promises ∧ before.queue = s.queue ∧
      before.guards = s.guards ++ [⟨p, .promise q, true, false⟩] ∧
      registrations before.log = registrations s.log ∧ ∃ stack,
        s.follow p q = { before.callThen (.promise q) (.function (.adopt s.guards.length))
          (.function (.refuse s.guards.length)) with
            stack := stack, control := .complete .done } := by
  refine ⟨(({ s.note (.called p (.resolve (.promise q)) true) with
    control := .user, guards := s.guards ++ [⟨p, .promise q, true, false⟩] } : State User).note
      (.adopting p s.guards.length)).push (.adoption s.guards.length), rfl, rfl, rfl, ?_,
    s.stack, ?_⟩
  · have called : registrations (s.log ++ [.called p (.resolve (.promise q)) true]) =
        registrations s.log := registrations_note s.log rfl
    exact (registrations_note _ rfl).trans called
  · have isNative : { s.note (.called p (.resolve (.promise q)) true) with
        control := .user }.isNative .thenMethod (.promise q) = true := by
      show Option.isSome (if q < s.promises.length then some q else none) = true
      rw [if_pos inside]
      rfl
    rw [State.follow, if_pos isPending, callResolve_promise isPending different]
    show State.completeWith { State.callThenable { s.note (.called p (.resolve (.promise q)) true)
      with control := .user } p (.promise q) .thenMethod with stack := s.stack } .done = _
    rw [State.callThenable, isNative]
    rfl

/-- A plain value fulfils the promise of a guard that has not been called. -/
theorem adoptAgain_open {g : Nat} {subject y : Value User} {native : Bool}
    (isGuard : s.guards[g]? = some ⟨p, subject, native, false⟩) (isPlain : y.isPlain = true) :
    ∃ noted : State User, noted.promises = s.promises ∧ noted.queue = s.queue ∧
      registrations noted.log = registrations s.log ∧ noted.guards = (s.markCalled g).guards ∧
      s.adoptAgain g y = (noted.settle p .fulfilled y).completeWith .done := by
  have notSelf : y.isPromise p = false := by
    cases y with
    | promise q => cases isPlain
    | _ => rfl
  have adopted : registrations ((s.markCalled g).note (.adopted g y)).log =
      registrations s.log := registrations_note s.log rfl
  cases isObject : y.isObject with
  | true =>
      refine ⟨{ (s.markCalled g).note (.adopted g y) with control := .user }.note
        (.noThenable p), rfl, rfl, ?_, rfl, ?_⟩
      · exact (registrations_note ((s.markCalled g).note (.adopted g y)).log rfl).trans adopted
      · rw [State.adoptAgain, isGuard]
        dsimp only
        rw [isObject, State.callAdopt, isGuard]
        dsimp only
        rw [State.resolvePromise, notSelf, isObject]
        rfl
  | false =>
      refine ⟨(s.markCalled g).note (.adopted g y), rfl, rfl, adopted, rfl, ?_⟩
      rw [State.adoptAgain, isGuard]
      dsimp only
      rw [isObject, State.callAdopt, isGuard]
      dsimp only
      rw [State.resolvePromise, notSelf, isObject]
      rfl

theorem callRefuse_open {g : Nat} {subject r : Value User} {native : Bool}
    (isGuard : s.guards[g]? = some ⟨p, subject, native, false⟩) :
    s.callRefuse g r =
      (((s.markCalled g).note (.refused g r)).settle p .rejected r).completeWith .done := by
  rw [State.callRefuse, isGuard]

theorem evolves_adoptAgain (s : State User) (g : Nat) (y : Value User) :
    Evolves s (s.adoptAgain g y) := by
  have adopted := evolves_callAdopt s g y
  rw [State.adoptAgain]
  split
  next p _ _ _ =>
    split
    · have read : Evolves (s.callAdopt g y) { s.callAdopt g y with stack := s.stack } :=
        Evolves.of_heap rfl rfl (KeptGuards.refl _) rfl rfl
      exact (adopted.trans read).trans (evolves_afterRead _ p y _)
    · exact adopted
  next => exact adopted

theorem evolves_follow (s : State User) (p q : Nat) : Evolves s (s.follow p q) := by
  have resolved := evolves_callResolve s p (.promise q)
  rw [State.follow]
  split
  · have read : Evolves (s.callResolve p (.promise q))
        { s.callResolve p (.promise q) with stack := s.stack } :=
      Evolves.of_heap rfl rfl (KeptGuards.refl _) rfl rfl
    exact (resolved.trans read).trans ((evolves_afterRead _ p (.promise q) _).trans
      (Evolves.of_heap rfl rfl (KeptGuards.refl _) rfl rfl))
  · exact resolved

theorem resolveAgain_guards (heap : State (Code User)) (p : Nat) (value : Value (Code User)) :
    (heap.resolveAgain p value).guards = heap.guards := by
  rw [State.resolveAgain]
  split
  · show (State.settle _ p .fulfilled value).guards = _
    rw [settle_guards]
    exact callResolve_guards heap p value
  · exact callResolve_guards heap p value

end Following

/-- What following another promise does to the heap. -/
structure Followed (s : State (Code User)) (p q : Nat) : Prop where
  isExtended : Extends s (s.follow p q)
  sameRegistrations : registrations (s.follow p q).log = registrations s.log ++
    [(q, ⟨some (.adopt s.guards.length), some (.refuse s.guards.length), s.promises.length⟩)]
  guards : (s.follow p q).guards = s.guards ++ [⟨p, .promise q, true, false⟩]
  sameView : ∀ r seen, s.view r = some seen → (s.follow p q).view r = some seen

theorem followed {s : State (Code User)} {p q : Nat} (isPending : s.isPending p = true)
    (inside : q < s.promises.length) (different : q ≠ p) : Followed s p q := by
  obtain ⟨before, samePromises, sameQueue, isGuarded, sameRegistrations, stack, isFollowed⟩ :=
    follow_pending isPending inside different
  have insideBefore : q < before.promises.length := by
    rw [samePromises]
    exact inside
  constructor
  · rw [isFollowed]
    have isBefore : Extends s before := Extends.of_same samePromises sameQueue
    exact (isBefore.trans (extends_callThen before _ _ _)).trans (Extends.of_same rfl rfl)
  · rw [isFollowed]
    show registrations (State.callThen before _ _ _).log = _
    rw [registrations_of_inside insideBefore, sameRegistrations, samePromises]
    rfl
  · rw [isFollowed]
    show (State.callThen before _ _ _).guards = _
    rw [callThen_guards, isGuarded]
  · intro r seen isSeen
    rw [isFollowed]
    exact view_callThen ((view_of_same samePromises).trans isSeen) _ _ _

end FoundationsLab.Promises
