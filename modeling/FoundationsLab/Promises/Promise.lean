import Mathlib.Data.List.Basic

/-! # The promise

The class and the resolution procedure as a machine that takes turns with user code. Where
the library calls a function it does not know, it leaves a frame on the stack and user code
goes on: it may call any library function it has been handed, and in the end it returns or
throws. Microtasks run when nothing else does. -/

namespace FoundationsLab.Promises

variable {User : Type}

/-! ## Values -/

/-- The functions of the library are those that a promise or a guard closes over. -/
inductive Function (User : Type) where
  | user (code : User)
  | resolve (promise : Nat)
  | reject (promise : Nat)
  | adopt (guard : Nat)
  | refuse (guard : Nat)
  | thenMethod

inductive Value (User : Type) where
  | undefined
  | primitive (data : User)
  | object (data : User)
  | typeError
  | promise (id : Nat)
  | function (f : Function User)

namespace Value

/-- `x !== null && (typeof x === "object" || typeof x === "function")` -/
def isObject : Value User → Bool
  | undefined | primitive _ => false
  | object _ | typeError | promise _ | function _ => true

/-- `x === promise` -/
def isPromise (id : Nat) : Value User → Bool
  | promise other => other = id
  | _ => false

/-- `typeof f === "function" ? f : null` -/
def asFunction : Value User → Option (Function User)
  | function f => some f
  | _ => none

end Value

inductive Completion (User : Type) where
  | returned (value : Value User)
  | thrown (error : Value User)

def Completion.done : Completion User := .returned .undefined

/-! ## The heap -/

inductive Status where
  | pending
  | fulfilled
  | rejected
deriving DecidableEq

/-- `handler.resolve` and `handler.reject` are the functions of the promise `next`. -/
structure Handler (User : Type) where
  onFulfilled : Option (Function User)
  onRejected : Option (Function User)
  next : Nat

/-- A promise is exposed when its functions are handed to an executor of user code. -/
structure Promise (User : Type) where
  state : Status
  value : Value User
  callbacks : List (Handler User)
  exposed : Bool

def Promise.new (exposed : Bool) : Promise User where
  state := .pending
  value := .undefined
  callbacks := []
  exposed := exposed

/-- The variable `called` of one call of a thenable's `then`, with the promise to be settled
and the thenable. It is native when that `then` is the method of a promise. -/
structure Guard (User : Type) where
  promise : Nat
  subject : Value User
  native : Bool
  called : Bool

/-- A microtask of `#schedule`. -/
structure Job (User : Type) where
  promise : Nat
  handler : Handler User
  state : Status
  value : Value User

def Job.callback (job : Job User) : Option (Function User) :=
  if job.state = .fulfilled then job.handler.onFulfilled else job.handler.onRejected

/-- A call of a function that an executor was handed, or a throw of the executor. -/
inductive Call (User : Type) where
  | resolve (value : Value User)
  | reject (reason : Value User)

/-- What a run has done so far. A call is noted with whether it found the promise pending. -/
inductive Event (User : Type) where
  | registered (promise : Nat) (handler : Handler User)
  | ran (job : Job User)
  | called (promise : Nat) (call : Call User) (wasPending : Bool)
  | unreadable (promise : Nat) (error : Value User)
  | noThenable (promise : Nat)
  | adopting (promise guard : Nat)
  | adopted (guard : Nat) (value : Value User)
  | refused (guard : Nat) (reason : Value User)
  | threw (guard : Nat) (error : Value User)

/-- Where the library goes on when user code has finished. Below a frame of user code there
is user code that waits for a library function. -/
inductive Frame (User : Type) where
  | user
  | executor (promise : Nat)
  | getter (promise : Nat) (subject : Value User)
  | adoption (guard : Nat)
  | handling (next : Nat)

/-- A completion that nothing waits for ends a task. -/
inductive Control (User : Type) where
  | user
  | complete (completion : Completion User)

structure State (User : Type) where
  promises : List (Promise User)
  guards : List (Guard User)
  queue : List (Job User)
  stack : List (Frame User)
  control : Control User
  log : List (Event User)

namespace State

def initial : State User where
  promises := []
  guards := []
  queue := []
  stack := []
  control := .complete .done
  log := []

def note (s : State User) (event : Event User) : State User := { s with log := s.log ++ [event] }

def push (s : State User) (frame : Frame User) : State User := { s with stack := frame :: s.stack }

def completeWith (s : State User) (completion : Completion User) : State User :=
  { s with control := .complete completion }

/-! ## Settling -/

/-- `#fulfill` and `#reject`, with `#flush`. -/
def settle (s : State User) (p : Nat) (state : Status) (value : Value User) : State User :=
  match s.promises[p]? with
  | some promise =>
      if promise.state = .pending then
        { s with
          promises := s.promises.set p
            { promise with state := state, value := value, callbacks := [] }
          queue := s.queue ++ promise.callbacks.map fun handler => ⟨p, handler, state, value⟩ }
      else s
  | none => s

/-- `resolvePromise`, up to the reading of `x.then`. -/
def resolvePromise (s : State User) (p : Nat) (x : Value User) : State User :=
  if x.isPromise p then (s.settle p .rejected .typeError).completeWith .done
  else if x.isObject then { s.push (.getter p x) with control := .user }
  else (s.settle p .fulfilled x).completeWith .done

def isPending (s : State User) (p : Nat) : Bool :=
  s.promises[p]?.any fun promise => promise.state = .pending

/-- `(value) => this.#resolve(value)` -/
def callResolve (s : State User) (p : Nat) (value : Value User) : State User :=
  let noted := s.note (.called p (.resolve value) (s.isPending p))
  if s.isPending p then noted.resolvePromise p value else noted.completeWith .done

/-- `(reason) => this.#reject(reason)` -/
def callReject (s : State User) (p : Nat) (reason : Value User) : State User :=
  ((s.note (.called p (.reject reason) (s.isPending p))).settle p .rejected reason).completeWith .done

def markCalled (s : State User) (g : Nat) : State User :=
  { s with guards := s.guards.modify g ({ · with called := true }) }

/-- The first function that a thenable's `then` gets. -/
def callAdopt (s : State User) (g : Nat) (y : Value User) : State User :=
  match s.guards[g]? with
  | some ⟨p, _, _, false⟩ => ((s.markCalled g).note (.adopted g y)).resolvePromise p y
  | _ => s.completeWith .done

/-- The second one. -/
def callRefuse (s : State User) (g : Nat) (r : Value User) : State User :=
  match s.guards[g]? with
  | some ⟨p, _, _, false⟩ =>
      (((s.markCalled g).note (.refused g r)).settle p .rejected r).completeWith .done
  | _ => s.completeWith .done

/-! ## Handlers -/

def allocate (s : State User) (exposed : Bool) : State User :=
  { s with promises := s.promises ++ [.new exposed] }

/-- The handler waits for the promise, or is scheduled at once. -/
def register (s : State User) (p : Nat) (handler : Handler User) : State User :=
  match s.promises[p]? with
  | some promise =>
      if promise.state = .pending then
        { s with
          promises := s.promises.set p
            { promise with callbacks := promise.callbacks ++ [handler] } }
      else { s with queue := s.queue ++ [⟨p, handler, promise.state, promise.value⟩] }
  | none => s

/-- The promise that `this` is. Only a promise has the private fields that are read. -/
def promiseOf (s : State User) : Value User → Option Nat
  | .promise p => if p < s.promises.length then some p else none
  | _ => none

/-- `then`. The functions of the new promise stay inside the library. -/
def callThen (s : State User) (this onFulfilled onRejected : Value User) : State User :=
  let next := s.promises.length
  match s.promiseOf this with
  | some p =>
      let handler := ⟨onFulfilled.asFunction, onRejected.asFunction, next⟩
      (((s.allocate false).register p handler).note (.registered p handler)).completeWith
        (.returned (.promise next))
  | none => (s.allocate false).completeWith (.thrown .typeError)

/-- A call of a function. Control goes to user code, or the library function has completed
or has left a frame. -/
def enter (s : State User) (f : Function User) (this first second : Value User) : State User :=
  match f with
  | .user _ => { s with control := .user }
  | .resolve p => s.callResolve p first
  | .reject p => s.callReject p first
  | .adopt g => s.callAdopt g first
  | .refuse g => s.callRefuse g first
  | .thenMethod => s.callThen this first second

/-! ## Steps -/

/-- The functions that user code can have got hold of. -/
def knows (s : State User) : Function User → Bool
  | .user _ | .thenMethod => true
  | .resolve p | .reject p => s.promises[p]?.any fun promise => promise.exposed
  | .adopt g | .refuse g => s.guards[g]?.any fun guard => !guard.native

def knowsValue (s : State User) : Value User → Bool
  | .promise p => p < s.promises.length
  | .function f => s.knows f
  | _ => true

/-- `new APromise(executor)` -/
def construct (s : State User) : Value User → State User
  | .function f =>
      let p := s.promises.length
      (((s.push .user).allocate true).push (.executor p)).enter f .undefined
        (.function (.resolve p)) (.function (.reject p))
  | _ => (s.push .user).completeWith (.thrown .typeError)

def isNative (s : State User) (f : Function User) (x : Value User) : Bool :=
  match f with
  | .thenMethod => (s.promiseOf x).isSome
  | _ => false

/-- `then.call(x, …)` for a `then` that is a function. -/
def callThenable (s : State User) (p : Nat) (x : Value User) (f : Function User) : State User :=
  let g := s.guards.length
  let guard : Guard User := { promise := p, subject := x, native := s.isNative f x, called := false }
  let s := { s with guards := s.guards ++ [guard] }
  ((s.note (.adopting p g)).push (.adoption g)).enter f x
    (.function (.adopt g)) (.function (.refuse g))

/-- The rest of `resolvePromise`, after the reading of `x.then`. -/
def afterRead (s : State User) (p : Nat) (x : Value User) (result : Completion User) : State User :=
  match result with
  | .thrown error =>
      ((s.note (.unreadable p error)).settle p .rejected error).completeWith .done
  | .returned (.function f) => s.callThenable p x f
  | .returned _ => ((s.note (.noThenable p)).settle p .fulfilled x).completeWith .done

/-- After `then.call` only a throw matters, and only before the first callback. -/
def afterAdoption (s : State User) (g : Nat) (result : Completion User) : State User :=
  match result, s.guards[g]? with
  | .thrown error, some ⟨p, _, _, false⟩ =>
      ((s.note (.threw g error)).settle p .rejected error).completeWith .done
  | _, _ => s.completeWith .done

/-- The end of the constructor. -/
def afterExecutor (s : State User) (p : Nat) (result : Completion User) : State User :=
  match result with
  | .thrown error => (s.callReject p error).completeWith (.returned (.promise p))
  | .returned _ => s.completeWith (.returned (.promise p))

/-- The end of a microtask, after its callback. -/
def afterHandling (s : State User) (next : Nat) (result : Completion User) : State User :=
  match result with
  | .returned value => s.callResolve next value
  | .thrown error => s.callReject next error

/-- What waited at a frame goes on with what has been returned to it or thrown. -/
def proceed (s : State User) (frame : Frame User) (result : Completion User) : State User :=
  match frame with
  | .user => { s with control := .user }
  | .executor p => s.afterExecutor p result
  | .getter p x => s.afterRead p x result
  | .adoption g => s.afterAdoption g result
  | .handling next => s.afterHandling next result

/-- A microtask. -/
def runJob (s : State User) (job : Job User) : State User :=
  let s := s.note (.ran job)
  match job.callback with
  | some f => (s.push (.handling job.handler.next)).enter f .undefined job.value .undefined
  | none =>
      if job.state = .fulfilled then s.callResolve job.handler.next job.value
      else s.callReject job.handler.next job.value

inductive Action (User : Type) where
  | construct (executor : Value User)
  | call (f : Function User) (this first second : Value User)
  | finish (completion : Completion User)
  | proceed
  | task
  | microtask

def knowsCompletion (s : State User) : Completion User → Bool
  | .returned value | .thrown value => s.knowsValue value

def step (s : State User) : Action User → Option (State User)
  | .construct executor =>
      match s.control with
      | .user => if s.knowsValue executor then some (s.construct executor) else none
      | _ => none
  | .call f this first second =>
      match s.control with
      | .user =>
          if s.knows f && s.knowsValue this && s.knowsValue first && s.knowsValue second then
            some ((s.push .user).enter f this first second)
          else none
      | _ => none
  | .finish completion =>
      match s.control with
      | .user => if s.knowsCompletion completion then some (s.completeWith completion) else none
      | _ => none
  | .proceed =>
      match s.control, s.stack with
      | .complete result, frame :: stack => some ({ s with stack := stack }.proceed frame result)
      | _, _ => none
  | .task =>
      match s.control, s.stack with
      | .complete _, [] => some { s with control := .user }
      | _, _ => none
  | .microtask =>
      match s.control, s.stack, s.queue with
      | .complete _, [], job :: queue => some ({ s with queue := queue }.runJob job)
      | _, _, _ => none

def run (s : State User) : List (Action User) → Option (State User)
  | [] => some s
  | action :: actions => (s.step action).bind fun next => next.run actions

end State

/-- The states of all runs. -/
inductive Reachable : State User → Prop where
  | initial : Reachable .initial
  | step {s next : State User} (action : State.Action User) (reachable : Reachable s)
      (stepped : s.step action = some next) : Reachable next

theorem Reachable.run {s later : State User} (reachable : Reachable s)
    {actions : List (State.Action User)} (isRun : s.run actions = some later) :
    Reachable later := by
  induction actions generalizing s with
  | nil => exact Option.some.inj isRun ▸ reachable
  | cons action actions induction =>
      obtain ⟨next, stepped, isRest⟩ := Option.bind_eq_some_iff.mp isRun
      exact induction (reachable.step action stepped) isRest

end FoundationsLab.Promises
