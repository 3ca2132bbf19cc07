import FoundationsLab.Promises.Handlers

/-! # `APromise.all`

One call of `all` beside the rest of a program. The program makes promises, settles those that
are not of the call and calls `then`, whenever it likes. No microtask runs while the call goes
through its items. -/

namespace FoundationsLab.Promises

/-- The functions and objects of the program, and those of the call: the callback of an item,
the array of the results and the array for no items. -/
inductive Code (User : Type) where
  | program (code : User)
  | element (i : Nat)
  | results
  | empty

inductive Phase where
  | before
  | looping
  | returned
deriving DecidableEq

/-- The promises, and the variables of the call. -/
structure AllState (User : Type) where
  heap : State (Code User)
  phase : Phase
  result : Nat
  results : List (Option (Value (Code User)))
  remaining : Int
  index : Nat
  /-- The items so far, and their promises. -/
  items : List (Value (Code User))
  inputs : List Nat

variable {User : Type}

/-- `results[i] = value` -/
def assign {Element : Type} (results : List (Option Element)) (i : Nat) (value : Element) :
    List (Option Element) :=
  if i < results.length then results.set i (some value)
  else results ++ List.replicate (i - results.length) none ++ [some value]

namespace State

/-- `APromise.resolve(item)`. What the `then` of an object does is left to the program, which
settles the new promise. -/
def promiseFor (s : State (Code User)) (item : Value (Code User)) : State (Code User) × Nat :=
  match item with
  | .promise p => (s, p)
  | item =>
      let fresh := s.allocate false
      (if item.isObject then fresh else fresh.callResolve s.promises.length item,
        s.promises.length)

/-- `resolve(array)`. The `then` of an array is `undefined`. -/
def resolveArray (s : State (Code User)) (p : Nat) (array : Value (Code User)) :
    State (Code User) :=
  if s.isPending p then
    { s.callResolve p array with stack := s.stack }.afterRead p array (.returned .undefined)
  else s.callResolve p array

end State

namespace AllState

def initial : AllState User where
  heap := .initial
  phase := .before
  result := 0
  results := []
  remaining := 0
  index := 0
  items := []
  inputs := []

/-- `new APromise((resolve, reject) => …)` -/
def begin (s : AllState User) : AllState User :=
  { s with
    heap := s.heap.allocate false
    phase := .looping
    result := s.heap.promises.length }

/-- The body of the loop. -/
def next (s : AllState User) (item : Value (Code User)) : AllState User :=
  let (heap, p) := s.heap.promiseFor item
  { s with
    heap := heap.callThen (.promise p) (.function (.user (.element s.index)))
      (.function (.reject s.result))
    remaining := s.remaining + 1
    index := s.index + 1
    items := s.items ++ [item]
    inputs := s.inputs ++ [p] }

/-- `if (index === 0) resolve([]);` -/
def finish (s : AllState User) : AllState User :=
  { s with
    phase := .returned
    heap := if s.index = 0 then s.heap.resolveArray s.result (.object .empty) else s.heap }

/-- The callback of an item. -/
def element (s : AllState User) (i : Nat) (value : Value (Code User)) : AllState User :=
  let s := { s with results := assign s.results i value, remaining := s.remaining - 1 }
  if s.remaining = 0 then { s with heap := s.heap.resolveArray s.result (.object .results) } else s

/-- A microtask. What the other handlers do is left to the program. -/
def runJob (s : AllState User) (job : Job (Code User)) : AllState User :=
  let s := { s with heap := s.heap.note (.ran job) }
  match job.callback with
  | some (.user (.element i)) =>
      let s := s.element i job.value
      { s with heap := s.heap.callResolve job.handler.next .undefined }
  | some (.reject q) =>
      { s with heap := (s.heap.callReject q job.value).callResolve job.handler.next .undefined }
  | _ => s

/-! ## Steps -/

/-- The program has not been given the callbacks of the items. -/
def isElement : Value (Code User) → Bool
  | .function (.user (.element _)) => true
  | _ => false

def foreign (s : AllState User) (value : Value (Code User)) : Bool :=
  s.heap.knowsValue value && !isElement value

inductive Action (User : Type) where
  | create (exposed : Bool)
  | settle (p : Nat) (fulfils : Bool) (value : Value (Code User))
  | callThen (this onFulfilled onRejected : Value (Code User))
  | begin
  | next (item : Value (Code User))
  | finish
  | microtask

def step (s : AllState User) : Action User → Option (AllState User)
  | .create exposed => some { s with heap := s.heap.allocate exposed }
  | .settle p fulfils value =>
      if s.phase ≠ .before ∧ p = s.result then none
      else some { s with
        heap := s.heap.settle p (if fulfils then .fulfilled else .rejected) value }
  | .callThen this onFulfilled onRejected =>
      if s.foreign onFulfilled && s.foreign onRejected then
        some { s with heap := s.heap.callThen this onFulfilled onRejected }
      else none
  | .begin => if s.phase = .before then some s.begin else none
  | .next item =>
      -- The call has not returned its promise yet.
      if s.phase = .looping ∧ s.heap.knowsValue item = true ∧ item.isPromise s.result = false then
        some (s.next item)
      else none
  | .finish => if s.phase = .looping then some s.finish else none
  | .microtask =>
      match s.heap.queue with
      | [] => none
      | job :: queue =>
          if s.phase = .looping then none
          else some ({ s with heap := { s.heap with queue := queue } }.runJob job)

def run (s : AllState User) : List (Action User) → Option (AllState User)
  | [] => some s
  | action :: actions => (s.step action).bind fun next => next.run actions

end AllState

end FoundationsLab.Promises
