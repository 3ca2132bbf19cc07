import FoundationsLab.Promises.Handlers

/-! # Who holds which function

A handler holds functions that user code knows, or the two functions of a guard of a promise
that is adopted. The latter are held by nothing else, so they are called with the outcome of
the promise. -/

namespace FoundationsLab.Promises

variable {User : Type}

/-! ## What stays -/

/-- Nothing that exists goes away. -/
structure Grows (s later : State User) : Prop where
  kept : Kept s.promises later.promises
  keptGuards : KeptGuards s.guards later.guards

theorem Evolves.grows {s later : State User} (evolves : Evolves s later) : Grows s later :=
  ⟨evolves.kept, evolves.keptGuards⟩

namespace Grows

variable {s later : State User}

theorem of_same (samePromises : later.promises = s.promises) (sameGuards : later.guards = s.guards) :
    Grows s later where
  kept := samePromises ▸ Kept.refl s.promises
  keptGuards := sameGuards ▸ KeptGuards.refl s.guards

theorem inside (grows : Grows s later) {p : Nat} (inside : p < s.promises.length) :
    p < later.promises.length := by
  obtain ⟨promise, isPromise, -⟩ := grows.kept p _ (List.getElem?_eq_getElem inside)
  exact lt_of_getElem? isPromise

theorem exposed (grows : Grows s later) {p : Nat}
    (isExposed : s.promises[p]?.any (fun promise => promise.exposed) = true) :
    later.promises[p]?.any (fun promise => promise.exposed) = true := by
  obtain ⟨promise, isPromise, isExposed⟩ := (Option.any_eq_true _ _).mp isExposed
  obtain ⟨promise', isPromise', sameExposed, -⟩ := grows.kept p promise isPromise
  exact (Option.any_eq_true _ _).mpr ⟨promise', isPromise', sameExposed.trans isExposed⟩

theorem foreign (grows : Grows s later) {g : Nat}
    (isForeign : s.guards[g]?.any (fun guard => !guard.native) = true) :
    later.guards[g]?.any (fun guard => !guard.native) = true := by
  obtain ⟨guard, isGuard, isForeign⟩ := (Option.any_eq_true _ _).mp isForeign
  obtain ⟨guard', isGuard', -, -, sameNative, -⟩ := grows.keptGuards g guard isGuard
  exact (Option.any_eq_true _ _).mpr ⟨guard', isGuard', by rw [sameNative, isForeign]⟩

theorem knows (grows : Grows s later) {f : Function User} (isKnown : s.knows f = true) :
    later.knows f = true := by
  cases f with
  | user code => rfl
  | resolve p => exact grows.exposed isKnown
  | reject p => exact grows.exposed isKnown
  | adopt g => exact grows.foreign isKnown
  | refuse g => exact grows.foreign isKnown
  | thenMethod => rfl

theorem knowsValue (grows : Grows s later) {value : Value User}
    (isKnown : s.knowsValue value = true) : later.knowsValue value = true := by
  cases value with
  | promise p => exact decide_eq_true (grows.inside (of_decide_eq_true isKnown))
  | function f => exact grows.knows (show s.knows f = true from isKnown)
  | _ => rfl

theorem knowsCompletion (grows : Grows s later) {result : Completion User}
    (isKnown : s.knowsCompletion result = true) : later.knowsCompletion result = true := by
  cases result with
  | returned value => exact grows.knowsValue (show s.knowsValue value = true from isKnown)
  | thrown error => exact grows.knowsValue (show s.knowsValue error = true from isKnown)

end Grows

/-! ## The links -/

/-- The functions of a handler: user code had them, or they adopt the promise. -/
inductive Held (s : State User) (p : Nat) (handler : Handler User) : Prop where
  | known (fulfilled : ∀ f, handler.onFulfilled = some f → s.knows f = true)
      (rejected : ∀ f, handler.onRejected = some f → s.knows f = true)
  | native (g : Nat) (guard : Guard User) (isGuard : s.guards[g]? = some guard)
      (isNative : guard.native = true) (subject : guard.subject = .promise p)
      (fulfilled : handler.onFulfilled = some (.adopt g))
      (rejected : handler.onRejected = some (.refuse g))

/-- Nothing goes on above the adoption of a promise, whose `then` has returned at once. -/
def Grounded (s : State User) : Frame User → Prop
  | .executor p | .handling p => p < s.promises.length
  | .adoption g => ∃ guard, s.guards[g]? = some guard ∧ guard.native = false
  | .user | .getter _ _ => True

/-- The promise that is adopted has this outcome. -/
def HasOutcome (s : State User) (subject : Value User) (state : Status) (value : Value User) : Prop :=
  ∃ p promise, subject = .promise p ∧ s.promises[p]? = some promise ∧ promise.state = state ∧
    promise.value = value

/-- What is noted of a promise that is adopted. -/
def Truthful (s : State User) : Event User → Prop
  | .adopted g y => ∃ guard, s.guards[g]? = some guard ∧
      (guard.native = true → HasOutcome s guard.subject .fulfilled y)
  | .refused g r => ∃ guard, s.guards[g]? = some guard ∧
      (guard.native = true → HasOutcome s guard.subject .rejected r)
  | .threw g _ => ∃ guard, s.guards[g]? = some guard ∧ guard.native = false
  | _ => True

structure Linked (s : State User) : Prop where
  held : ∀ (p : Nat) (handler : Handler User), s.Pends p handler → Held s p handler
  older : ∀ (p : Nat) (handler : Handler User), s.Pends p handler →
    handler.next < s.promises.length
  grounded : ∀ frame ∈ s.stack, Grounded s frame
  truthful : ∀ event ∈ s.log, Truthful s event
  completed : ∀ result, s.control = .complete result → s.knowsCompletion result = true

section Growing

variable {s later : State User}

theorem Held.grow {p : Nat} {handler : Handler User} (held : Held s p handler)
    (grows : Grows s later) : Held later p handler := by
  cases held with
  | known fulfilled rejected =>
      exact .known (fun f isHandler => grows.knows (fulfilled f isHandler))
        (fun f isHandler => grows.knows (rejected f isHandler))
  | native g guard isGuard isNative subject fulfilled rejected =>
      obtain ⟨guard', isGuard', -, sameSubject, sameNative, -⟩ := grows.keptGuards g guard isGuard
      exact .native g guard' isGuard' (sameNative.trans isNative) (sameSubject.trans subject)
        fulfilled rejected

theorem Grounded.grow {frame : Frame User} (grounded : Grounded s frame) (grows : Grows s later) :
    Grounded later frame := by
  cases frame with
  | executor p => exact grows.inside grounded
  | handling p => exact grows.inside grounded
  | adoption g =>
      obtain ⟨guard, isGuard, isForeign⟩ := grounded
      obtain ⟨guard', isGuard', -, -, sameNative, -⟩ := grows.keptGuards g guard isGuard
      exact ⟨guard', isGuard', sameNative.trans isForeign⟩
  | _ => trivial

theorem HasOutcome.grow {subject value : Value User} {state : Status}
    (outcome : HasOutcome s subject state value) (isOutcome : state ≠ .pending)
    (grows : Grows s later) : HasOutcome later subject state value := by
  obtain ⟨p, promise, isSubject, isPromise, isState, isValue⟩ := outcome
  obtain ⟨promise', isPromise', -, sameOutcome⟩ := grows.kept p promise isPromise
  obtain ⟨sameState, sameValue⟩ := sameOutcome (isState ▸ isOutcome)
  exact ⟨p, promise', isSubject, isPromise', sameState.trans isState, sameValue.trans isValue⟩

theorem Truthful.grow {event : Event User} (truthful : Truthful s event) (grows : Grows s later) :
    Truthful later event := by
  cases event with
  | adopted g y =>
      obtain ⟨guard, isGuard, outcome⟩ := truthful
      obtain ⟨guard', isGuard', -, sameSubject, sameNative, -⟩ := grows.keptGuards g guard isGuard
      refine ⟨guard', isGuard', fun isNative => ?_⟩
      rw [sameSubject]
      exact (outcome (sameNative.symm.trans isNative)).grow Status.noConfusion grows
  | refused g r =>
      obtain ⟨guard, isGuard, outcome⟩ := truthful
      obtain ⟨guard', isGuard', -, sameSubject, sameNative, -⟩ := grows.keptGuards g guard isGuard
      refine ⟨guard', isGuard', fun isNative => ?_⟩
      rw [sameSubject]
      exact (outcome (sameNative.symm.trans isNative)).grow Status.noConfusion grows
  | threw g error =>
      obtain ⟨guard, isGuard, isForeign⟩ := truthful
      obtain ⟨guard', isGuard', -, -, sameNative, -⟩ := grows.keptGuards g guard isGuard
      exact ⟨guard', isGuard', sameNative.trans isForeign⟩
  | _ => trivial

/-- What is new has to be linked. -/
theorem Linked.grow (linked : Linked s) (grows : Grows s later)
    (newPends : ∀ (p : Nat) (handler : Handler User), later.Pends p handler →
      s.Pends p handler ∨ Held later p handler ∧ handler.next < later.promises.length)
    (newFrame : ∀ frame ∈ later.stack, frame ∈ s.stack ∨ Grounded later frame)
    (newEvent : ∀ event ∈ later.log, event ∈ s.log ∨ Truthful later event)
    (newControl : ∀ result, later.control = .complete result →
      s.control = .complete result ∨ later.knowsCompletion result = true) : Linked later := by
  constructor
  · intro p handler pends
    rcases newPends p handler pends with pends | ⟨held, -⟩
    · exact (linked.held p handler pends).grow grows
    · exact held
  · intro p handler pends
    rcases newPends p handler pends with pends | ⟨-, older⟩
    · exact grows.inside (linked.older p handler pends)
    · exact older
  · intro frame member
    rcases newFrame frame member with member | grounded
    · exact (linked.grounded frame member).grow grows
    · exact grounded
  · intro event member
    rcases newEvent event member with member | truthful
    · exact (linked.truthful event member).grow grows
    · exact truthful
  · intro result isComplete
    rcases newControl result isComplete with isComplete | isKnown
    · exact grows.knowsCompletion (linked.completed result isComplete)
    · exact isKnown

end Growing

/-! ## The functions of the library -/

section Fields

variable (s : State User) (p : Nat) (state : Status) (value : Value User)

@[simp] theorem settle_guards : (s.settle p state value).guards = s.guards := by
  rw [State.settle]
  split
  · split <;> rfl
  · rfl

@[simp] theorem settle_stack : (s.settle p state value).stack = s.stack := by
  rw [State.settle]
  split
  · split <;> rfl
  · rfl

@[simp] theorem settle_log : (s.settle p state value).log = s.log := by
  rw [State.settle]
  split
  · split <;> rfl
  · rfl

@[simp] theorem settle_control : (s.settle p state value).control = s.control := by
  rw [State.settle]
  split
  · split <;> rfl
  · rfl

@[simp] theorem settle_length : (s.settle p state value).promises.length = s.promises.length := by
  rw [State.settle]
  split
  · split
    · exact List.length_set
    · rfl
  · rfl

theorem register_log (handler : Handler User) : (s.register p handler).log = s.log := by
  rw [State.register]
  split
  · split <;> rfl
  · rfl

end Fields

namespace Linked

variable {s : State User}

theorem settle (linked : Linked s) (p : Nat) {state : Status} (value : Value User)
    (isOutcome : state ≠ .pending) : Linked (s.settle p state value) := by
  apply linked.grow (evolves_settle s p value isOutcome).grows
  · intro q handler pends
    exact Or.inl ((pends_settle s p state value q handler).mp pends)
  · intro frame member
    rw [settle_stack] at member
    exact Or.inl member
  · intro event member
    rw [settle_log] at member
    exact Or.inl member
  · intro result isComplete
    rw [settle_control] at isComplete
    exact Or.inl isComplete

theorem note (linked : Linked s) {event : Event User} (truthful : Truthful s event) :
    Linked (s.note event) := by
  have grows : Grows s (s.note event) := Grows.of_same rfl rfl
  apply linked.grow grows
  · exact fun q handler pends => Or.inl pends
  · exact fun frame member => Or.inl member
  · intro other member
    rcases List.mem_append.mp member with member | isLast
    · exact Or.inl member
    · rw [List.mem_singleton.mp isLast]
      exact Or.inr (truthful.grow grows)
  · exact fun result isComplete => Or.inl isComplete

theorem push (linked : Linked s) {frame : Frame User} (grounded : Grounded s frame) :
    Linked (s.push frame) := by
  have grows : Grows s (s.push frame) := Grows.of_same rfl rfl
  apply linked.grow grows
  · exact fun q handler pends => Or.inl pends
  · intro other member
    rcases List.mem_cons.mp member with rfl | member
    · exact Or.inr (grounded.grow grows)
    · exact Or.inl member
  · exact fun event member => Or.inl member
  · exact fun result isComplete => Or.inl isComplete

theorem pop (linked : Linked s) {frame : Frame User} {stack : List (Frame User)}
    (isStack : s.stack = frame :: stack) : Linked { s with stack := stack } := by
  have grows : Grows s { s with stack := stack } := Grows.of_same rfl rfl
  apply linked.grow grows
  · exact fun q handler pends => Or.inl pends
  · exact fun other member => Or.inl (isStack ▸ List.mem_cons_of_mem frame member)
  · exact fun event member => Or.inl member
  · exact fun result isComplete => Or.inl isComplete

theorem withStack (linked : Linked s) {stack : List (Frame User)} (isStack : s.stack = stack) :
    Linked { s with stack := stack } := by
  subst isStack
  exact linked

theorem dequeue (linked : Linked s) {job : Job User} {queue : List (Job User)}
    (isQueue : s.queue = job :: queue) : Linked { s with queue := queue } := by
  have grows : Grows s { s with queue := queue } := Grows.of_same rfl rfl
  apply linked.grow grows
  · intro q handler pends
    rcases pends with isWaiting | ⟨other, isOther, isThis⟩
    · exact Or.inl (Or.inl isWaiting)
    · exact Or.inl (Or.inr ⟨other, isQueue ▸ List.mem_cons_of_mem job isOther, isThis⟩)
  · exact fun frame member => Or.inl member
  · exact fun event member => Or.inl member
  · exact fun result isComplete => Or.inl isComplete

theorem completeWith (linked : Linked s) {completion : Completion User}
    (isKnown : s.knowsCompletion completion = true) : Linked (s.completeWith completion) := by
  have grows : Grows s (s.completeWith completion) := Grows.of_same rfl rfl
  apply linked.grow grows
  · exact fun q handler pends => Or.inl pends
  · exact fun frame member => Or.inl member
  · exact fun event member => Or.inl member
  · intro result isComplete
    cases isComplete
    exact Or.inr (grows.knowsCompletion isKnown)

theorem toUser (linked : Linked s) : Linked { s with control := .user } := by
  have grows : Grows s { s with control := .user } := Grows.of_same rfl rfl
  apply linked.grow grows
  · exact fun q handler pends => Or.inl pends
  · exact fun frame member => Or.inl member
  · exact fun event member => Or.inl member
  · intro result isComplete
    cases isComplete

theorem markCalled (linked : Linked s) (g : Nat) : Linked (s.markCalled g) := by
  apply linked.grow (evolves_markCalled s g).grows
  · exact fun q handler pends => Or.inl pends
  · exact fun frame member => Or.inl member
  · exact fun event member => Or.inl member
  · exact fun result isComplete => Or.inl isComplete

theorem guarded (linked : Linked s) (guard : Guard User) :
    Linked { s with guards := s.guards ++ [guard] } := by
  have grows : Grows s { s with guards := s.guards ++ [guard] } :=
    ⟨Kept.refl s.promises, keptGuards_append s.guards guard⟩
  apply linked.grow grows
  · exact fun q handler pends => Or.inl pends
  · exact fun frame member => Or.inl member
  · exact fun event member => Or.inl member
  · exact fun result isComplete => Or.inl isComplete

theorem allocate (linked : Linked s) (exposed : Bool) : Linked (s.allocate exposed) := by
  apply linked.grow (evolves_allocate s exposed).grows
  · exact fun q handler pends => Or.inl ((pends_allocate s exposed q handler).mp pends)
  · exact fun frame member => Or.inl member
  · exact fun event member => Or.inl member
  · exact fun result isComplete => Or.inl isComplete

theorem grows_register {p : Nat} {promise : Promise User} (handler : Handler User)
    (isPromise : s.promises[p]? = some promise) : Grows s (s.register p handler) := by
  by_cases isPending : promise.state = .pending
  · rw [register_of_pending isPromise isPending]
    exact ⟨kept_set _ isPromise rfl fun settled => absurd isPending settled, KeptGuards.refl s.guards⟩
  · rw [register_of_settled isPromise isPending]
    exact Grows.of_same rfl rfl

theorem register (linked : Linked s) {p : Nat} {promise : Promise User} {handler : Handler User}
    (isPromise : s.promises[p]? = some promise) (held : Held s p handler)
    (older : handler.next < s.promises.length) : Linked (s.register p handler) := by
  have same : (s.register p handler).stack = s.stack ∧ (s.register p handler).log = s.log ∧
      (s.register p handler).control = s.control := by
    rw [State.register, isPromise]
    dsimp only
    split
    · exact ⟨rfl, rfl, rfl⟩
    · exact ⟨rfl, rfl, rfl⟩
  obtain ⟨sameStack, sameLog, sameControl⟩ := same
  have grows := grows_register handler isPromise
  apply linked.grow grows
  · intro q other pends
    rcases (pends_register isPromise q other).mp pends with pends | ⟨rfl, rfl⟩
    · exact Or.inl pends
    · exact Or.inr ⟨held.grow grows, grows.inside older⟩
  · intro frame member
    rw [sameStack] at member
    exact Or.inl member
  · intro event member
    rw [sameLog] at member
    exact Or.inl member
  · intro result isComplete
    rw [sameControl] at isComplete
    exact Or.inl isComplete

theorem resolvePromise (linked : Linked s) (p : Nat) (x : Value User) :
    Linked (s.resolvePromise p x) := by
  rw [State.resolvePromise]
  split
  · exact (linked.settle p .typeError Status.noConfusion).completeWith rfl
  · split
    · exact (linked.push (show Grounded s (.getter p x) from trivial)).toUser
    · exact (linked.settle p x Status.noConfusion).completeWith rfl

theorem callResolve (linked : Linked s) (p : Nat) (value : Value User) :
    Linked (s.callResolve p value) := by
  have noted := linked.note (show Truthful s (.called p (.resolve value) (s.isPending p)) from trivial)
  rw [State.callResolve]
  split
  · exact noted.resolvePromise p value
  · exact noted.completeWith rfl

theorem callReject (linked : Linked s) (p : Nat) (reason : Value User) :
    Linked (s.callReject p reason) := by
  have noted := linked.note (show Truthful s (.called p (.reject reason) (s.isPending p)) from trivial)
  exact (noted.settle p reason Status.noConfusion).completeWith rfl

theorem callAdopt (linked : Linked s) {g : Nat} {guard : Guard User} (y : Value User)
    (isGuard : s.guards[g]? = some guard)
    (outcome : guard.native = true → HasOutcome s guard.subject .fulfilled y) :
    Linked (s.callAdopt g y) := by
  have truthful : Truthful s (.adopted g y) := ⟨guard, isGuard, outcome⟩
  rw [State.callAdopt]
  split
  next p _ _ _ =>
    have noted := (linked.markCalled g).note (truthful.grow (evolves_markCalled s g).grows)
    exact noted.resolvePromise p y
  next => exact linked.completeWith rfl

theorem callRefuse (linked : Linked s) {g : Nat} {guard : Guard User} (r : Value User)
    (isGuard : s.guards[g]? = some guard)
    (outcome : guard.native = true → HasOutcome s guard.subject .rejected r) :
    Linked (s.callRefuse g r) := by
  have truthful : Truthful s (.refused g r) := ⟨guard, isGuard, outcome⟩
  rw [State.callRefuse]
  split
  next p _ _ _ =>
    have noted := (linked.markCalled g).note (truthful.grow (evolves_markCalled s g).grows)
    exact (noted.settle p r Status.noConfusion).completeWith rfl
  next => exact linked.completeWith rfl

theorem callThen (linked : Linked s) {this onFulfilled onRejected : Value User}
    (held : ∀ p next, s.promiseOf this = some p →
      Held s p ⟨onFulfilled.asFunction, onRejected.asFunction, next⟩) :
    Linked (s.callThen this onFulfilled onRejected) := by
  have allocated := linked.allocate false
  have grows := (evolves_allocate s false).grows
  have longer : (s.allocate false).promises.length = s.promises.length + 1 := List.length_append
  rw [State.callThen]
  split
  next p isPromise =>
    obtain ⟨-, inside⟩ := lt_of_promiseOf isPromise
    have isOld := List.getElem?_eq_getElem (grows.inside inside)
    have registered := allocated.register isOld ((held p s.promises.length isPromise).grow grows)
      (by dsimp only; omega)
    have noted := registered.note (show Truthful _ (.registered p ⟨onFulfilled.asFunction,
      onRejected.asFunction, s.promises.length⟩) from trivial)
    have isLast : s.promises.length < (s.allocate false).promises.length := by omega
    exact noted.completeWith (decide_eq_true ((grows_register _ isOld).inside isLast))
  next => exact allocated.completeWith rfl

theorem knows_asFunction {value : Value User} (isKnown : s.knowsValue value = true)
    {f : Function User} (isFunction : value.asFunction = some f) : s.knows f = true := by
  cases value with
  | function f' => exact Option.some.inj isFunction ▸ isKnown
  | _ => cases isFunction

/-- A function that user code knows. -/
theorem enter (linked : Linked s) {f : Function User} {this first second : Value User}
    (isKnown : s.knows f = true)
    (handed : ∀ p, s.promiseOf this = some p →
      s.knowsValue first = true ∧ s.knowsValue second = true) :
    Linked (s.enter f this first second) := by
  cases f with
  | user code => exact linked.toUser
  | resolve p => exact linked.callResolve p first
  | reject p => exact linked.callReject p first
  | adopt g =>
      obtain ⟨guard, isGuard, isForeign⟩ := (Option.any_eq_true _ _).mp isKnown
      refine linked.callAdopt first isGuard fun isNative => ?_
      rw [isNative] at isForeign
      cases isForeign
  | refuse g =>
      obtain ⟨guard, isGuard, isForeign⟩ := (Option.any_eq_true _ _).mp isKnown
      refine linked.callRefuse first isGuard fun isNative => ?_
      rw [isNative] at isForeign
      cases isForeign
  | thenMethod =>
      refine linked.callThen fun p next isPromise => ?_
      obtain ⟨knowsFirst, knowsSecond⟩ := handed p isPromise
      exact .known (fun f isFunction => knows_asFunction knowsFirst isFunction)
        (fun f isFunction => knows_asFunction knowsSecond isFunction)

theorem construct (linked : Linked s) {executor : Value User}
    (isKnown : s.knowsValue executor = true) : Linked (s.construct executor) := by
  have waiting := linked.push (show Grounded s .user from trivial)
  cases executor with
  | function f =>
      have allocated := waiting.allocate true
      have grows := (((Evolves.refl s).push .user).trans (evolves_allocate _ true)).grows
      have isLast : s.promises.length < ((s.push .user).allocate true).promises.length := by
        have : ((s.push .user).allocate true).promises.length = s.promises.length + 1 :=
          List.length_append
        omega
      have pushed := allocated.push
        (show Grounded _ (.executor s.promises.length) from isLast)
      refine pushed.enter (grows.knows (show s.knows f = true from isKnown)) fun p isPromise => ?_
      cases isPromise
  | _ => exact waiting.completeWith rfl

theorem afterAdoption (linked : Linked s) {g : Nat} {result : Completion User}
    (foreign : ∀ error, result = .thrown error →
      ∃ guard, s.guards[g]? = some guard ∧ guard.native = false) :
    Linked (s.afterAdoption g result) := by
  unfold State.afterAdoption
  split
  next error p _ _ _ =>
    have noted := linked.note (show Truthful s (.threw g error) from foreign error rfl)
    exact (noted.settle p error Status.noConfusion).completeWith rfl
  next => exact linked.completeWith rfl

theorem afterExecutor (linked : Linked s) {p : Nat} (inside : p < s.promises.length)
    (result : Completion User) : Linked (s.afterExecutor p result) := by
  cases result with
  | returned value => exact linked.completeWith (decide_eq_true inside)
  | thrown error =>
      exact (linked.callReject p error).completeWith
        (decide_eq_true ((evolves_callReject s p error).grows.inside inside))

theorem afterHandling (linked : Linked s) (next : Nat) (result : Completion User) :
    Linked (s.afterHandling next result) := by
  cases result with
  | returned value => exact linked.callResolve next value
  | thrown error => exact linked.callReject next error

end Linked

/-- Right after the adoption of a promise the frame is still there. -/
def IsLinked (s : State User) : Prop :=
  Linked s ∨ ∃ g stack value, s.stack = .adoption g :: stack ∧
    s.control = .complete (.returned value) ∧ Linked { s with stack := stack }

section Adoption

variable {s : State User}

theorem isNative_iff {f : Function User} {x : Value User} :
    s.isNative f x = true ↔ f = .thenMethod ∧ ∃ p, s.promiseOf x = some p := by
  cases f with
  | thenMethod =>
      rw [State.isNative]
      exact Option.isSome_iff_exists.trans ⟨fun found => ⟨rfl, found⟩, fun both => both.2⟩
  | _ =>
      constructor
      · intro impossible
        cases impossible
      · intro ⟨impossible, _⟩
        cases impossible

theorem register_push (s : State User) (frame : Frame User) (p : Nat) (handler : Handler User) :
    (s.push frame).register p handler = (s.register p handler).push frame := by
  rw [State.register, State.register]
  cases isPromise : s.promises[p]? with
  | none =>
      rw [show (s.push frame).promises[p]? = none from isPromise]
  | some promise =>
      rw [show (s.push frame).promises[p]? = some promise from isPromise]
      dsimp only
      split
      · rfl
      · rfl

theorem callThen_push (s : State User) (frame : Frame User)
    (this onFulfilled onRejected : Value User) :
    (s.push frame).callThen this onFulfilled onRejected =
      (s.callThen this onFulfilled onRejected).push frame := by
  have sameThis : (s.push frame).promiseOf this = s.promiseOf this := by
    cases this with
    | _ => rfl
  rw [State.callThen, State.callThen, sameThis]
  cases s.promiseOf this with
  | none => rfl
  | some p =>
      have registered := register_push (s.allocate false) frame p
        ⟨onFulfilled.asFunction, onRejected.asFunction, s.promises.length⟩
      exact congrArg (fun later => (later.note (.registered p ⟨onFulfilled.asFunction,
        onRejected.asFunction, s.promises.length⟩)).completeWith
          (.returned (.promise s.promises.length))) registered

/-- `then` returns a promise. -/
theorem callThen_control {this : Value User} {p : Nat} (onFulfilled onRejected : Value User)
    (isPromise : s.promiseOf this = some p) :
    (s.callThen this onFulfilled onRejected).control =
      .complete (.returned (.promise s.promises.length)) := by
  rw [State.callThen, isPromise]
  rfl

theorem callThen_stack (s : State User) (this onFulfilled onRejected : Value User) :
    (s.callThen this onFulfilled onRejected).stack = s.stack := by
  rw [State.callThen]
  split
  · show ((s.allocate false).register _ _).stack = s.stack
    rw [State.register]
    split
    · split <;> rfl
    · rfl
  · rfl

/-- The functions of a native guard are in one handler of the promise, and nowhere else. -/
theorem linked_callThenable (linked : Linked s) (p : Nat) {x : Value User} {f : Function User}
    (isKnown : s.knows f = true) : IsLinked (s.callThenable p x f) := by
  let guard : Guard User := ⟨p, x, s.isNative f x, false⟩
  have guarded := linked.guarded guard
  have noted := guarded.note (show Truthful _ (.adopting p s.guards.length) from trivial)
  have isGuard : (s.guards ++ [guard])[s.guards.length]? = some guard := List.getElem?_concat_length
  rw [State.callThenable]
  by_cases native : s.isNative f x = true
  · obtain ⟨rfl, q, isPromise⟩ := isNative_iff.mp native
    obtain ⟨isSubject, -⟩ := lt_of_promiseOf isPromise
    refine Or.inr ⟨s.guards.length, s.stack, .promise s.promises.length, ?_, ?_, ?_⟩
    · exact callThen_stack _ _ _ _
    · apply callThen_control
      cases x with
      | promise r => exact isPromise
      | _ => cases isPromise
    · dsimp only [State.enter]
      rw [callThen_push]
      refine (noted.callThen fun r next isThis => ?_).withStack (callThen_stack _ _ _ _)
      cases isSubject
      obtain ⟨isOther, -⟩ := lt_of_promiseOf isThis
      cases isOther
      exact .native s.guards.length guard isGuard native rfl rfl rfl
  · have isForeign : guard.native = false := Bool.eq_false_iff.mpr native
    have knowsBoth : (s.guards ++ [guard])[s.guards.length]?.any (fun guard => !guard.native) =
        true := by
      rw [isGuard]
      exact congrArg not isForeign
    have pushed := noted.push (show Grounded _ (.adoption s.guards.length) from
      ⟨guard, isGuard, isForeign⟩)
    have grows : Grows s ((({ s with guards := s.guards ++ [guard] }).note
        (.adopting p s.guards.length)).push (.adoption s.guards.length)) :=
      ⟨Kept.refl s.promises, keptGuards_append s.guards guard⟩
    exact Or.inl (pushed.enter (grows.knows isKnown) fun _ _ => ⟨knowsBoth, knowsBoth⟩)

theorem linked_afterRead (linked : Linked s) (p : Nat) (x : Value User) {result : Completion User}
    (isKnown : s.knowsCompletion result = true) : IsLinked (s.afterRead p x result) := by
  cases result with
  | thrown error =>
      have noted := linked.note (show Truthful s (.unreadable p error) from trivial)
      exact Or.inl ((noted.settle p error Status.noConfusion).completeWith rfl)
  | returned value =>
      have noted := linked.note (show Truthful s (.noThenable p) from trivial)
      have fulfilled : Linked (((s.note (.noThenable p)).settle p .fulfilled x).completeWith
          .done) := (noted.settle p x Status.noConfusion).completeWith rfl
      cases value with
      | function f => exact linked_callThenable linked p isKnown
      | _ => exact Or.inl fulfilled

/-- The job is the only place where the functions of a native guard are called. -/
theorem linked_runJob {job : Job User} {queue : List (Job User)} (linked : Linked s)
    (isQueue : s.queue = job :: queue) (carries : Carries s.promises job) :
    Linked ({ s with queue := queue }.runJob job) := by
  have pends : s.Pends job.promise job.handler :=
    Or.inr ⟨job, isQueue ▸ List.mem_cons_self, rfl, rfl⟩
  have older := linked.older _ _ pends
  have noted := (linked.dequeue isQueue).note (show Truthful _ (.ran job) from trivial)
  have pushed := noted.push (show Grounded _ (.handling job.handler.next) from older)
  obtain ⟨promise, isPromise, settled, sameState, sameValue⟩ := carries
  rw [State.runJob]
  split
  next f isCallback =>
    cases linked.held _ _ pends with
    | known fulfilled rejected =>
        have isKnown : s.knows f = true := by
          rw [Job.callback] at isCallback
          split at isCallback
          · exact fulfilled f isCallback
          · exact rejected f isCallback
        refine pushed.enter (show s.knows f = true from isKnown) fun p impossible => ?_
        cases impossible
    | native g guard isGuard isNative subject fulfilled rejected =>
        rw [Job.callback] at isCallback
        split at isCallback
        next isFulfilled =>
          cases isCallback.symm.trans fulfilled
          exact pushed.callAdopt _ isGuard fun _ => ⟨job.promise, promise, subject, isPromise,
            sameState.symm.trans isFulfilled, sameValue.symm⟩
        next notFulfilled =>
          cases isCallback.symm.trans rejected
          have isRejected : promise.state = .rejected := by
            rw [sameState] at notFulfilled
            cases state : promise.state with
            | pending => exact absurd state settled
            | fulfilled => exact absurd state notFulfilled
            | rejected => rfl
          exact pushed.callRefuse _ isGuard fun _ => ⟨job.promise, promise, subject, isPromise,
            isRejected, sameValue.symm⟩
  next =>
    split
    · exact noted.callResolve _ _
    · exact noted.callReject _ _

theorem linked_step {next : State User} {action : State.Action User} (linked : IsLinked s)
    (orderly : s.IsOrderly) (stepped : s.step action = some next) : IsLinked next := by
  -- Above the frame of a promise that is adopted there is no user code.
  have atUser : s.control = .user → Linked s := by
    intro isUser
    rcases linked with linked | ⟨g, stack, value, -, isComplete, -⟩
    · exact linked
    · cases isUser.symm.trans isComplete
  have atRest : s.stack = [] → Linked s := by
    intro isEmpty
    rcases linked with linked | ⟨g, stack, value, isStack, -, -⟩
    · exact linked
    · cases isEmpty.symm.trans isStack
  cases action with
  | construct executor =>
      rw [State.step] at stepped
      split at stepped
      next isUser =>
        split at stepped
        next isKnown =>
          cases stepped
          exact Or.inl ((atUser isUser).construct isKnown)
        next => cases stepped
      next => cases stepped
  | call f this first second =>
      rw [State.step] at stepped
      split at stepped
      next isUser =>
        split at stepped
        next areKnown =>
          cases stepped
          simp only [Bool.and_eq_true] at areKnown
          obtain ⟨⟨⟨isKnown, -⟩, knowsFirst⟩, knowsSecond⟩ := areKnown
          have pushed := (atUser isUser).push (show Grounded s .user from trivial)
          have grows : Grows s (s.push .user) := Grows.of_same rfl rfl
          exact Or.inl (pushed.enter (grows.knows isKnown) fun _ _ =>
            ⟨grows.knowsValue knowsFirst, grows.knowsValue knowsSecond⟩)
        next => cases stepped
      next => cases stepped
  | finish completion =>
      rw [State.step] at stepped
      split at stepped
      next isUser =>
        split at stepped
        next isKnown =>
          cases stepped
          exact Or.inl ((atUser isUser).completeWith isKnown)
        next => cases stepped
      next => cases stepped
  | proceed =>
      rw [State.step] at stepped
      split at stepped
      next result frame stack isComplete isStack =>
        cases stepped
        rcases linked with linked | ⟨g, rest, value, isAdoption, isReturned, linked⟩
        · have popped := linked.pop isStack
          have grounded := linked.grounded frame (isStack ▸ List.mem_cons_self)
          have isKnown := linked.completed result isComplete
          cases frame with
          | user => exact Or.inl popped.toUser
          | executor p => exact Or.inl (popped.afterExecutor grounded result)
          | getter p x => exact linked_afterRead popped p x isKnown
          | adoption g => exact Or.inl (popped.afterAdoption fun _ _ => grounded)
          | handling next => exact Or.inl (popped.afterHandling next result)
        · cases isAdoption.symm.trans isStack
          cases isReturned.symm.trans isComplete
          exact Or.inl (linked.completeWith rfl)
      next => cases stepped
  | task =>
      rw [State.step] at stepped
      split at stepped
      next isIdle =>
        cases stepped
        exact Or.inl (atRest isIdle).toUser
      next => cases stepped
  | microtask =>
      rw [State.step] at stepped
      split at stepped
      next result job queue _ isIdle isQueue =>
        cases stepped
        have isJob : job ∈ jobsRun s.log ++ s.queue :=
          List.mem_append_right _ (isQueue ▸ List.mem_cons_self)
        exact Or.inl (linked_runJob (atRest isIdle) isQueue (orderly.carried job isJob))
      next => cases stepped

theorem linked_initial : Linked (State.initial : State User) := by
  have nonePends : ∀ (p : Nat) (handler : Handler User), ¬ State.initial.Pends p handler := by
    intro p handler pends
    rcases pends with ⟨promise, isPromise, -⟩ | ⟨job, isJob, -⟩
    · cases isPromise
    · cases isJob
  constructor
  · exact fun p handler pends => absurd pends (nonePends p handler)
  · exact fun p handler pends => absurd pends (nonePends p handler)
  · exact List.forall_mem_nil _
  · exact List.forall_mem_nil _
  · intro result isComplete
    cases isComplete
    rfl

theorem Reachable.isLinked (reachable : Reachable s) : IsLinked s := by
  induction reachable with
  | initial => exact Or.inl linked_initial
  | step action before stepped induction => exact linked_step induction before.orderly stepped

end Adoption

/-! ## The guards of promises that are adopted -/

/-- A native guard that has not been called has its handler at the promise. -/
def State.Awaits (s : State User) (g : Nat) : Prop :=
  ∀ guard, s.guards[g]? = some guard → guard.native = true → guard.called = false →
    ∃ p handler, guard.subject = .promise p ∧ s.Pends p handler ∧
      handler.onFulfilled = some (.adopt g) ∧ handler.onRejected = some (.refuse g)

section Awaiting

variable {s : State User}

theorem Evolves.awaits {later : State User} {g : Nat} (evolves : Evolves s later)
    (isOld : g < s.guards.length) (awaits : s.Awaits g) : later.Awaits g := by
  intro guard' isGuard' isNative isOpen
  have isGuard := List.getElem?_eq_getElem isOld
  obtain ⟨other, isOther, -, sameSubject, sameNative, stillOpen⟩ := evolves.keptGuards g _ isGuard
  cases isOther.symm.trans isGuard'
  obtain ⟨p, handler, isSubject, pends, handles⟩ :=
    awaits _ isGuard (sameNative.symm.trans isNative) (stillOpen isOpen)
  exact ⟨p, handler, sameSubject.trans isSubject, evolves.pends p handler pends, handles⟩

theorem resolvePromise_guards (s : State User) (p : Nat) (x : Value User) :
    (s.resolvePromise p x).guards = s.guards := by
  rw [State.resolvePromise]
  split
  · exact settle_guards s p .rejected .typeError
  · split
    · rfl
    · exact settle_guards s p .fulfilled x

theorem callResolve_guards (s : State User) (p : Nat) (value : Value User) :
    (s.callResolve p value).guards = s.guards := by
  rw [State.callResolve]
  split
  · exact resolvePromise_guards _ p value
  · rfl

theorem callReject_guards (s : State User) (p : Nat) (reason : Value User) :
    (s.callReject p reason).guards = s.guards := settle_guards _ p .rejected reason

theorem register_guards (s : State User) (p : Nat) (handler : Handler User) :
    (s.register p handler).guards = s.guards := by
  rw [State.register]
  split
  · split <;> rfl
  · rfl

theorem callThen_guards (s : State User) (this onFulfilled onRejected : Value User) :
    (s.callThen this onFulfilled onRejected).guards = s.guards := by
  rw [State.callThen]
  split
  · exact register_guards (s.allocate false) _ _
  · rfl

/-- A guard is marked at most once. -/
theorem markCalled_of_called {g : Nat}
    (notOpen : ∀ guard, s.guards[g]? = some guard → guard.called = true) :
    (s.markCalled g).guards = s.guards := by
  apply List.ext_getElem?
  intro h
  rw [State.markCalled, List.getElem?_modify]
  cases isGuard : s.guards[h]? with
  | none => rfl
  | some guard =>
      by_cases same : g = h
      · subst same
        have isCalled := notOpen guard isGuard
        cases guard
        cases isCalled
        exact congrArg some (if_pos rfl)
      · exact congrArg some (if_neg same)

theorem callAdopt_guards (s : State User) (g : Nat) (y : Value User) :
    (s.callAdopt g y).guards = (s.markCalled g).guards := by
  rw [State.callAdopt]
  split
  · exact resolvePromise_guards _ _ y
  next notOpen =>
    refine (markCalled_of_called fun guard isGuard => ?_).symm
    obtain ⟨p, subject, native, called⟩ := guard
    cases called with
    | false => exact absurd isGuard (notOpen p subject native)
    | true => rfl

theorem callRefuse_guards (s : State User) (g : Nat) (r : Value User) :
    (s.callRefuse g r).guards = (s.markCalled g).guards := by
  rw [State.callRefuse]
  split
  · exact settle_guards _ _ .rejected r
  next notOpen =>
    refine (markCalled_of_called fun guard isGuard => ?_).symm
    obtain ⟨p, subject, native, called⟩ := guard
    cases called with
    | false => exact absurd isGuard (notOpen p subject native)
    | true => rfl

theorem enter_guards_length (s : State User) (f : Function User) (this first second : Value User) :
    (s.enter f this first second).guards.length = s.guards.length := by
  cases f with
  | user code => rfl
  | resolve p => exact congrArg List.length (callResolve_guards s p first)
  | reject p => exact congrArg List.length (callReject_guards s p first)
  | adopt g =>
      exact (congrArg List.length (callAdopt_guards s g first)).trans (List.length_modify _ _ _)
  | refuse g =>
      exact (congrArg List.length (callRefuse_guards s g first)).trans (List.length_modify _ _ _)
  | thenMethod => exact congrArg List.length (callThen_guards s this first second)

theorem construct_guards_length (s : State User) (executor : Value User) :
    (s.construct executor).guards.length = s.guards.length := by
  cases executor with
  | function f => exact enter_guards_length _ f _ _ _
  | _ => rfl

theorem afterAdoption_guards (s : State User) (g : Nat) (result : Completion User) :
    (s.afterAdoption g result).guards = s.guards := by
  unfold State.afterAdoption
  split
  · exact settle_guards _ _ .rejected _
  · rfl

theorem called_markCalled {g : Nat} {guard : Guard User}
    (isGuard : (s.markCalled g).guards[g]? = some guard) : guard.called = true := by
  rw [State.markCalled, List.getElem?_modify_eq] at isGuard
  cases isOld : s.guards[g]? with
  | none =>
      rw [isOld] at isGuard
      cases isGuard
  | some old =>
      rw [isOld] at isGuard
      cases isGuard
      rfl

/-- All guards are looked after when those that exist already are, and no other does. -/
theorem awaits_of_evolves {later : State User} (awaits : ∀ g, s.Awaits g)
    (evolves : Evolves s later) (sameLength : later.guards.length = s.guards.length) (g : Nat) :
    later.Awaits g := by
  by_cases isOld : g < s.guards.length
  · exact evolves.awaits isOld (awaits g)
  · intro guard isGuard
    have := lt_of_getElem? isGuard
    omega

theorem callThen_pends {this : Value User} {p : Nat} (onFulfilled onRejected : Value User)
    (isPromise : s.promiseOf this = some p) :
    (s.callThen this onFulfilled onRejected).Pends p
      ⟨onFulfilled.asFunction, onRejected.asFunction, s.promises.length⟩ := by
  obtain ⟨-, inside⟩ := lt_of_promiseOf isPromise
  have isOld := List.getElem?_eq_getElem ((evolves_allocate s false).grows.inside inside)
  rw [State.callThen, isPromise]
  exact (pends_register isOld p _).mpr (Or.inr ⟨rfl, rfl⟩)

theorem awaits_callThenable (awaits : ∀ g, s.Awaits g) (p : Nat) (x : Value User)
    (f : Function User) (g : Nat) : (s.callThenable p x f).Awaits g := by
  have evolves := evolves_callThenable s p x f
  have sameLength : (s.callThenable p x f).guards.length = s.guards.length + 1 :=
    (enter_guards_length _ f _ _ _).trans List.length_append
  by_cases isOld : g < s.guards.length
  · exact evolves.awaits isOld (awaits g)
  · intro guard isGuard isNative _
    have inside := lt_of_getElem? isGuard
    have isLast : g = s.guards.length := by omega
    subst isLast
    rw [State.callThenable] at isGuard ⊢
    let fresh : Guard User := ⟨p, x, s.isNative f x, false⟩
    have entered := evolves_enter (({ s with guards := s.guards ++ [fresh] }.note
      (.adopting p s.guards.length)).push (.adoption s.guards.length)) f x
      (.function (.adopt s.guards.length)) (.function (.refuse s.guards.length))
    obtain ⟨guard', isGuard', -, sameSubject, sameNative, -⟩ :=
      entered.keptGuards s.guards.length _ List.getElem?_concat_length
    cases isGuard'.symm.trans isGuard
    obtain ⟨rfl, q, isPromise⟩ := isNative_iff.mp (sameNative.symm.trans isNative)
    obtain ⟨rfl, inside⟩ := lt_of_promiseOf isPromise
    exact ⟨q, _, sameSubject, callThen_pends _ _ isPromise, rfl, rfl⟩

theorem awaits_afterRead (awaits : ∀ g, s.Awaits g) (p : Nat) (x : Value User)
    (result : Completion User) (g : Nat) : (s.afterRead p x result).Awaits g := by
  have evolves := evolves_afterRead s p x result
  cases result with
  | thrown error =>
      exact awaits_of_evolves awaits evolves
        (congrArg List.length (settle_guards _ p .rejected error)) g
  | returned value =>
      have sameLength := congrArg List.length (settle_guards (s.note (.noThenable p)) p .fulfilled x)
      cases value with
      | function f => exact awaits_callThenable awaits p x f g
      | _ => exact awaits_of_evolves awaits evolves sameLength g

theorem awaits_proceed (awaits : ∀ g, s.Awaits g) (frame : Frame User) (result : Completion User)
    (g : Nat) : (s.proceed frame result).Awaits g := by
  have evolves := evolves_proceed s frame result
  cases frame with
  | user => exact awaits_of_evolves awaits evolves rfl g
  | executor p =>
      cases result with
      | returned value => exact awaits_of_evolves awaits evolves rfl g
      | thrown error =>
          exact awaits_of_evolves awaits evolves
            (congrArg List.length (callReject_guards s p error)) g
  | getter p x => exact awaits_afterRead awaits p x result g
  | adoption h =>
      exact awaits_of_evolves awaits evolves
        (congrArg List.length (afterAdoption_guards s h result)) g
  | handling next =>
      cases result with
      | returned value =>
          exact awaits_of_evolves awaits evolves
            (congrArg List.length (callResolve_guards s next value)) g
      | thrown error =>
          exact awaits_of_evolves awaits evolves
            (congrArg List.length (callReject_guards s next error)) g

/-- The microtask of the handler of a native guard calls the guard. -/
theorem awaits_runJob {job : Job User} {queue : List (Job User)} (awaits : ∀ g, s.Awaits g)
    (isQueue : s.queue = job :: queue) (g : Nat) :
    ({ s with queue := queue }.runJob job).Awaits g := by
  have evolves := evolves_runJob { s with queue := queue } job
  intro guard' isGuard' isNative isOpen
  have sameLength : ({ s with queue := queue }.runJob job).guards.length = s.guards.length := by
    rw [State.runJob]
    split
    · exact enter_guards_length _ _ _ _ _
    · split
      · exact congrArg List.length (callResolve_guards _ _ _)
      · exact congrArg List.length (callReject_guards _ _ _)
  have isOld : g < s.guards.length := by
    have := lt_of_getElem? isGuard'
    omega
  have isGuard := List.getElem?_eq_getElem isOld
  obtain ⟨other, isOther, -, sameSubject, sameNative, stillOpen⟩ := evolves.keptGuards g _ isGuard
  cases isOther.symm.trans isGuard'
  obtain ⟨p, handler, isSubject, pends, fulfilled, rejected⟩ :=
    awaits g _ isGuard (sameNative.symm.trans isNative) (stillOpen isOpen)
  rcases pends with isWaiting | ⟨other, isOther, isPromise, isHandler⟩
  · exact ⟨p, handler, sameSubject.trans isSubject, evolves.pends p handler (Or.inl isWaiting),
      fulfilled, rejected⟩
  · rw [isQueue] at isOther
    rcases List.mem_cons.mp isOther with rfl | isOther
    · -- This is the job that is run, and the guard has been called.
      exfalso
      subst isHandler
      rw [State.runJob, Job.callback, fulfilled, rejected] at isGuard'
      have isCalled : guard'.called = true := by
        split at isGuard'
        next f isCallback =>
          split at isCallback
          · cases isCallback
            exact called_markCalled (callAdopt_guards _ g _ ▸ isGuard')
          · cases isCallback
            exact called_markCalled (callRefuse_guards _ g _ ▸ isGuard')
        next notCallback =>
          split at notCallback
          · cases notCallback
          · cases notCallback
      cases isOpen.symm.trans isCalled
    · have stillPends : { s with queue := queue }.Pends p handler :=
        Or.inr ⟨other, isOther, isPromise, isHandler⟩
      exact ⟨p, handler, sameSubject.trans isSubject, evolves.pends p handler stillPends,
        fulfilled, rejected⟩

theorem awaits_step {next : State User} {action : State.Action User} (awaits : ∀ g, s.Awaits g)
    (stepped : s.step action = some next) (g : Nat) : next.Awaits g := by
  cases action with
  | construct executor =>
      rw [State.step] at stepped
      split at stepped
      · split at stepped
        · cases stepped
          exact awaits_of_evolves awaits (evolves_construct s executor)
            (construct_guards_length s executor) g
        · cases stepped
      · cases stepped
  | call f this first second =>
      rw [State.step] at stepped
      split at stepped
      · split at stepped
        · cases stepped
          exact awaits_of_evolves awaits
            (((Evolves.refl s).push _).trans (evolves_enter _ f this first second))
            (enter_guards_length _ f this first second) g
        · cases stepped
      · cases stepped
  | finish completion =>
      rw [State.step] at stepped
      split at stepped
      · split at stepped
        · cases stepped
          exact awaits g
        · cases stepped
      · cases stepped
  | proceed =>
      rw [State.step] at stepped
      split at stepped
      next result frame stack _ _ =>
        cases stepped
        have popped : ∀ g, { s with stack := stack }.Awaits g := awaits
        exact awaits_proceed popped frame result g
      next => cases stepped
  | task =>
      rw [State.step] at stepped
      split at stepped
      · cases stepped
        exact awaits g
      · cases stepped
  | microtask =>
      rw [State.step] at stepped
      split at stepped
      next result job queue _ _ isQueue =>
        cases stepped
        exact awaits_runJob awaits isQueue g
      next => cases stepped

theorem Reachable.awaits (reachable : Reachable s) (g : Nat) : s.Awaits g := by
  induction reachable generalizing g with
  | initial =>
      intro guard isGuard
      cases isGuard
  | step action _ stepped induction => exact awaits_step induction stepped g

end Awaiting

end FoundationsLab.Promises
