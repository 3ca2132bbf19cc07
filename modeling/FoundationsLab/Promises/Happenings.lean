import FoundationsLab.Promises.FirstCall

/-! # Happenings

What thenables do is seen from outside as a list of happenings, with the callbacks and throws
that are ignored. The rules of the resolution procedure say what they make of a promise, and
this is what the log of a run says of it. -/

namespace FoundationsLab.Promises

variable {User : Type}

/-! ## Happenings -/

/-- A call of a function of a promise, the reading of `x.then`, a callback of a thenable and the
end of its `then`. If `x.then` is a function, its call is given a number. -/
inductive Happening (User : Type) where
  | called (promise : Nat) (call : Call User)
  | read (promise : Nat) (x : Value User) (result : Completion User) (level : Nat)
  | callback (level : Nat) (call : Call User)
  | finished (level : Nat) (result : Completion User)

namespace Happening

def calls (p : Nat) : Happening User → Bool
  | called q _ => q = p
  | _ => false

/-- The call of `then` with this number begins. -/
def opens (g : Nat) : Happening User → Bool
  | read _ _ (.returned (.function _)) level => level = g
  | _ => false

/-- The call of `then` with this number calls back, or throws. -/
def concerns (g : Nat) : Happening User → Bool
  | callback level _ => level = g
  | finished level (.thrown _) => level = g
  | _ => false

def ofEnter (f : Function User) (first : Value User) : List (Happening User) :=
  match f with
  | .user _ | .thenMethod => []
  | .resolve p => [.called p (.resolve first)]
  | .reject p => [.called p (.reject first)]
  | .adopt g => [.callback g (.resolve first)]
  | .refuse g => [.callback g (.reject first)]

end Happening

namespace State

def readHappenings (s : State User) (p : Nat) (x : Value User) (result : Completion User) :
    List (Happening User) :=
  .read p x result s.guards.length ::
    match result with
    | .returned (.function f) => Happening.ofEnter f (.function (.adopt s.guards.length))
    | _ => []

def proceedHappenings (s : State User) (frame : Frame User) (result : Completion User) :
    List (Happening User) :=
  match frame with
  | .user => []
  | .executor p =>
      match result with
      | .thrown error => [.called p (.reject error)]
      | .returned _ => []
  | .getter p x => s.readHappenings p x result
  | .adoption g => [.finished g result]
  | .handling next =>
      match result with
      | .returned value => [.called next (.resolve value)]
      | .thrown error => [.called next (.reject error)]

def jobHappenings (job : Job User) : List (Happening User) :=
  match job.callback with
  | some f => Happening.ofEnter f job.value
  | none =>
      if job.state = .fulfilled then [.called job.handler.next (.resolve job.value)]
      else [.called job.handler.next (.reject job.value)]

def happenings (s : State User) : Action User → List (Happening User)
  | .construct (.function f) => Happening.ofEnter f (.function (.resolve s.promises.length))
  | .call f _ first _ => Happening.ofEnter f first
  | .proceed =>
      match s.control, s.stack with
      | .complete result, frame :: _ => s.proceedHappenings frame result
      | _, _ => []
  | .microtask =>
      match s.queue with
      | job :: _ => jobHappenings job
      | [] => []
  | _ => []

/-- What happens in a run. -/
def trace (s : State User) : List (Action User) → List (Happening User)
  | [] => []
  | action :: actions =>
      s.happenings action ++
        match s.step action with
        | some next => next.trace actions
        | none => []

end State

/-! ## The rules -/

namespace Fate

/-- An unreadable `then` rejects, and `x` is a thenable if it is a function. -/
def ofRead (x : Value User) (level : Nat) : Completion User → Fate User
  | .thrown error => .settled .rejected error
  | .returned (.function _) => .following level
  | .returned _ => .settled .fulfilled x

/-- The rules. The promise waits for one thing at a time, and whatever else happens makes no
difference to it. -/
def next (p : Nat) (fate : Fate User) (happening : Happening User) : Fate User :=
  match fate with
  | .unresolved =>
      match happening with
      | .called q call => if q = p then ofCall p call else .unresolved
      | _ => .unresolved
  | .reading x =>
      match happening with
      | .read q y result level => if q = p then ofRead y level result else .reading x
      | _ => .reading x
  | .following g =>
      match happening with
      | .callback level call => if level = g then ofCall p call else .following g
      | .finished level (.thrown error) =>
          if level = g then .settled .rejected error else .following g
      | _ => .following g
  | .settled state value => .settled state value

end Fate

/-- What becomes of a promise that is resolved with `x`. -/
def outcome (p : Nat) (x : Value User) (after : List (Happening User)) : Fate User :=
  after.foldl (Fate.next p) (.resolvedWith p x)

/-! ## The log of a run and what happens in it -/

structure Recorded (p : Nat) (s : State User) (trace : List (Happening User)) : Prop where
  sameCalls : s.log.countP (Event.calls p) = trace.countP (Happening.calls p)
  sameFate : Alone p s.log → fate p s.log = trace.foldl (Fate.next p) .unresolved

/-- A promise that follows a guard can go on. -/
def Live (p : Nat) (s : State User) : Prop :=
  Alone p s.log → ∀ g, fate p s.log = .following g → s.IsOpen p g

section Recording

variable {p : Nat} {s later : State User} {trace : List (Happening User)}

theorem Agrees.live (agrees : Agrees p s) : Live p s := by
  intro alone g follows
  have fits := agrees alone
  rw [follows] at fits
  exact (fits.2.2 g).mpr rfl

theorem Live.of_same (live : Live p s) (sameLog : later.log = s.log)
    (sameGuards : later.guards = s.guards) : Live p later := by
  intro alone g follows
  rw [sameLog] at alone follows
  obtain ⟨guard, isGuard, isPromise, isOpen⟩ := live alone g follows
  exact ⟨guard, sameGuards ▸ isGuard, isPromise, isOpen⟩

namespace Recorded

theorem silent (recorded : Recorded p s trace) (sameLog : later.log = s.log) :
    Recorded p later trace := by
  constructor
  · rw [sameLog]
    exact recorded.sameCalls
  · rw [sameLog]
    exact recorded.sameFate

/-- An event that the rules do not know. -/
theorem noted (recorded : Recorded p s trace) {event : Event User}
    (isLog : later.log = s.log ++ [event]) (notCall : event.calls p = false)
    (ignored : ∀ fate : Fate User, fate.after p event = fate) : Recorded p later trace := by
  constructor
  · rw [isLog, List.countP_append, List.countP_singleton, notCall]
    exact recorded.sameCalls
  · intro alone
    rw [isLog] at alone ⊢
    rw [fate_append, ignored]
    exact recorded.sameFate (alone_append alone).1

/-- A happening of which nothing is noted. -/
theorem unnoted (recorded : Recorded p s trace) {happening : Happening User}
    (sameLog : later.log = s.log) (notCall : happening.calls p = false)
    (ignored : Alone p s.log → (fate p s.log).next p happening = fate p s.log) :
    Recorded p later (trace ++ [happening]) := by
  constructor
  · rw [sameLog, List.countP_append, List.countP_singleton, notCall]
    exact recorded.sameCalls
  · intro alone
    rw [sameLog] at alone ⊢
    rw [List.foldl_append, ← recorded.sameFate alone]
    exact (ignored alone).symm

theorem extend (recorded : Recorded p s trace) {event : Event User} {happening : Happening User}
    (isLog : later.log = s.log ++ [event]) (sameCall : event.calls p = happening.calls p)
    (same : Alone p s.log → (fate p s.log).after p event = (fate p s.log).next p happening) :
    Recorded p later (trace ++ [happening]) := by
  constructor
  · rw [isLog, List.countP_append, List.countP_append, recorded.sameCalls,
      List.countP_singleton, List.countP_singleton, sameCall]
  · intro alone
    rw [isLog] at alone ⊢
    obtain ⟨before, -⟩ := alone_append alone
    rw [fate_append, List.foldl_append, ← recorded.sameFate before]
    exact same before

/-! ### The functions of the library -/

theorem callResolve (recorded : Recorded p s trace) (q : Nat) (x : Value User) :
    Recorded p (s.callResolve q x) (trace ++ [.called q (.resolve x)]) := by
  apply recorded.extend (callResolve_log s q x) rfl
  intro _
  cases fate p s.log with
  | _ => rfl

theorem callReject (recorded : Recorded p s trace) (q : Nat) (r : Value User) :
    Recorded p (s.callReject q r) (trace ++ [.called q (.reject r)]) := by
  apply recorded.extend (callReject_log s q r) rfl
  intro _
  cases fate p s.log with
  | _ => rfl

/-- A callback of a guard that cannot be called makes no difference. -/
theorem unanswered (recorded : Recorded p s trace) (live : Live p s) {g : Nat}
    (notOpen : ¬ s.IsOpen p g) {happening : Happening User} (sameLog : later.log = s.log)
    (notCall : happening.calls p = false)
    (onlyHere : ∀ h, h ≠ g → Fate.next p (.following h) happening = .following h)
    (notElse : ∀ fate : Fate User, (∀ h, fate ≠ .following h) → fate.next p happening = fate) :
    Recorded p later (trace ++ [happening]) := by
  apply recorded.unnoted sameLog notCall
  intro alone
  cases isFate : fate p s.log with
  | following h =>
      apply onlyHere
      intro same
      exact notOpen (same ▸ live alone h isFate)
  | _ => exact notElse _ fun h same => by cases same

theorem next_callback (fate : Fate User) (notFollowing : ∀ h, fate ≠ .following h) (g : Nat)
    (call : Call User) : fate.next p (.callback g call) = fate := by
  cases fate with
  | following h => exact absurd rfl (notFollowing h)
  | _ => rfl

theorem next_finished (fate : Fate User) (notFollowing : ∀ h, fate ≠ .following h) (g : Nat)
    (result : Completion User) : fate.next p (.finished g result) = fate := by
  cases fate with
  | following h => exact absurd rfl (notFollowing h)
  | _ => rfl

theorem not_isOpen {g : Nat} (notOpen : ∀ (q : Nat) (subject : Value User) (native : Bool),
    s.guards[g]? = some ⟨q, subject, native, false⟩ → False) : ¬ s.IsOpen p g := by
  rintro ⟨⟨q, subject, native, called⟩, isGuard, isPromise, isOpen⟩
  cases isOpen
  exact notOpen q subject native isGuard

theorem callAdopt (recorded : Recorded p s trace) (live : Live p s) (g : Nat) (y : Value User) :
    Recorded p (s.callAdopt g y) (trace ++ [.callback g (.resolve y)]) := by
  rw [State.callAdopt]
  split
  next q subject native isGuard =>
    apply recorded.extend (resolvePromise_log _ q y) rfl
    intro _
    cases fate p s.log with
    | _ => rfl
  next notOpen =>
    have closed : ¬ s.IsOpen p g := not_isOpen notOpen
    exact recorded.unanswered live closed rfl rfl (fun h different => if_neg different.symm)
      fun fate notFollowing => next_callback fate notFollowing g _

theorem callRefuse (recorded : Recorded p s trace) (live : Live p s) (g : Nat) (r : Value User) :
    Recorded p (s.callRefuse g r) (trace ++ [.callback g (.reject r)]) := by
  rw [State.callRefuse]
  split
  next q subject native isGuard =>
    apply recorded.extend (settle_log _ q .rejected r) rfl
    intro _
    cases fate p s.log with
    | _ => rfl
  next notOpen =>
    have closed : ¬ s.IsOpen p g := not_isOpen notOpen
    exact recorded.unanswered live closed rfl rfl (fun h different => if_neg different.symm)
      fun fate notFollowing => next_callback fate notFollowing g _

theorem afterAdoption (recorded : Recorded p s trace) (live : Live p s) (g : Nat)
    (result : Completion User) :
    Recorded p (s.afterAdoption g result) (trace ++ [.finished g result]) := by
  cases result with
  | returned value =>
      have sameLog : (s.afterAdoption g (.returned value)).log = s.log := rfl
      apply recorded.unnoted sameLog rfl
      intro _
      cases fate p s.log with
      | _ => rfl
  | thrown error =>
      unfold State.afterAdoption
      split
      next error' q subject native isThrown isGuard =>
        cases isThrown
        apply recorded.extend (settle_log _ q .rejected error) rfl
        intro _
        cases fate p s.log with
        | _ => rfl
      next notOpen =>
        have closed : ¬ s.IsOpen p g := not_isOpen fun q subject native isGuard =>
          notOpen error q subject native rfl isGuard
        exact recorded.unanswered live closed rfl rfl (fun h different => if_neg different.symm)
          fun fate notFollowing => next_finished fate notFollowing g _

theorem callThen (recorded : Recorded p s trace) (this onFulfilled onRejected : Value User) :
    Recorded p (s.callThen this onFulfilled onRejected) trace := by
  rw [State.callThen]
  split
  next q isPromise =>
    have isLog := register_log (s.allocate false) q
      ⟨onFulfilled.asFunction, onRejected.asFunction, s.promises.length⟩
    apply recorded.noted (congrArg (· ++ [_]) isLog) rfl
    exact fun fate => fate.after_registered q _
  next => exact recorded.silent rfl

theorem enter (recorded : Recorded p s trace) (live : Live p s) (f : Function User)
    (this first second : Value User) :
    Recorded p (s.enter f this first second) (trace ++ Happening.ofEnter f first) := by
  cases f with
  | user code =>
      have same : Recorded p { s with control := .user } trace := recorded.silent rfl
      exact (List.append_nil trace).symm ▸ same
  | thenMethod => exact (List.append_nil trace).symm ▸ recorded.callThen this first second
  | resolve q => exact recorded.callResolve q first
  | reject q => exact recorded.callReject q first
  | adopt g => exact recorded.callAdopt live g first
  | refuse g => exact recorded.callRefuse live g first

theorem construct (recorded : Recorded p s trace) (live : Live p s) (executor : Value User) :
    Recorded p (s.construct executor) (trace ++ s.happenings (.construct executor)) := by
  cases executor with
  | function f =>
      rw [State.construct]
      have waiting : Recorded p (((s.push .user).allocate true).push (.executor s.promises.length))
        trace := recorded.silent rfl
      exact waiting.enter (live.of_same rfl rfl) f _ _ _
  | _ =>
      have thrown : Recorded p ((s.push .user).completeWith (.thrown .typeError)) trace :=
        recorded.silent rfl
      exact (List.append_nil trace).symm ▸ thrown

/-- The promise that adopts follows the new guard. -/
theorem live_adopting (live : Live p s) {q : Nat} (guard : Guard User) (isOpen : guard.called = false)
    (isPromise : guard.promise = q)
    (isLog : later.log = s.log ++ [.adopting q s.guards.length])
    (isGuards : later.guards = s.guards ++ [guard]) : Live p later := by
  intro alone g follows
  rw [isLog] at alone follows
  rw [fate_append] at follows
  obtain ⟨before, -⟩ := alone_append alone
  have stays : ∀ h, fate p s.log = .following h → later.IsOpen p h := by
    intro h isFate
    obtain ⟨old, isOld, isPromise, isOpen⟩ := live before h isFate
    refine ⟨old, ?_, isPromise, isOpen⟩
    rw [isGuards, List.getElem?_append_left (lt_of_getElem? isOld)]
    exact isOld
  cases isFate : fate p s.log with
  | unresolved =>
      rw [isFate] at follows
      cases follows
  | settled state value =>
      rw [isFate] at follows
      cases follows
  | following h =>
      rw [isFate] at follows
      cases follows
      exact stays g isFate
  | reading x =>
      rw [isFate] at follows
      by_cases same : q = p
      · have isNew : Fate.following s.guards.length = .following g :=
          (if_pos same).symm.trans follows
        cases isNew
        refine ⟨guard, ?_, isPromise.trans same, isOpen⟩
        rw [isGuards]
        exact List.getElem?_concat_length
      · cases (if_neg same).symm.trans follows

/-- Where `then` is read for a promise, it is that of the value that the promise reads. -/
theorem reading_of_live {q : Nat} {x y : Value User} {stack : List (Frame User)}
    (agrees : Agrees p s) (isStack : s.stack = .getter q x :: stack) (alone : Alone p s.log)
    (same : q = p) (isFate : fate p s.log = .reading y) : y = x := by
  subst same
  rcases reading_of_getter (agrees alone) isStack with ⟨reads, -⟩ | ⟨state, value, settled⟩
  · cases isFate.symm.trans reads
    rfl
  · cases isFate.symm.trans settled

theorem afterRead (recorded : Recorded p s trace) (agrees : Agrees p s) {q : Nat} {x : Value User}
    {stack : List (Frame User)} (isStack : s.stack = .getter q x :: stack)
    (result : Completion User) :
    Recorded p ({ s with stack := stack }.afterRead q x result)
      (trace ++ s.readHappenings q x result) := by
  have live : Live p { s with stack := stack } := agrees.live.of_same rfl rfl
  have popped : Recorded p { s with stack := stack } trace := recorded.silent rfl
  have plain : ∀ value : Value User, (∀ f, value ≠ .function f) →
      Recorded p ((({ s with stack := stack }.note (.noThenable q)).settle q .fulfilled x).completeWith
        .done) (trace ++ [.read q x (.returned value) s.guards.length]) := by
    intro value notFunction
    apply popped.extend (settle_log _ q .fulfilled x) rfl
    intro alone
    have isRead : Fate.ofRead x s.guards.length (.returned value) = .settled .fulfilled x := by
      cases value with
      | function f => exact absurd rfl (notFunction f)
      | _ => rfl
    cases isFate : fate p s.log with
    | reading y =>
        by_cases same : q = p
        · have sameValue := reading_of_live agrees isStack alone same isFate
          subst sameValue
          exact (if_pos same).trans (isRead.symm.trans (if_pos same).symm)
        · exact (if_neg same).trans (if_neg same).symm
    | _ => rfl
  cases result with
  | thrown error =>
      apply popped.extend (settle_log _ q .rejected error) rfl
      intro _
      cases fate p s.log with
      | _ => rfl
  | returned value =>
      cases value with
      | function f =>
          let guard : Guard User := ⟨q, x, { s with stack := stack }.isNative f x, false⟩
          let adopting : State User := (({ s with stack := stack, guards := s.guards ++ [guard]
            }.note (.adopting q s.guards.length)).push (.adoption s.guards.length))
          have adopts : Recorded p adopting
              (trace ++ [.read q x (.returned (.function f)) s.guards.length]) := by
            have isLog : adopting.log = s.log ++ [.adopting q s.guards.length] := rfl
            apply popped.extend isLog rfl
            intro _
            cases fate p { s with stack := stack }.log with
            | _ => rfl
          have entered := adopts.enter (live_adopting live _ rfl rfl rfl rfl) f x
            (.function (.adopt s.guards.length)) (.function (.refuse s.guards.length))
          rw [List.append_assoc] at entered
          exact entered
      | _ => exact plain _ fun f same => by cases same

theorem proceed (recorded : Recorded p s trace) (agrees : Agrees p s) {frame : Frame User}
    {stack : List (Frame User)} (isStack : s.stack = frame :: stack) (result : Completion User) :
    Recorded p ({ s with stack := stack }.proceed frame result)
      (trace ++ s.proceedHappenings frame result) := by
  have live : Live p { s with stack := stack } := agrees.live.of_same rfl rfl
  have popped : Recorded p { s with stack := stack } trace := recorded.silent rfl
  cases frame with
  | user =>
      have resumed : Recorded p { s with stack := stack, control := .user } trace :=
        recorded.silent rfl
      exact (List.append_nil trace).symm ▸ resumed
  | executor q =>
      cases result with
      | returned value =>
          have ended : Recorded p ({ s with stack := stack }.completeWith (.returned (.promise q)))
            trace := recorded.silent rfl
          exact (List.append_nil trace).symm ▸ ended
      | thrown error => exact (popped.callReject q error).silent rfl
  | getter q x => exact recorded.afterRead agrees isStack result
  | adoption g => exact popped.afterAdoption live g result
  | handling q =>
      cases result with
      | returned value => exact popped.callResolve q value
      | thrown error => exact popped.callReject q error

theorem runJob (recorded : Recorded p s trace) (live : Live p s) (queue : List (Job User))
    (job : Job User) :
    Recorded p ({ s with queue := queue }.runJob job) (trace ++ State.jobHappenings job) := by
  have noted : Recorded p ({ s with queue := queue }.note (.ran job)) trace := by
    have isLog : ({ s with queue := queue }.note (.ran job)).log = s.log ++ [.ran job] := rfl
    apply recorded.noted isLog rfl
    exact fun fate => fate.after_ran job
  have liveThere : Live p ({ s with queue := queue }.note (.ran job)) := by
    intro alone g follows
    have isLog : ({ s with queue := queue }.note (.ran job)).log = s.log ++ [.ran job] := rfl
    rw [isLog] at alone follows
    rw [fate_append, Fate.after_ran] at follows
    exact live (alone_append alone).1 g follows
  rw [State.runJob, State.jobHappenings]
  cases job.callback with
  | some f =>
      have pushed : Recorded p (({ s with queue := queue }.note (.ran job)).push
        (.handling job.handler.next)) trace := noted.silent rfl
      exact pushed.enter (liveThere.of_same rfl rfl) f _ _ _
  | none =>
      dsimp only
      split
      · exact noted.callResolve job.handler.next job.value
      · exact noted.callReject job.handler.next job.value

theorem step (recorded : Recorded p s trace) (agrees : Agrees p s) {action : State.Action User}
    (stepped : s.step action = some later) :
    Recorded p later (trace ++ s.happenings action) := by
  cases action with
  | construct executor =>
      rw [State.step] at stepped
      split at stepped
      · split at stepped
        · cases stepped
          exact recorded.construct agrees.live executor
        · cases stepped
      · cases stepped
  | call f this first second =>
      rw [State.step] at stepped
      split at stepped
      · split at stepped
        · cases stepped
          have waiting : Recorded p (s.push .user) trace := recorded.silent rfl
          exact waiting.enter (agrees.live.of_same rfl rfl) f this first second
        · cases stepped
      · cases stepped
  | finish completion =>
      rw [State.step] at stepped
      split at stepped
      · split at stepped
        · cases stepped
          have ended : Recorded p (s.completeWith completion) trace := recorded.silent rfl
          exact (List.append_nil trace).symm ▸ ended
        · cases stepped
      · cases stepped
  | proceed =>
      rw [State.step] at stepped
      split at stepped
      next result frame stack isComplete isStack =>
        cases stepped
        have same : s.happenings .proceed = s.proceedHappenings frame result := by
          rw [State.happenings, isComplete, isStack]
        rw [same]
        exact recorded.proceed agrees isStack result
      next => cases stepped
  | task =>
      rw [State.step] at stepped
      split at stepped
      · cases stepped
        have started : Recorded p { s with control := .user } trace := recorded.silent rfl
        exact (List.append_nil trace).symm ▸ started
      · cases stepped
  | microtask =>
      rw [State.step] at stepped
      split at stepped
      next result job queue isComplete isIdle isQueue =>
        cases stepped
        have same : s.happenings .microtask = State.jobHappenings job := by
          rw [State.happenings, isQueue]
        rw [same]
        exact recorded.runJob agrees.live queue job
      next => cases stepped

end Recorded

theorem trace_cons {action : State.Action User} {next : State User} (stepped : s.step action = some next)
    (actions : List (State.Action User)) :
    s.trace (action :: actions) = s.happenings action ++ next.trace actions := by
  rw [State.trace, stepped]

theorem recorded_run (reachable : Reachable s) (recorded : Recorded p s trace)
    {actions : List (State.Action User)} (isRun : s.run actions = some later) :
    Recorded p later (trace ++ s.trace actions) := by
  induction actions generalizing s trace with
  | nil =>
      cases isRun
      exact (List.append_nil trace).symm ▸ recorded
  | cons action actions induction =>
      obtain ⟨next, stepped, isRest⟩ := Option.bind_eq_some_iff.mp isRun
      rw [trace_cons stepped, ← List.append_assoc]
      exact induction (reachable.step action stepped)
        (recorded.step (reachable.agrees p) stepped) isRest

end Recording

end FoundationsLab.Promises
