import FoundationsLab.Promises.Holders

/-! # The first call

The first call of the functions of a promise decides what becomes of it, in so far as no later
call finds the promise still pending. -/

namespace FoundationsLab.Promises

variable {User : Type}

/-! ## What the first call leads to -/

namespace Event

def calls (p : Nat) : Event User → Bool
  | called q _ _ => q = p
  | _ => false

def callsPending (p : Nat) : Event User → Bool
  | called q _ wasPending => q = p && wasPending
  | _ => false

end Event

/-- What has been decided of a promise: it follows the thenable of a guard, or will be or is
settled. -/
inductive Fate (User : Type) where
  | unresolved
  | reading (x : Value User)
  | following (guard : Nat)
  | settled (state : Status) (value : Value User)

namespace Fate

def resolvedWith (p : Nat) (x : Value User) : Fate User :=
  if x.isPromise p then .settled .rejected .typeError
  else if x.isObject then .reading x
  else .settled .fulfilled x

def ofCall (p : Nat) : Call User → Fate User
  | .resolve x => resolvedWith p x
  | .reject r => .settled .rejected r

/-- Only the first call counts, and then what it has started. -/
def after (p : Nat) (fate : Fate User) (event : Event User) : Fate User :=
  match fate with
  | .unresolved =>
      match event with
      | .called q call _ => if q = p then ofCall p call else .unresolved
      | _ => .unresolved
  | .reading x =>
      match event with
      | .unreadable q error => if q = p then .settled .rejected error else .reading x
      | .noThenable q => if q = p then .settled .fulfilled x else .reading x
      | .adopting q g => if q = p then .following g else .reading x
      | _ => .reading x
  | .following g =>
      match event with
      | .adopted h y => if h = g then resolvedWith p y else .following g
      | .refused h r => if h = g then .settled .rejected r else .following g
      | .threw h error => if h = g then .settled .rejected error else .following g
      | _ => .following g
  | .settled state value => .settled state value

end Fate

namespace Fate

section Others

variable {p : Nat}

theorem after_called {q : Nat} (fate : Fate User) (call : Call User) (wasPending : Bool)
    (different : q ≠ p) : fate.after p (.called q call wasPending) = fate := by
  cases fate with
  | unresolved => exact if_neg different
  | _ => rfl

theorem after_unreadable {q : Nat} (fate : Fate User) (error : Value User) (different : q ≠ p) :
    fate.after p (.unreadable q error) = fate := by
  cases fate with
  | reading x => exact if_neg different
  | _ => rfl

theorem after_noThenable {q : Nat} (fate : Fate User) (different : q ≠ p) :
    fate.after p (.noThenable q) = fate := by
  cases fate with
  | reading x => exact if_neg different
  | _ => rfl

theorem after_adopting {q : Nat} (fate : Fate User) (g : Nat) (different : q ≠ p) :
    fate.after p (.adopting q g) = fate := by
  cases fate with
  | reading x => exact if_neg different
  | _ => rfl

theorem after_adopted {fate : Fate User} {g : Nat} (y : Value User)
    (elsewhere : fate ≠ .following g) : fate.after p (.adopted g y) = fate := by
  cases fate with
  | following h => exact if_neg fun same => elsewhere (congrArg Fate.following same.symm)
  | _ => rfl

theorem after_refused {fate : Fate User} {g : Nat} (r : Value User)
    (elsewhere : fate ≠ .following g) : fate.after p (.refused g r) = fate := by
  cases fate with
  | following h => exact if_neg fun same => elsewhere (congrArg Fate.following same.symm)
  | _ => rfl

theorem after_threw {fate : Fate User} {g : Nat} (error : Value User)
    (elsewhere : fate ≠ .following g) : fate.after p (.threw g error) = fate := by
  cases fate with
  | following h => exact if_neg fun same => elsewhere (congrArg Fate.following same.symm)
  | _ => rfl

theorem after_registered (fate : Fate User) (q : Nat) (handler : Handler User) :
    fate.after p (.registered q handler) = fate := by
  cases fate with
  | _ => rfl

theorem after_ran (fate : Fate User) (job : Job User) : fate.after p (.ran job) = fate := by
  cases fate with
  | _ => rfl

end Others

end Fate

def fate (p : Nat) (log : List (Event User)) : Fate User := log.foldl (Fate.after p) .unresolved

/-- No call but the first finds the promise pending. -/
def Alone (p : Nat) (log : List (Event User)) : Prop :=
  log.Pairwise fun earlier later => earlier.calls p = true → later.callsPending p = false

instance (p : Nat) (log : List (Event User)) : Decidable (Alone p log) :=
  inferInstanceAs (Decidable (log.Pairwise _))

theorem fate_append (p : Nat) (log : List (Event User)) (event : Event User) :
    fate p (log ++ [event]) = (fate p log).after p event := List.foldl_append

/-- Other events leave it open. -/
theorem fate_of_uncalled {p : Nat} {log : List (Event User)}
    (uncalled : ∀ event ∈ log, event.calls p = false) : fate p log = .unresolved := by
  induction log with
  | nil => rfl
  | cons event log induction =>
      have stays : Fate.after p .unresolved event = .unresolved := by
        have notCalled := uncalled event List.mem_cons_self
        cases event with
        | called q call wasPending => exact if_neg (of_decide_eq_false notCalled)
        | _ => rfl
      rw [fate, List.foldl_cons, stays]
      exact induction fun event member => uncalled event (List.mem_cons_of_mem _ member)

theorem alone_append {p : Nat} {log : List (Event User)} {event : Event User}
    (alone : Alone p (log ++ [event])) :
    Alone p log ∧ (event.callsPending p = true → fate p log = .unresolved) := by
  obtain ⟨before, -, across⟩ := List.pairwise_append.mp alone
  refine ⟨before, fun isPending => fate_of_uncalled fun earlier member => ?_⟩
  cases isCall : earlier.calls p with
  | false => rfl
  | true =>
      have := across earlier member event (List.mem_singleton_self event) isCall
      cases this.symm.trans isPending

/-! ## The promise and its fate -/

/-- The values of which `then` is read for the promise. -/
def gettersOf (p : Nat) (stack : List (Frame User)) : List (Value User) :=
  stack.filterMap fun
    | .getter q x => if q = p then some x else none
    | _ => none

theorem gettersOf_cons {p : Nat} {frame : Frame User} (stack : List (Frame User))
    (notGetter : ∀ x, frame ≠ .getter p x) : gettersOf p (frame :: stack) = gettersOf p stack := by
  cases frame with
  | getter q x =>
      have different : q ≠ p := fun same => notGetter x (same ▸ rfl)
      exact List.filterMap_cons_none (if_neg different)
  | _ => rfl

theorem gettersOf_getter (p : Nat) (x : Value User) (stack : List (Frame User)) :
    gettersOf p (.getter p x :: stack) = x :: gettersOf p stack :=
  List.filterMap_cons_some (if_pos rfl)

/-- The guard may still be called for the promise. -/
def State.IsOpen (s : State User) (p g : Nat) : Prop :=
  ∃ guard, s.guards[g]? = some guard ∧ guard.promise = p ∧ guard.called = false

def Fits (s : State User) (p : Nat) : Fate User → Prop
  | .unresolved => (∀ promise, s.promises[p]? = some promise → promise.state = .pending) ∧
      gettersOf p s.stack = [] ∧ ∀ g, ¬ s.IsOpen p g
  | .reading x => s.isPending p = true ∧ gettersOf p s.stack = [x] ∧ ∀ g, ¬ s.IsOpen p g
  | .following g => s.isPending p = true ∧ gettersOf p s.stack = [] ∧
      ∀ h, s.IsOpen p h ↔ h = g
  | .settled state value => ∃ promise, s.promises[p]? = some promise ∧
      promise.state = state ∧ promise.value = value ∧ state ≠ .pending

def Agrees (p : Nat) (s : State User) : Prop := Alone p s.log → Fits s p (fate p s.log)

theorem isPending_iff {s : State User} {p : Nat} : s.isPending p = true ↔
    ∃ promise, s.promises[p]? = some promise ∧ promise.state = .pending := by
  rw [State.isPending, Option.any_eq_true]
  constructor
  · intro ⟨promise, isPromise, isPending⟩
    exact ⟨promise, isPromise, of_decide_eq_true isPending⟩
  · intro ⟨promise, isPromise, isPending⟩
    exact ⟨promise, isPromise, decide_eq_true isPending⟩

/-- A step that has nothing to do with the promise. -/
structure Ignores (p : Nat) (s later : State User) : Prop where
  kept : Kept s.promises later.promises
  sameState : ∀ promise', later.promises[p]? = some promise' → promise'.state = .pending ∨
    ∃ promise, s.promises[p]? = some promise ∧ promise'.state = promise.state
  sameGetters : gettersOf p later.stack = gettersOf p s.stack
  sameOpen : ∀ g, later.IsOpen p g ↔ s.IsOpen p g
  sameFate : fate p later.log = fate p s.log
  alone : Alone p later.log → Alone p s.log

section Ignoring

variable {p : Nat} {s middle later : State User}

theorem Fits.of_ignores {fate : Fate User} (fits : Fits s p fate) (ignores : Ignores p s later) :
    Fits later p fate := by
  have stillPending : s.isPending p = true → later.isPending p = true := by
    intro isPending
    obtain ⟨promise, isPromise, isPending⟩ := isPending_iff.mp isPending
    obtain ⟨promise', isPromise', -⟩ := ignores.kept p promise isPromise
    refine isPending_iff.mpr ⟨promise', isPromise', ?_⟩
    rcases ignores.sameState promise' isPromise' with isPending | ⟨other, isOther, same⟩
    · exact isPending
    · cases isPromise.symm.trans isOther
      exact same.trans isPending
  cases fate with
  | unresolved =>
      obtain ⟨waits, noGetter, noneOpen⟩ := fits
      refine ⟨fun promise' isPromise' => ?_, ignores.sameGetters.trans noGetter,
        fun g isOpen => noneOpen g ((ignores.sameOpen g).mp isOpen)⟩
      rcases ignores.sameState promise' isPromise' with isPending | ⟨other, isOther, same⟩
      · exact isPending
      · exact same.trans (waits other isOther)
  | reading x =>
      obtain ⟨isPending, isGetter, noneOpen⟩ := fits
      exact ⟨stillPending isPending, ignores.sameGetters.trans isGetter,
        fun g isOpen => noneOpen g ((ignores.sameOpen g).mp isOpen)⟩
  | following g =>
      obtain ⟨isPending, noGetter, opened⟩ := fits
      exact ⟨stillPending isPending, ignores.sameGetters.trans noGetter,
        fun h => (ignores.sameOpen h).trans (opened h)⟩
  | settled state value =>
      obtain ⟨promise, isPromise, isState, isValue, isOutcome⟩ := fits
      obtain ⟨promise', isPromise', -, sameOutcome⟩ := ignores.kept p promise isPromise
      obtain ⟨sameState, sameValue⟩ := sameOutcome (isState ▸ isOutcome)
      exact ⟨promise', isPromise', sameState.trans isState, sameValue.trans isValue, isOutcome⟩

theorem Ignores.agrees (ignores : Ignores p s later) (agrees : Agrees p s) : Agrees p later := by
  intro alone
  rw [ignores.sameFate]
  exact (agrees (ignores.alone alone)).of_ignores ignores

namespace Ignores

theorem refl (p : Nat) (s : State User) : Ignores p s s where
  kept := Kept.refl s.promises
  sameState promise' isPromise' := Or.inr ⟨promise', isPromise', rfl⟩
  sameGetters := rfl
  sameOpen _ := Iff.rfl
  sameFate := rfl
  alone := id

theorem trans (first : Ignores p s middle) (second : Ignores p middle later) :
    Ignores p s later where
  kept := first.kept.trans second.kept
  sameState promise'' isPromise'' := by
    rcases second.sameState promise'' isPromise'' with isPending | ⟨promise', isPromise', same⟩
    · exact Or.inl isPending
    · rcases first.sameState promise' isPromise' with isPending | ⟨promise, isPromise, same'⟩
      · exact Or.inl (same.trans isPending)
      · exact Or.inr ⟨promise, isPromise, same.trans same'⟩
  sameGetters := second.sameGetters.trans first.sameGetters
  sameOpen g := (second.sameOpen g).trans (first.sameOpen g)
  sameFate := second.sameFate.trans first.sameFate
  alone := first.alone ∘ second.alone

/-- Where control is, and the frames of other promises. -/
theorem of_heap (samePromises : later.promises = s.promises) (sameGuards : later.guards = s.guards)
    (sameGetters : gettersOf p later.stack = gettersOf p s.stack) (sameLog : later.log = s.log) :
    Ignores p s later where
  kept := samePromises ▸ Kept.refl s.promises
  sameState promise' isPromise' := Or.inr ⟨promise', samePromises ▸ isPromise', rfl⟩
  sameGetters := sameGetters
  sameOpen g := by rw [State.IsOpen, State.IsOpen, sameGuards]
  sameFate := by rw [sameLog]
  alone alone := by rwa [sameLog] at alone

theorem completeWith (ignores : Ignores p s later) (completion : Completion User) :
    Ignores p s (later.completeWith completion) := ignores.trans (of_heap rfl rfl rfl rfl)

theorem note (ignores : Ignores p s later) {event : Event User}
    (sameFate : (fate p later.log).after p event = fate p later.log) :
    Ignores p s (later.note event) := by
  apply ignores.trans
  constructor
  · exact Kept.refl later.promises
  · exact fun promise' isPromise' => Or.inr ⟨promise', isPromise', rfl⟩
  · rfl
  · exact fun g => Iff.rfl
  · exact (fate_append p later.log event).trans sameFate
  · exact fun alone => (alone_append alone).1

theorem settle (ignores : Ignores p s later) {q : Nat} {state : Status} (value : Value User)
    (isOutcome : state ≠ .pending) (different : q ≠ p) : Ignores p s (later.settle q state value) := by
  apply ignores.trans
  have samePromise : (later.settle q state value).promises[p]? = later.promises[p]? := by
    rw [State.settle]
    split
    · split
      · exact List.getElem?_set_ne different
      · rfl
    · rfl
  constructor
  · exact (evolves_settle later q value isOutcome).kept
  · exact fun promise' isPromise' => Or.inr ⟨promise', samePromise ▸ isPromise', rfl⟩
  · rw [settle_stack]
  · intro g
    rw [State.IsOpen, State.IsOpen, settle_guards]
  · rw [settle_log]
  · rw [settle_log]
    exact id

theorem push (ignores : Ignores p s later) (frame : Frame User)
    (notGetter : ∀ x, frame ≠ .getter p x) : Ignores p s (later.push frame) := by
  exact ignores.trans (of_heap rfl rfl (gettersOf_cons _ notGetter) rfl)

theorem markCalled (ignores : Ignores p s later) {g : Nat} (notOpen : ¬ later.IsOpen p g) :
    Ignores p s (later.markCalled g) := by
  apply ignores.trans
  constructor
  · exact Kept.refl later.promises
  · exact fun promise' isPromise' => Or.inr ⟨promise', isPromise', rfl⟩
  · rfl
  · intro h
    by_cases same : g = h
    · subst same
      refine ⟨fun ⟨guard, isGuard, _, isOpen⟩ => ?_, fun isOpen => absurd isOpen notOpen⟩
      cases isOpen.symm.trans (called_markCalled isGuard)
    · have sameGuard : (later.markCalled g).guards[h]? = later.guards[h]? :=
        List.getElem?_modify_ne _ _ same
      rw [State.IsOpen, State.IsOpen, sameGuard]
  · rfl
  · exact id

theorem guarded (ignores : Ignores p s later) (guard : Guard User) (different : guard.promise ≠ p) :
    Ignores p s { later with guards := later.guards ++ [guard] } := by
  apply ignores.trans
  constructor
  · exact Kept.refl later.promises
  · exact fun promise' isPromise' => Or.inr ⟨promise', isPromise', rfl⟩
  · rfl
  · intro g
    constructor
    · intro ⟨other, isOther, isPromise, isOpen⟩
      rcases getElem?_append_new isOther with isOther | ⟨-, rfl⟩
      · exact ⟨other, isOther, isPromise, isOpen⟩
      · exact absurd isPromise different
    · intro ⟨other, isOther, isPromise, isOpen⟩
      exact ⟨other, (List.getElem?_append_left (lt_of_getElem? isOther)).trans isOther, isPromise,
        isOpen⟩
  · rfl
  · exact id

theorem allocate (ignores : Ignores p s later) (exposed : Bool) :
    Ignores p s (later.allocate exposed) := by
  apply ignores.trans
  constructor
  · exact (evolves_allocate later exposed).kept
  · intro promise' isPromise'
    rcases getElem?_append_new isPromise' with isPromise' | ⟨-, rfl⟩
    · exact Or.inr ⟨promise', isPromise', rfl⟩
    · exact Or.inl rfl
  · rfl
  · exact fun g => Iff.rfl
  · rfl
  · exact id

theorem register (ignores : Ignores p s later) {q : Nat} {promise : Promise User}
    (handler : Handler User) (isPromise : later.promises[q]? = some promise) :
    Ignores p s (later.register q handler) := by
  apply ignores.trans
  by_cases isPending : promise.state = .pending
  · rw [register_of_pending isPromise isPending]
    constructor
    · exact kept_set _ isPromise rfl fun settled => absurd isPending settled
    · intro promise' isPromise'
      rcases getElem?_set_cases isPromise' with ⟨rfl, rfl⟩ | ⟨-, isPromise'⟩
      · exact Or.inl isPending
      · exact Or.inr ⟨promise', isPromise', rfl⟩
    · rfl
    · exact fun g => Iff.rfl
    · rfl
    · exact id
  · rw [register_of_settled isPromise isPending]
    exact of_heap rfl rfl rfl rfl

end Ignores

/-! ## The functions of the library -/

theorem resolvePromise_log (s : State User) (p : Nat) (x : Value User) :
    (s.resolvePromise p x).log = s.log := by
  rw [State.resolvePromise]
  split
  · exact settle_log s p .rejected .typeError
  · split
    · rfl
    · exact settle_log s p .fulfilled x

theorem Ignores.resolvePromise (ignores : Ignores p s later) {q : Nat} (x : Value User)
    (different : q ≠ p) : Ignores p s (later.resolvePromise q x) := by
  rw [State.resolvePromise]
  split
  · exact (ignores.settle .typeError Status.noConfusion different).completeWith .done
  · split
    · refine ignores.trans (Ignores.of_heap rfl rfl ?_ rfl)
      exact List.filterMap_cons_none (if_neg different)
    · exact (ignores.settle x Status.noConfusion different).completeWith .done

/-- A promise that has settled is not touched. -/
theorem fits_of_settled {state : Status} {value : Value User}
    (fits : Fits s p (.settled state value)) (evolves : Evolves s later) :
    Fits later p (.settled state value) := by
  obtain ⟨promise, isPromise, isState, isValue, isOutcome⟩ := fits
  obtain ⟨promise', isPromise', -, sameOutcome⟩ := evolves.kept p promise isPromise
  obtain ⟨sameState, sameValue⟩ := sameOutcome (isState ▸ isOutcome)
  exact ⟨promise', isPromise', sameState.trans isState, sameValue.trans isValue, isOutcome⟩

theorem fits_settle {state : Status} (value : Value User) (isPending : s.isPending p = true)
    (isOutcome : state ≠ .pending) : Fits (s.settle p state value) p (.settled state value) := by
  obtain ⟨promise, isPromise, isPending⟩ := isPending_iff.mp isPending
  rw [settle_of_pending isPromise isPending]
  exact ⟨_, List.getElem?_set_self (lt_of_getElem? isPromise), rfl, rfl, isOutcome⟩

/-- The resolution procedure starts what it is said to. -/
theorem fits_resolvePromise (x : Value User) (isPending : s.isPending p = true)
    (noGetter : gettersOf p s.stack = []) (noneOpen : ∀ g, ¬ s.IsOpen p g) :
    Fits (s.resolvePromise p x) p (.resolvedWith p x) := by
  rw [State.resolvePromise, Fate.resolvedWith]
  split
  · exact fits_settle .typeError isPending Status.noConfusion
  · split
    · refine ⟨isPending, ?_, noneOpen⟩
      exact (gettersOf_getter p x s.stack).trans (congrArg (x :: ·) noGetter)
    · exact fits_settle x isPending Status.noConfusion

/-- What has not settled is pending. -/
theorem settled_of_fits {fate : Fate User} (fits : Fits s p fate) (inside : p < s.promises.length)
    (notPending : s.isPending p = false) : ∃ state value, fate = .settled state value := by
  cases fate with
  | unresolved =>
      have isPromise := List.getElem?_eq_getElem inside
      cases notPending.symm.trans (isPending_iff.mpr ⟨_, isPromise, fits.1 _ isPromise⟩)
  | reading x => cases notPending.symm.trans fits.1
  | following g => cases notPending.symm.trans fits.1
  | settled state value => exact ⟨state, value, rfl⟩

theorem callsPending_self (p : Nat) (call : Call User) :
    (Event.called p call true).callsPending p = true := by
  rw [Event.callsPending, Bool.and_true]
  exact decide_eq_true rfl

theorem after_call (p : Nat) (call : Call User) (wasPending : Bool) :
    Fate.after p .unresolved (.called p call wasPending) = .ofCall p call := if_pos rfl

theorem callResolve_log (s : State User) (p : Nat) (x : Value User) :
    (s.callResolve p x).log = s.log ++ [.called p (.resolve x) (s.isPending p)] := by
  rw [State.callResolve]
  split
  · exact resolvePromise_log _ p x
  · rfl

theorem callReject_log (s : State User) (p : Nat) (r : Value User) :
    (s.callReject p r).log = s.log ++ [.called p (.reject r) (s.isPending p)] :=
  settle_log _ p .rejected r

theorem agrees_callResolve {q : Nat} (agrees : Agrees p s) (inside : q < s.promises.length)
    (x : Value User) : Agrees p (s.callResolve q x) := by
  by_cases same : q = p
  · subst same
    intro alone
    rw [callResolve_log] at alone ⊢
    rw [fate_append]
    obtain ⟨before, first⟩ := alone_append alone
    have fits := agrees before
    cases isPending : s.isPending q with
    | true =>
        rw [isPending] at first
        have unresolved := first (callsPending_self q _)
        rw [unresolved] at fits
        rw [unresolved, after_call, State.callResolve, isPending]
        exact fits_resolvePromise x isPending fits.2.1 fits.2.2
    | false =>
        obtain ⟨state, value, isSettled⟩ := settled_of_fits fits inside isPending
        rw [isSettled] at fits ⊢
        exact fits_of_settled fits (evolves_callResolve s q x)
  · have noted := (Ignores.refl p s).note
      (Fate.after_called _ (.resolve x) (s.isPending q) same)
    rw [State.callResolve]
    split
    · exact (noted.resolvePromise x same).agrees agrees
    · exact (noted.completeWith .done).agrees agrees

theorem agrees_callReject {q : Nat} (agrees : Agrees p s) (inside : q < s.promises.length)
    (r : Value User) : Agrees p (s.callReject q r) := by
  by_cases same : q = p
  · subst same
    intro alone
    rw [callReject_log] at alone ⊢
    rw [fate_append]
    obtain ⟨before, first⟩ := alone_append alone
    have fits := agrees before
    cases isPending : s.isPending q with
    | true =>
        rw [isPending] at first
        rw [first (callsPending_self q _), after_call]
        exact fits_settle r isPending Status.noConfusion
    | false =>
        obtain ⟨state, value, isSettled⟩ := settled_of_fits fits inside isPending
        rw [isSettled] at fits ⊢
        exact fits_of_settled fits (evolves_callReject s q r)
  · have noted := (Ignores.refl p s).note (Fate.after_called _ (.reject r) (s.isPending q) same)
    exact ((noted.settle r Status.noConfusion same).completeWith .done).agrees agrees

/-- The promise follows the guard that may be called, unless it has settled. -/
theorem fate_of_open {fate : Fate User} {g : Nat} (fits : Fits s p fate) (isOpen : s.IsOpen p g) :
    fate = .following g ∨ ∃ state value, fate = .settled state value := by
  cases fate with
  | unresolved => exact absurd isOpen (fits.2.2 g)
  | reading x => exact absurd isOpen (fits.2.2 g)
  | following h => exact Or.inl (congrArg Fate.following ((fits.2.2 g).mp isOpen).symm)
  | settled state value => exact Or.inr ⟨state, value, rfl⟩

theorem not_following {fate : Fate User} {g : Nat} (fits : Fits s p fate)
    (notOpen : ¬ s.IsOpen p g) : fate ≠ .following g := by
  intro same
  subst same
  exact notOpen ((fits.2.2 g).mpr rfl)

theorem isOpen_iff {guard : Guard User} {g : Nat} (isGuard : s.guards[g]? = some guard)
    (isOpen : guard.called = false) : s.IsOpen p g ↔ guard.promise = p := by
  constructor
  · intro ⟨other, isOther, isPromise, _⟩
    cases isGuard.symm.trans isOther
    exact isPromise
  · exact fun isPromise => ⟨guard, isGuard, isPromise, isOpen⟩

/-- A guard that has been called is not open, and the others are as they were. -/
theorem isOpen_markCalled {g h : Nat} :
    (s.markCalled g).IsOpen p h ↔ h ≠ g ∧ s.IsOpen p h := by
  by_cases same : g = h
  · subst same
    constructor
    · intro ⟨guard, isGuard, _, isOpen⟩
      cases isOpen.symm.trans (called_markCalled isGuard)
    · exact fun ⟨different, _⟩ => absurd rfl different
  · have sameGuard : (s.markCalled g).guards[h]? = s.guards[h]? :=
      List.getElem?_modify_ne _ _ same
    rw [State.IsOpen, State.IsOpen, sameGuard]
    exact ⟨fun isOpen => ⟨fun equal => same equal.symm, isOpen⟩, fun both => both.2⟩

/-- What a guard that has not been called starts: it matters to the promise that follows it, and
to no other, and no more to that one once it has settled. -/
theorem agrees_of_guard {g : Nat} {guard : Guard User} {event : Event User}
    (agrees : Agrees p s) (isGuard : s.guards[g]? = some guard) (isOpen : guard.called = false)
    (isLog : later.log = s.log ++ [event]) (evolves : Evolves s later)
    (elsewhere : guard.promise ≠ p → ¬ s.IsOpen p g → fate p s.log ≠ .following g →
      Ignores p s later)
    (resumed : guard.promise = p → Fits s p (.following g) →
      Fits later p (Fate.after p (.following g) event)) : Agrees p later := by
  intro alone
  rw [isLog] at alone
  obtain ⟨before, -⟩ := alone_append alone
  have fits := agrees before
  have opened := isOpen_iff (p := p) isGuard isOpen
  by_cases same : guard.promise = p
  · rw [isLog, fate_append]
    rcases fate_of_open fits (opened.mpr same) with following | ⟨state, value, settled⟩
    · rw [following] at fits ⊢
      exact resumed same fits
    · rw [settled] at fits ⊢
      exact fits_of_settled fits evolves
  · have notOpen : ¬ s.IsOpen p g := fun isOpen => same (opened.mp isOpen)
    exact (elsewhere same notOpen (not_following fits notOpen)).agrees agrees (isLog ▸ alone)

theorem after_adopted_self (p g : Nat) (y : Value User) :
    Fate.after p (.following g) (.adopted g y) = .resolvedWith p y := if_pos rfl

theorem after_refused_self (p g : Nat) (r : Value User) :
    Fate.after p (.following g) (.refused g r) = .settled .rejected r := if_pos rfl

theorem after_threw_self (p g : Nat) (error : Value User) :
    Fate.after p (.following g) (.threw g error) = .settled .rejected error := if_pos rfl

theorem agrees_callAdopt (agrees : Agrees p s) (g : Nat) (y : Value User) :
    Agrees p (s.callAdopt g y) := by
  rw [State.callAdopt]
  split
  next q subject native isGuard =>
    have noted := (evolves_markCalled s g).note (.adopted g y) rfl rfl
    refine agrees_of_guard agrees isGuard rfl (resolvePromise_log _ q y)
      (noted.trans (evolves_resolvePromise _ q y)) (fun different notOpen elsewhere => ?_)
      (fun same fits => ?_)
    · have ignores := ((Ignores.refl p s).markCalled notOpen).note (Fate.after_adopted y elsewhere)
      exact ignores.resolvePromise y different
    · dsimp only at same
      subst same
      rw [after_adopted_self]
      refine fits_resolvePromise y fits.1 fits.2.1 fun h isOpen => ?_
      obtain ⟨different, isOpen⟩ := isOpen_markCalled.mp isOpen
      exact different ((fits.2.2 h).mp isOpen)
  next => exact ((Ignores.refl p s).completeWith .done).agrees agrees

theorem agrees_callRefuse (agrees : Agrees p s) (g : Nat) (r : Value User) :
    Agrees p (s.callRefuse g r) := by
  rw [State.callRefuse]
  split
  next q subject native isGuard =>
    have noted := (evolves_markCalled s g).note (.refused g r) rfl rfl
    refine agrees_of_guard agrees isGuard rfl (settle_log _ q .rejected r)
      ((noted.trans (evolves_settle _ q r Status.noConfusion)).completeWith .done)
      (fun different notOpen elsewhere => ?_) (fun same fits => ?_)
    · have ignores := ((Ignores.refl p s).markCalled notOpen).note (Fate.after_refused r elsewhere)
      exact (ignores.settle r Status.noConfusion different).completeWith .done
    · dsimp only at same
      subst same
      rw [after_refused_self]
      exact fits_settle r fits.1 Status.noConfusion
  next => exact ((Ignores.refl p s).completeWith .done).agrees agrees

theorem agrees_afterAdoption (agrees : Agrees p s) (g : Nat) (result : Completion User) :
    Agrees p (s.afterAdoption g result) := by
  unfold State.afterAdoption
  split
  next error q subject native isGuard =>
    have noted := (Evolves.refl s).note (.threw g error) rfl rfl
    refine agrees_of_guard agrees isGuard rfl (settle_log _ q .rejected error)
      ((noted.trans (evolves_settle _ q error Status.noConfusion)).completeWith .done)
      (fun different _ elsewhere => ?_) (fun same fits => ?_)
    · have ignores := (Ignores.refl p s).note (Fate.after_threw error elsewhere)
      exact (ignores.settle error Status.noConfusion different).completeWith .done
    · dsimp only at same
      subst same
      rw [after_threw_self]
      exact fits_settle error fits.1 Status.noConfusion
  next => exact ((Ignores.refl p s).completeWith .done).agrees agrees

theorem ignores_callThen (p : Nat) (s : State User) (this onFulfilled onRejected : Value User) :
    Ignores p s (s.callThen this onFulfilled onRejected) := by
  have allocated := (Ignores.refl p s).allocate false
  rw [State.callThen]
  split
  next q isPromise =>
    obtain ⟨-, inside⟩ := lt_of_promiseOf isPromise
    have isOld := List.getElem?_eq_getElem ((evolves_allocate s false).grows.inside inside)
    have registered := allocated.register
      ⟨onFulfilled.asFunction, onRejected.asFunction, s.promises.length⟩ isOld
    exact (registered.note (Fate.after_registered _ q _)).completeWith _
  next => exact allocated.completeWith _

theorem agrees_enter (agrees : Agrees p s) {f : Function User} (this first second : Value User)
    (existing : ∀ q, f = .resolve q ∨ f = .reject q → q < s.promises.length) :
    Agrees p (s.enter f this first second) := by
  cases f with
  | user code => exact (Ignores.of_heap rfl rfl rfl rfl : Ignores p s _).agrees agrees
  | resolve q => exact agrees_callResolve agrees (existing q (Or.inl rfl)) first
  | reject q => exact agrees_callReject agrees (existing q (Or.inr rfl)) first
  | adopt g => exact agrees_callAdopt agrees g first
  | refuse g => exact agrees_callRefuse agrees g first
  | thenMethod => exact (ignores_callThen p s this first second).agrees agrees

/-- A function that user code knows belongs to a promise that exists. -/
theorem exists_of_knows {f : Function User} (isKnown : s.knows f = true) (q : Nat)
    (isFunction : f = .resolve q ∨ f = .reject q) : q < s.promises.length := by
  rcases isFunction with rfl | rfl
  · obtain ⟨promise, isPromise, -⟩ := (Option.any_eq_true _ _).mp isKnown
    exact lt_of_getElem? isPromise
  · obtain ⟨promise, isPromise, -⟩ := (Option.any_eq_true _ _).mp isKnown
    exact lt_of_getElem? isPromise

theorem agrees_construct (agrees : Agrees p s) {executor : Value User}
    (isKnown : s.knowsValue executor = true) : Agrees p (s.construct executor) := by
  have waiting : Ignores p s (s.push .user) := (Ignores.refl p s).push .user fun _ same => by
    cases same
  cases executor with
  | function f =>
      have allocated := (waiting.allocate true).push (.executor s.promises.length) fun _ same => by
        cases same
      have grows : Grows s (((s.push .user).allocate true).push (.executor s.promises.length)) :=
        ⟨(evolves_allocate s true).kept, KeptGuards.refl s.guards⟩
      exact agrees_enter (allocated.agrees agrees) _ _ _
        (exists_of_knows (grows.knows (show s.knows f = true from isKnown)))
  | _ => exact (waiting.completeWith _).agrees agrees

/-- While `then` is read for the promise, nothing else happens to it. -/
theorem reading_of_getter {fate : Fate User} {x : Value User} {stack : List (Frame User)}
    (fits : Fits s p fate) (isStack : s.stack = .getter p x :: stack) :
    (fate = .reading x ∧ gettersOf p stack = []) ∨ ∃ state value, fate = .settled state value := by
  have isGetter : gettersOf p s.stack = x :: gettersOf p stack := by
    rw [isStack, gettersOf_getter]
  cases fate with
  | unresolved => cases isGetter.symm.trans fits.2.1
  | reading y =>
      have same := isGetter.symm.trans fits.2.1
      obtain ⟨rfl, noGetter⟩ := List.cons.inj same
      exact Or.inl ⟨rfl, noGetter⟩
  | following g => cases isGetter.symm.trans fits.2.1
  | settled state value => exact Or.inr ⟨state, value, rfl⟩

theorem ignores_pop (frame : Frame User) {stack : List (Frame User)} (isStack : s.stack = frame :: stack)
    (notGetter : ∀ x, frame ≠ .getter p x) : Ignores p s { s with stack := stack } := by
  have sameGetters : gettersOf p stack = gettersOf p s.stack := by
    rw [isStack, gettersOf_cons _ notGetter]
  exact Ignores.of_heap rfl rfl sameGetters rfl

/-- The reading of `then` ends: the promise of the frame goes on, and the others do not. -/
theorem agrees_of_getter {q : Nat} {x : Value User} {stack : List (Frame User)} {event : Event User}
    (agrees : Agrees p s) (isStack : s.stack = .getter q x :: stack)
    (isLog : later.log = s.log ++ [event]) (evolves : Evolves { s with stack := stack } later)
    (elsewhere : q ≠ p → Ignores p { s with stack := stack } later)
    (resumed : q = p → s.isPending p = true → gettersOf p stack = [] → (∀ g, ¬ s.IsOpen p g) →
      Fits later p (Fate.after p (.reading x) event)) : Agrees p later := by
  by_cases same : q = p
  · subst same
    intro alone
    rw [isLog] at alone
    obtain ⟨before, -⟩ := alone_append alone
    have fits := agrees before
    rw [isLog, fate_append]
    rcases reading_of_getter fits isStack with ⟨reading, noGetter⟩ | ⟨state, value, settled⟩
    · rw [reading] at fits ⊢
      exact resumed rfl fits.1 noGetter fits.2.2
    · rw [settled] at fits ⊢
      exact fits_of_settled (show Fits { s with stack := stack } q (.settled state value) from fits)
        evolves
  · have popped := ignores_pop _ isStack fun y isGetter => same (Frame.getter.inj isGetter).1
    exact (popped.trans (elsewhere same)).agrees agrees

/-- The new guard is the one open guard of its promise. -/
theorem isOpen_guarded (guard : Guard User) (isOpen : guard.called = false)
    (noneOpen : ∀ g, ¬ s.IsOpen guard.promise g) (h : Nat) :
    { s with guards := s.guards ++ [guard] }.IsOpen guard.promise h ↔ h = s.guards.length := by
  constructor
  · intro ⟨other, isOther, isPromise, otherOpen⟩
    rcases getElem?_append_new isOther with isOther | ⟨isLast, -⟩
    · exact absurd ⟨other, isOther, isPromise, otherOpen⟩ (noneOpen h)
    · exact isLast
  · intro isLast
    subst isLast
    exact ⟨guard, List.getElem?_concat_length, rfl, isOpen⟩

theorem agrees_callThenable {q : Nat} {x : Value User} {f : Function User}
    {stack : List (Frame User)} (agrees : Agrees p s) (isStack : s.stack = .getter q x :: stack)
    (isKnown : s.knows f = true) : Agrees p ({ s with stack := stack }.callThenable q x f) := by
  let guard : Guard User := ⟨q, x, { s with stack := stack }.isNative f x, false⟩
  let adopting : State User := (({ s with stack := stack, guards := s.guards ++ [guard] }.note
    (.adopting q s.guards.length)).push (.adoption s.guards.length))
  have evolves : Evolves { s with stack := stack } adopting := by
    have guarded : Evolves { s with stack := stack }
        { s with stack := stack, guards := s.guards ++ [guard] } :=
      Evolves.of_heap rfl rfl (keptGuards_append s.guards guard) rfl rfl
    exact (guarded.note (.adopting q s.guards.length) rfl rfl).push _
  have grows : Grows s adopting := ⟨evolves.kept, evolves.keptGuards⟩
  have agreesThere : Agrees p adopting := by
    refine agrees_of_getter agrees isStack rfl evolves (fun different => ?_)
      (fun same isPending noGetter noneOpen => ?_)
    · have guarded := (Ignores.refl p { s with stack := stack }).guarded guard different
      exact (guarded.note (Fate.after_adopting _ _ different)).push _ fun _ same => by cases same
    · subst same
      have isFate : Fate.after q (.reading x) (.adopting q s.guards.length) =
          .following s.guards.length := if_pos rfl
      rw [isFate]
      exact ⟨isPending, noGetter, isOpen_guarded guard rfl noneOpen⟩
  exact agrees_enter agreesThere _ _ _ (exists_of_knows (grows.knows isKnown))

theorem agrees_afterRead {q : Nat} {x : Value User} {result : Completion User}
    {stack : List (Frame User)} (agrees : Agrees p s) (isStack : s.stack = .getter q x :: stack)
    (isKnown : s.knowsCompletion result = true) :
    Agrees p ({ s with stack := stack }.afterRead q x result) := by
  have unreadable : ∀ error, Agrees p ((({ s with stack := stack }.note
      (.unreadable q error)).settle q .rejected error).completeWith .done) := by
    intro error
    have noted := (Evolves.refl { s with stack := stack }).note (.unreadable q error) rfl rfl
    refine agrees_of_getter agrees isStack (settle_log _ q .rejected error)
      ((noted.trans (evolves_settle _ q error Status.noConfusion)).completeWith .done)
      (fun different => ?_) (fun same isPending _ _ => ?_)
    · have ignores := (Ignores.refl p { s with stack := stack }).note
        (Fate.after_unreadable _ error different)
      exact (ignores.settle error Status.noConfusion different).completeWith .done
    · subst same
      have isFate : Fate.after q (.reading x) (.unreadable q error) = .settled .rejected error :=
        if_pos rfl
      rw [isFate]
      exact fits_settle error isPending Status.noConfusion
  have noThenable : Agrees p ((({ s with stack := stack }.note
      (.noThenable q)).settle q .fulfilled x).completeWith .done) := by
    have noted := (Evolves.refl { s with stack := stack }).note (.noThenable q) rfl rfl
    refine agrees_of_getter agrees isStack (settle_log _ q .fulfilled x)
      ((noted.trans (evolves_settle _ q x Status.noConfusion)).completeWith .done)
      (fun different => ?_) (fun same isPending _ _ => ?_)
    · have ignores := (Ignores.refl p { s with stack := stack }).note
        (Fate.after_noThenable _ different)
      exact (ignores.settle x Status.noConfusion different).completeWith .done
    · subst same
      have isFate : Fate.after q (.reading x) (.noThenable q) = .settled .fulfilled x := if_pos rfl
      rw [isFate]
      exact fits_settle x isPending Status.noConfusion
  cases result with
  | thrown error => exact unreadable error
  | returned value =>
      cases value with
      | function f => exact agrees_callThenable agrees isStack isKnown
      | _ => exact noThenable

end Ignoring

/-! ## Steps -/

section Steps

variable {p : Nat} {s next : State User}

theorem agrees_proceed {frame : Frame User} {stack : List (Frame User)} {result : Completion User}
    (agrees : Agrees p s) (isStack : s.stack = frame :: stack) (grounded : Grounded s frame ∨
      ∃ g, frame = .adoption g) (isKnown : s.knowsCompletion result = true) :
    Agrees p ({ s with stack := stack }.proceed frame result) := by
  cases frame with
  | getter q x => exact agrees_afterRead agrees isStack isKnown
  | user =>
      have popped := ignores_pop (p := p) _ isStack fun _ same => by cases same
      exact (popped.trans (Ignores.of_heap rfl rfl rfl rfl)).agrees agrees
  | executor q =>
      have popped := (ignores_pop (p := p) _ isStack fun _ same => by cases same).agrees agrees
      cases result with
      | returned value => exact ((Ignores.refl p _).completeWith _).agrees popped
      | thrown error =>
          rcases grounded with inside | ⟨g, same⟩
          · have called := agrees_callReject popped (show q < s.promises.length from inside) error
            exact ((Ignores.refl p _).completeWith _).agrees called
          · cases same
  | adoption g =>
      have popped := (ignores_pop (p := p) _ isStack fun _ same => by cases same).agrees agrees
      exact agrees_afterAdoption popped g result
  | handling q =>
      have popped := (ignores_pop (p := p) _ isStack fun _ same => by cases same).agrees agrees
      rcases grounded with inside | ⟨g, same⟩
      · cases result with
        | returned value => exact agrees_callResolve popped (show q < s.promises.length from inside) value
        | thrown error => exact agrees_callReject popped (show q < s.promises.length from inside) error
      · cases same

theorem agrees_runJob {job : Job User} {queue : List (Job User)} (agrees : Agrees p s)
    (linked : Linked s) (isQueue : s.queue = job :: queue) :
    Agrees p ({ s with queue := queue }.runJob job) := by
  have pends : s.Pends job.promise job.handler :=
    Or.inr ⟨job, isQueue ▸ List.mem_cons_self, rfl, rfl⟩
  have older := linked.older _ _ pends
  have dequeued : Ignores p s { s with queue := queue } := Ignores.of_heap rfl rfl rfl rfl
  have noted := dequeued.note (Fate.after_ran _ job)
  have pushed := noted.push (.handling job.handler.next) fun _ same => by cases same
  rw [State.runJob]
  split
  next f isCallback =>
    apply agrees_enter (pushed.agrees agrees)
    intro q isFunction
    have isHeld : job.handler.onFulfilled = some f ∨ job.handler.onRejected = some f := by
      rw [Job.callback] at isCallback
      split at isCallback
      · exact Or.inl isCallback
      · exact Or.inr isCallback
    cases linked.held _ _ pends with
    | known fulfilled rejected =>
        have isKnown : s.knows f = true := by
          rcases isHeld with isHeld | isHeld
          · exact fulfilled f isHeld
          · exact rejected f isHeld
        exact exists_of_knows isKnown q isFunction
    | native g guard isGuard isNative subject fulfilled rejected =>
        exfalso
        rw [fulfilled, rejected] at isHeld
        rcases isFunction with rfl | rfl
        · rcases isHeld with isHeld | isHeld
          · cases isHeld
          · cases isHeld
        · rcases isHeld with isHeld | isHeld
          · cases isHeld
          · cases isHeld
  next =>
    split
    · exact agrees_callResolve (noted.agrees agrees) older _
    · exact agrees_callReject (noted.agrees agrees) older _

theorem agrees_step {action : State.Action User} (agrees : Agrees p s) (linked : IsLinked s)
    (stepped : s.step action = some next) : Agrees p next := by
  cases action with
  | construct executor =>
      rw [State.step] at stepped
      split at stepped
      · split at stepped
        next isKnown =>
          cases stepped
          exact agrees_construct agrees isKnown
        next => cases stepped
      · cases stepped
  | call f this first second =>
      rw [State.step] at stepped
      split at stepped
      · split at stepped
        next areKnown =>
          cases stepped
          simp only [Bool.and_eq_true] at areKnown
          have waiting : Ignores p s (s.push .user) := (Ignores.refl p s).push .user fun _ same => by
            cases same
          exact agrees_enter (waiting.agrees agrees) this first second
            (exists_of_knows (s := s) areKnown.1.1.1)
        next => cases stepped
      · cases stepped
  | finish completion =>
      rw [State.step] at stepped
      split at stepped
      · split at stepped
        · cases stepped
          exact ((Ignores.refl p s).completeWith completion).agrees agrees
        · cases stepped
      · cases stepped
  | proceed =>
      rw [State.step] at stepped
      split at stepped
      next result frame stack isComplete isStack =>
        cases stepped
        rcases linked with linked | ⟨g, rest, value, isAdoption, isReturned, linked⟩
        · exact agrees_proceed agrees isStack
            (Or.inl (linked.grounded frame (isStack ▸ List.mem_cons_self)))
            (linked.completed result isComplete)
        · cases isAdoption.symm.trans isStack
          exact agrees_proceed agrees isStack (Or.inr ⟨g, rfl⟩) (linked.completed result isComplete)
      next => cases stepped
  | task =>
      rw [State.step] at stepped
      split at stepped
      · cases stepped
        exact (Ignores.of_heap rfl rfl rfl rfl : Ignores p s _).agrees agrees
      · cases stepped
  | microtask =>
      rw [State.step] at stepped
      split at stepped
      next result job queue _ isIdle isQueue =>
        cases stepped
        rcases linked with linked | ⟨g, rest, value, isAdoption, -, -⟩
        · exact agrees_runJob agrees linked isQueue
        · cases isIdle.symm.trans isAdoption
      next => cases stepped

theorem Reachable.agrees (reachable : Reachable s) (p : Nat) : Agrees p s := by
  induction reachable with
  | initial =>
      intro _
      refine ⟨fun promise isPromise => ?_, rfl, fun g ⟨guard, isGuard, _⟩ => ?_⟩
      · cases isPromise
      · cases isGuard
  | step action before stepped induction => exact agrees_step induction before.isLinked stepped

end Steps

/-! ## The first call wins -/

/-- The promise shows what has been decided of it. -/
def Fate.Shows (fate : Fate User) (promise : Promise User) : Prop :=
  match fate with
  | .settled state value => promise.state = state ∧ promise.value = value
  | _ => promise.state = .pending

section Wins

variable {s : State User} {p : Nat}

theorem Fits.shows {fate : Fate User} (fits : Fits s p fate) {promise : Promise User}
    (isPromise : s.promises[p]? = some promise) : fate.Shows promise := by
  have pends : s.isPending p = true → promise.state = .pending := by
    intro isPending
    obtain ⟨other, isOther, isPending⟩ := isPending_iff.mp isPending
    cases isPromise.symm.trans isOther
    exact isPending
  cases fate with
  | unresolved => exact fits.1 promise isPromise
  | reading x => exact pends fits.1
  | following g => exact pends fits.1
  | settled state value =>
      obtain ⟨other, isOther, isState, isValue, -⟩ := fits
      cases isPromise.symm.trans isOther
      exact ⟨isState, isValue⟩

theorem settled_foldl (events : List (Event User)) (state : Status) (value : Value User) :
    events.foldl (Fate.after p) (.settled state value) = .settled state value := by
  induction events with
  | nil => rfl
  | cons event events induction => exact induction

/-- A promise that follows a guard goes on when the guard is called. -/
theorem following_cases (g : Nat) (events : List (Event User)) :
    events.foldl (Fate.after p) (.following g) = .following g ∨
      (∃ before y rest, events = before ++ .adopted g y :: rest ∧
        events.foldl (Fate.after p) (.following g) =
          rest.foldl (Fate.after p) (.resolvedWith p y)) ∨
      (∃ r, .refused g r ∈ events ∧
        events.foldl (Fate.after p) (.following g) = .settled .rejected r) ∨
      ∃ error, .threw g error ∈ events := by
  induction events with
  | nil => exact Or.inl rfl
  | cons event events induction =>
      by_cases stays : Fate.after p (.following g) event = .following g
      · rw [List.foldl_cons, stays]
        rcases induction with follows | ⟨before, y, rest, isEvents, adopts⟩ | ⟨r, member, refuses⟩ |
          ⟨error, member⟩
        · exact Or.inl follows
        · exact Or.inr (Or.inl ⟨event :: before, y, rest, congrArg (event :: ·) isEvents, adopts⟩)
        · exact Or.inr (Or.inr (Or.inl ⟨r, List.mem_cons_of_mem _ member, refuses⟩))
        · exact Or.inr (Or.inr (Or.inr ⟨error, List.mem_cons_of_mem _ member⟩))
      · rw [List.foldl_cons]
        cases event with
        | adopted h y =>
            by_cases same : h = g
            · subst same
              exact Or.inr (Or.inl ⟨[], y, events, rfl, by rw [after_adopted_self]⟩)
            · exact absurd (if_neg same) stays
        | refused h r =>
            by_cases same : h = g
            · subst same
              exact Or.inr (Or.inr (Or.inl ⟨r, List.mem_cons_self,
                by rw [after_refused_self, settled_foldl]⟩))
            · exact absurd (if_neg same) stays
        | threw h error =>
            by_cases same : h = g
            · subst same
              exact Or.inr (Or.inr (Or.inr ⟨error, List.mem_cons_self⟩))
            · exact absurd (if_neg same) stays
        | _ => exact absurd rfl stays

theorem Reachable.truthful (reachable : Reachable s) (event : Event User)
    (member : event ∈ s.log) : Truthful s event := by
  rcases reachable.isLinked with linked | ⟨g, stack, value, -, -, linked⟩
  · exact linked.truthful event member
  · have grows : Grows { s with stack := stack } s := Grows.of_same rfl rfl
    exact (linked.truthful event member).grow grows

/-- Once nothing is left to run, a promise that is followed is pending, or it has passed on its
outcome. -/
theorem followed_pending (reachable : Reachable s) {g q : Nat} {guard : Guard User}
    {subject : Promise User} (isGuard : s.guards[g]? = some guard) (isNative : guard.native = true)
    (isSubject : guard.subject = .promise q) (isPromise : s.promises[q]? = some subject)
    (noJob : s.queue = []) (isOpen : guard.called = false) : subject.state = .pending := by
  obtain ⟨r, handler, isSubject', pends, -⟩ := reachable.awaits g guard isGuard isNative isOpen
  cases isSubject.symm.trans isSubject'
  rcases pends with ⟨other, isOther, member⟩ | ⟨job, isJob, -⟩
  · cases isPromise.symm.trans isOther
    by_cases isPending : subject.state = .pending
    · exact isPending
    · rw [reachable.orderly.flushed q subject isPromise isPending] at member
      cases member
  · rw [noJob] at isJob
    cases isJob

/-- If no call of its functions but the first finds a promise pending, the promise shows what
the first call leads to; the other calls are ignored; and once the promise that it follows has
settled and nothing is left to run, it goes on with the outcome. -/
theorem first_call_wins (reachable : Reachable s) {promise : Promise User}
    (isPromise : s.promises[p]? = some promise) (alone : Alone p s.log) :
    (fate p s.log).Shows promise ∧
      (∀ call wasPending, fate p s.log ≠ .unresolved →
        fate p (s.log ++ [.called p call wasPending]) = fate p s.log) ∧
      ∀ before after g guard q subject, s.log = before ++ after → fate p before = .following g →
        s.guards[g]? = some guard → guard.native = true → guard.subject = .promise q →
        s.promises[q]? = some subject → s.queue = [] → subject.state ≠ .pending →
        (subject.state = .fulfilled ∧ ∃ rest, rest <:+ after ∧
          fate p s.log = rest.foldl (Fate.after p) (.resolvedWith p subject.value)) ∨
        (subject.state = .rejected ∧ fate p s.log = .settled .rejected subject.value) := by
  have fits := reachable.agrees p alone
  refine ⟨?_, ?_, ?_⟩
  · exact fits.shows isPromise
  · intro call wasPending resolved
    rw [fate_append]
    cases isFate : fate p s.log with
    | unresolved => exact absurd isFate resolved
    | _ => rfl
  · intro before after g guard q subject isLog follows isGuard isNative isSubject isPromise' noJob
      settled
    have isFate : fate p s.log = after.foldl (Fate.after p) (.following g) := by
      rw [isLog, fate, List.foldl_append]
      exact congrArg (fun start => after.foldl (Fate.after p) start) follows
    rcases following_cases g after with stays | ⟨first, y, rest, isAfter, adopts⟩ |
      ⟨r, member, refuses⟩ | ⟨error, member⟩
    · -- The guard is still open, and its handler would have to wait.
      rw [isFate, stays] at fits
      obtain ⟨other, isOther, -, isOpen⟩ := (fits.2.2 g).mpr rfl
      cases isGuard.symm.trans isOther
      exact absurd (followed_pending reachable isGuard isNative isSubject isPromise' noJob isOpen)
        settled
    · have member : .adopted g y ∈ s.log := by
        rw [isLog, isAfter]
        exact List.mem_append_right _ (List.mem_append_right _ List.mem_cons_self)
      obtain ⟨other, isOther, outcome⟩ := reachable.truthful _ member
      cases isGuard.symm.trans isOther
      obtain ⟨q', subject', isSubject', isPromise'', isState, isValue⟩ := outcome isNative
      cases isSubject.symm.trans isSubject'
      cases isPromise'.symm.trans isPromise''
      refine Or.inl ⟨isState, rest, ?_, ?_⟩
      · rw [isAfter]
        exact (List.suffix_cons _ _).trans (List.suffix_append _ _)
      · rw [isFate, adopts, isValue]
    · have member : .refused g r ∈ s.log := isLog ▸ List.mem_append_right _ member
      obtain ⟨other, isOther, outcome⟩ := reachable.truthful _ member
      cases isGuard.symm.trans isOther
      obtain ⟨q', subject', isSubject', isPromise'', isState, isValue⟩ := outcome isNative
      cases isSubject.symm.trans isSubject'
      cases isPromise'.symm.trans isPromise''
      exact Or.inr ⟨isState, by rw [isFate, refuses, isValue]⟩
    · have member : .threw g error ∈ s.log := isLog ▸ List.mem_append_right _ member
      obtain ⟨other, isOther, isForeign⟩ := reachable.truthful _ member
      cases isGuard.symm.trans isOther
      cases isForeign.symm.trans isNative

/-- Promise 0 is resolved with the pending promise 1. -/
def resolvedWithPending : List (State.Action Nat) :=
  [.task, .construct (.function (.user 0)), .finish .done, .proceed, .proceed,
    .construct (.function (.user 0)), .finish .done, .proceed, .proceed,
    .call (.resolve 0) .undefined (.promise 1) .undefined,
    .finish (.returned (.function .thenMethod)), .proceed, .proceed, .proceed]

/-- Then promise 1 is fulfilled, and the microtasks are run. -/
theorem first_call_wins_pending :
    ∃ s, State.initial.run (resolvedWithPending ++
        [.call (.resolve 1) .undefined (.primitive 5) .undefined, .proceed, .finish .done,
          .microtask, .proceed]) = some s ∧
      (fate 0 s.log).Shows ⟨.fulfilled, .primitive 5, [], true⟩ :=
  ⟨_, rfl, (first_call_wins (Reachable.initial.run (show State.initial.run (resolvedWithPending ++
        [.call (.resolve 1) .undefined (.primitive 5) .undefined, .proceed, .finish .done,
          .microtask, .proceed]) = some _ from rfl)) rfl (by decide)).1⟩

/-- A second call overtakes the promise that is followed. -/
theorem second_call_wins :
    ∃ s, Reachable s ∧ State.initial.run (resolvedWithPending ++
        [.call (.resolve 0) .undefined (.primitive 2) .undefined]) = some s ∧
      fate 0 s.log = .following 0 ∧ s.promises[0]? = some ⟨.fulfilled, .primitive 2, [], true⟩ ∧
      ¬ (fate 0 s.log).Shows ⟨.fulfilled, .primitive 2, [], true⟩ := by
  refine ⟨_, ?_, rfl, rfl, rfl, ?_⟩
  · exact Reachable.initial.run (show State.initial.run (resolvedWithPending ++
      [.call (.resolve 0) .undefined (.primitive 2) .undefined]) = some _ from rfl)
  · intro shows
    cases shows

end Wins

end FoundationsLab.Promises
