import FoundationsLab.Promises.All
import FoundationsLab.Promises.FirstCall

/-! # The inputs of `APromise.all`

Which handlers belong to the call, and what the moves of the program leave alone. -/

namespace FoundationsLab.Promises

/-! ## What is seen of a promise -/

section Views

variable {User : Type} {s : State User} {p q : Nat} {state : Status} {value : Value User}

/-- Handlers that are registered with a promise do not change what is seen of it. -/
def State.view (s : State User) (p : Nat) : Option (Status × Value User × Bool) :=
  s.promises[p]?.map fun promise => (promise.state, promise.value, promise.exposed)

theorem view_of_same {later : State User} (same : later.promises = s.promises) :
    later.view p = s.view p := by
  rw [State.view, State.view, same]

theorem view_settle_ne (different : q ≠ p) : (s.settle q state value).view p = s.view p := by
  by_cases isPending : ∃ promise, s.promises[q]? = some promise ∧ promise.state = .pending
  · obtain ⟨promise, isPromise, isPending⟩ := isPending
    rw [settle_of_pending isPromise isPending, State.view, State.view,
      List.getElem?_set_ne different]
  · rw [settle_of_settled fun promise isPromise pending => isPending ⟨promise, isPromise, pending⟩]

theorem view_settle_pending {seen : Value User} {exposed : Bool}
    (isSeen : s.view p = some (.pending, seen, exposed)) :
    (s.settle p state value).view p = some (state, value, exposed) := by
  rw [State.view] at isSeen
  obtain ⟨promise, isPromise, same⟩ := Option.map_eq_some_iff.mp isSeen
  have isPending := congrArg Prod.fst same
  have sameExposed := congrArg (fun seen => seen.2.2) same
  rw [settle_of_pending isPromise isPending, State.view,
    List.getElem?_set_self (lt_of_getElem? isPromise)]
  exact congrArg (fun exposed => some (state, value, exposed)) sameExposed

theorem view_settle_settled {seen : Value User} {old : Status} {exposed : Bool}
    (isSeen : s.view p = some (old, seen, exposed)) (settled : old ≠ .pending) :
    (s.settle p state value).view p = some (old, seen, exposed) := by
  have notPending : ∀ promise, s.promises[p]? = some promise → promise.state ≠ .pending := by
    intro promise isPromise
    rw [State.view, isPromise] at isSeen
    cases isSeen
    exact settled
  rw [settle_of_settled notPending]
  exact isSeen

theorem view_allocate {seen : Status × Value User × Bool} (isSeen : s.view p = some seen)
    (exposed : Bool) : (s.allocate exposed).view p = some seen := by
  rw [State.view] at isSeen
  obtain ⟨promise, isPromise, same⟩ := Option.map_eq_some_iff.mp isSeen
  rw [State.view, State.allocate, List.getElem?_append_left (lt_of_getElem? isPromise), isPromise]
  exact congrArg some same

theorem view_register (handler : Handler User) : (s.register q handler).view p = s.view p := by
  rw [State.register]
  split
  next promise isPromise =>
    split
    · by_cases same : q = p
      · subst same
        rw [State.view, State.view, List.getElem?_set_self (lt_of_getElem? isPromise), isPromise]
        rfl
      · rw [State.view, State.view, List.getElem?_set_ne same]
    · rfl
  · rfl

theorem view_callThen {seen : Status × Value User × Bool} (isSeen : s.view p = some seen)
    (this onFulfilled onRejected : Value User) :
    (s.callThen this onFulfilled onRejected).view p = some seen := by
  rw [State.callThen]
  split
  next q isPromise =>
    exact (view_register (s := s.allocate false) _).trans (view_allocate isSeen false)
  next => exact view_allocate isSeen false

theorem settle_promises {later : State User} (same : later.promises = s.promises) :
    (later.settle p state value).promises = (s.settle p state value).promises := by
  rw [State.settle, State.settle, same]
  split
  · split
    · rfl
    · exact same
  · exact same

theorem view_callReject (r : Value User) :
    (s.callReject q r).view p = (s.settle q .rejected r).view p := by
  apply view_of_same
  have same : (s.note (.called q (.reject r) (s.isPending q))).promises = s.promises := rfl
  exact settle_promises same

theorem view_callResolve {x : Value User} (primitive : x.isObject = false) (different : q ≠ p) :
    (s.callResolve q x).view p = s.view p := by
  rw [State.callResolve]
  split
  · rw [State.resolvePromise]
    split
    · exact view_settle_ne (s := s.note _) different
    · rw [if_neg (Bool.eq_false_iff.mp primitive)]
      exact view_settle_ne (s := s.note _) different
  · rfl

end Views

/-! ## An array resolves a promise -/

section Arrays

variable {User : Type} {s : State (Code User)} {p q : Nat} {code : Code User}

theorem resolveArray_pending (isPending : s.isPending p = true) :
    s.resolveArray p (.object code) =
      (({ s.note (.called p (.resolve (.object code)) true) with control := .user }.note
        (.noThenable p)).settle p .fulfilled (.object code)).completeWith .done := by
  rw [State.resolveArray, if_pos isPending, State.callResolve, isPending]
  rfl

theorem resolveArray_settled (notPending : s.isPending p = false) :
    s.resolveArray p (.object code) =
      (s.note (.called p (.resolve (.object code)) false)).completeWith .done := by
  rw [State.resolveArray, State.callResolve, notPending]
  rfl

theorem view_resolveArray :
    (s.resolveArray p (.object code)).view p = (s.settle p .fulfilled (.object code)).view p := by
  cases isPending : s.isPending p with
  | true =>
      rw [resolveArray_pending isPending]
      apply view_of_same
      exact settle_promises rfl
  | false =>
      rw [resolveArray_settled isPending]
      have notPending : ∀ promise, s.promises[p]? = some promise → promise.state ≠ .pending := by
        intro promise isPromise pending
        cases isPending.symm.trans (isPending_iff.mpr ⟨promise, isPromise, pending⟩)
      rw [settle_of_settled notPending]
      rfl

theorem evolves_resolveArray : Evolves s (s.resolveArray p (.object code)) := by
  cases isPending : s.isPending p with
  | true =>
      rw [resolveArray_pending isPending]
      have called := (Evolves.refl s).note (.called p (.resolve (.object code)) true) rfl rfl
      have reading : Evolves s
          { s.note (.called p (.resolve (.object code)) true) with control := .user } :=
        called.trans (Evolves.of_heap rfl rfl (KeptGuards.refl s.guards) rfl rfl)
      have noted := reading.note (.noThenable p) rfl rfl
      exact (noted.trans (evolves_settle _ p _ Status.noConfusion)).completeWith .done
  | false =>
      rw [resolveArray_settled isPending]
      have called := (Evolves.refl s).note (.called p (.resolve (.object code)) false) rfl rfl
      exact called.completeWith .done

end Arrays

/-! ## The handlers of the call -/

section Handlers

variable {User : Type}

theorem registrations_note (log : List (Event User)) {event : Event User}
    (noRegistration : event.registration = none) :
    registrations (log ++ [event]) = registrations log := by
  rw [registrations, List.filterMap_append, List.filterMap_cons_none noRegistration]
  exact List.append_nil _

theorem registrations_callReject (s : State User) (p : Nat) (r : Value User) :
    registrations (s.callReject p r).log = registrations s.log := by
  rw [callReject_log]
  exact registrations_note _ rfl

theorem registrations_callResolve (s : State User) (p : Nat) (x : Value User) :
    registrations (s.callResolve p x).log = registrations s.log := by
  rw [callResolve_log]
  exact registrations_note _ rfl

theorem registrations_resolveArray (s : State (Code User)) (p : Nat) (code : Code User) :
    registrations (s.resolveArray p (.object code)).log = registrations s.log := by
  cases isPending : s.isPending p with
  | true =>
      rw [resolveArray_pending isPending]
      show registrations (State.settle _ p .fulfilled (.object code)).log = _
      rw [settle_log]
      exact (registrations_note _ rfl).trans (registrations_note _ rfl)
  | false =>
      rw [resolveArray_settled isPending]
      exact registrations_note _ rfl

/-- A call of `then` on a promise is noted, with the functions that it got. -/
theorem registrations_callThen (s : State User) (this onFulfilled onRejected : Value User) :
    registrations (s.callThen this onFulfilled onRejected).log = registrations s.log ∨
      ∃ p, this = .promise p ∧ registrations (s.callThen this onFulfilled onRejected).log =
        registrations s.log ++
          [(p, ⟨onFulfilled.asFunction, onRejected.asFunction, s.promises.length⟩)] := by
  rw [State.callThen]
  split
  next p isPromise =>
    obtain ⟨isThis, -⟩ := lt_of_promiseOf isPromise
    refine Or.inr ⟨p, isThis, ?_⟩
    have sameLog := register_log (s.allocate false) p
      ⟨onFulfilled.asFunction, onRejected.asFunction, s.promises.length⟩
    show registrations (_ ++ [_]) = _
    rw [sameLog, registrations_registered]
    rfl
  next => exact Or.inl rfl

/-- The item whose callback a handler has. -/
def elementOf (handler : Handler (Code User)) : Option Nat :=
  match handler.onFulfilled with
  | some (.user (.element i)) => some i
  | _ => none

/-- The promise and the item of a handler of the call. -/
def ownRegistration (registration : Nat × Handler (Code User)) : Option (Nat × Nat) :=
  (elementOf registration.2).map fun i => (registration.1, i)

def ownRegistrations (log : List (Event (Code User))) : List (Nat × Nat) :=
  (registrations log).filterMap ownRegistration

theorem elementOf_eq {handler : Handler (Code User)} {i : Nat} :
    elementOf handler = some i ↔ handler.onFulfilled = some (.user (.element i)) := by
  rw [elementOf]
  split
  next j isElement =>
    constructor
    · intro same
      cases same
      exact isElement
    · intro same
      cases isElement.symm.trans same
      rfl
  next notElement =>
    constructor
    · intro same
      cases same
    · intro isElement
      exact absurd isElement (notElement i)

theorem eq_of_nodup_filterMap {Source Image : Type} {sources : List Source}
    {image : Source → Option Image} (nodup : (sources.filterMap image).Nodup) {first second : Source}
    {target : Image} (isFirst : first ∈ sources) (isSecond : second ∈ sources)
    (firstImage : image first = some target) (secondImage : image second = some target) :
    first = second := by
  induction sources with
  | nil => cases isFirst
  | cons head tail induction =>
      have notTwice : ∀ other ∈ tail, image head = some target → image other ≠ some target := by
        intro other member headImage otherImage
        rw [List.filterMap_cons_some headImage] at nodup
        exact (List.nodup_cons.mp nodup).1 (List.mem_filterMap.mpr ⟨other, member, otherImage⟩)
      rcases List.mem_cons.mp isFirst with firstHere | firstThere
      · rcases List.mem_cons.mp isSecond with secondHere | secondThere
        · exact firstHere.trans secondHere.symm
        · subst firstHere
          exact absurd secondImage (notTwice second secondThere firstImage)
      · rcases List.mem_cons.mp isSecond with secondHere | secondThere
        · subst secondHere
          exact absurd firstImage (notTwice first firstThere secondImage)
        · apply induction ?_ firstThere secondThere
          cases headImage : image head with
          | none =>
              rw [List.filterMap_cons_none headImage] at nodup
              exact nodup
          | some other =>
              rw [List.filterMap_cons_some headImage] at nodup
              exact (List.nodup_cons.mp nodup).2

end Handlers

end FoundationsLab.Promises
