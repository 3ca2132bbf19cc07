import Mathlib.Data.List.Induction
import FoundationsLab.Promises.Happenings

/-! # The resolution procedure

A promise that is resolved once becomes what the rules make of it, whatever the thenables do. -/

namespace FoundationsLab.Promises

variable {User : Type}

/-! ## The calls of `then` are numbered -/

structure Numbered (s : State User) (trace : List (Happening User)) : Prop where
  below : ∀ happening ∈ trace, ∀ g, happening.opens g = true → g < s.guards.length
  once : trace.Pairwise fun earlier later => ∀ g, earlier.opens g = true → later.opens g = false

section Numbers

variable {s next later : State User}

theorem KeptGuards.length_le {guards guards' : List (Guard User)} (kept : KeptGuards guards guards') :
    guards.length ≤ guards'.length := by
  apply Nat.le_of_not_lt
  intro shorter
  obtain ⟨guard, isGuard, -⟩ := kept guards'.length _ (List.getElem?_eq_getElem shorter)
  exact Nat.lt_irrefl _ (lt_of_getElem? isGuard)

theorem step_guards {action : State.Action User} (stepped : s.step action = some next) :
    s.guards.length ≤ next.guards.length := by
  rcases step_cases stepped with evolves | ⟨result, job, queue, -, -, -, -, rfl⟩
  · exact evolves.keptGuards.length_le
  · exact (evolves_runJob { s with queue := queue } job).keptGuards.length_le

theorem ofEnter_opens (f : Function User) (first : Value User) :
    ∀ happening ∈ Happening.ofEnter f first, ∀ g, happening.opens g = false := by
  intro happening member g
  cases f with
  | user code => cases member
  | thenMethod => cases member
  | _ =>
      cases List.mem_singleton.mp member
      rfl

theorem callThenable_guards (s : State User) (p : Nat) (x : Value User) (f : Function User) :
    s.guards.length < (s.callThenable p x f).guards.length := by
  have kept := (evolves_enter (((({ s with
    guards := s.guards ++ [⟨p, x, s.isNative f x, false⟩] } : State User).note
    (.adopting p s.guards.length)).push (.adoption s.guards.length))) f x
    (.function (.adopt s.guards.length)) (.function (.refuse s.guards.length))).keptGuards.length_le
  have longer : s.guards.length < (s.guards ++ [(⟨p, x, s.isNative f x, false⟩ : Guard User)]).length := by
    rw [List.length_append, List.length_singleton]
    omega
  exact Nat.lt_of_lt_of_le longer kept

/-- A step begins no call of a `then`, or first the one with the next number. -/
def Opening (s next : State User) (seen : List (Happening User)) : Prop :=
  (∀ happening ∈ seen, ∀ g, happening.opens g = false) ∨
    ∃ happening rest, seen = happening :: rest ∧ (∀ g, happening.opens g = true → g = s.guards.length) ∧
      (∀ other ∈ rest, ∀ g, other.opens g = false) ∧ s.guards.length < next.guards.length

theorem opening_read (s : State User) (stack : List (Frame User)) (p : Nat) (x : Value User)
    (result : Completion User) :
    Opening s ({ s with stack := stack }.afterRead p x result) (s.readHappenings p x result) := by
  cases result with
  | thrown error =>
      apply Or.inl
      intro happening member g
      cases List.mem_singleton.mp member
      rfl
  | returned value =>
      cases value with
      | function f =>
          refine Or.inr ⟨_, _, rfl, ?_, ofEnter_opens f _, ?_⟩
          · intro g opens
            exact (of_decide_eq_true opens).symm
          · exact callThenable_guards { s with stack := stack } p x f
      | _ =>
          apply Or.inl
          intro happening member g
          cases List.mem_singleton.mp member
          rfl

theorem opening_singleton {happening : Happening User} (notOpening : ∀ g, happening.opens g = false) :
    Opening s next [happening] := by
  apply Or.inl
  intro other member
  cases List.mem_singleton.mp member
  exact notOpening

theorem opening_nil : Opening s next [] := by
  apply Or.inl
  intro happening member
  cases member

theorem opening_proceed (s : State User) (stack : List (Frame User)) (frame : Frame User)
    (result : Completion User) :
    Opening s ({ s with stack := stack }.proceed frame result) (s.proceedHappenings frame result) := by
  cases frame with
  | user => exact opening_nil
  | getter p x => exact opening_read s stack p x result
  | adoption g => exact opening_singleton fun _ => rfl
  | executor p =>
      cases result with
      | thrown error => exact opening_singleton fun _ => rfl
      | returned value => exact opening_nil
  | handling p =>
      cases result with
      | thrown error => exact opening_singleton fun _ => rfl
      | returned value => exact opening_singleton fun _ => rfl

theorem opening_step {action : State.Action User} (stepped : s.step action = some next) :
    Opening s next (s.happenings action) := by
  cases action with
  | construct executor =>
      cases executor with
      | function f => exact Or.inl (ofEnter_opens f _)
      | _ => exact opening_nil
  | call f this first second => exact Or.inl (ofEnter_opens f first)
  | finish completion => exact opening_nil
  | task => exact opening_nil
  | proceed =>
      rw [State.step] at stepped
      split at stepped
      next result frame stack isComplete isStack =>
        cases stepped
        have same : s.happenings .proceed = s.proceedHappenings frame result := by
          rw [State.happenings, isComplete, isStack]
        rw [same]
        exact opening_proceed s stack frame result
      next => cases stepped
  | microtask =>
      rw [State.happenings]
      cases s.queue with
      | nil => exact opening_nil
      | cons job queue =>
          dsimp only
          rw [State.jobHappenings]
          cases job.callback with
          | some f => exact Or.inl (ofEnter_opens f _)
          | none =>
              dsimp only
              split
              · exact opening_singleton fun _ => rfl
              · exact opening_singleton fun _ => rfl

theorem Numbered.step {trace : List (Happening User)} (numbered : Numbered s trace)
    {action : State.Action User} (stepped : s.step action = some next) :
    Numbered next (trace ++ s.happenings action) := by
  have grows := step_guards stepped
  rcases opening_step stepped with silent | ⟨first, rest, isSeen, isNext, silent, longer⟩
  · constructor
    · intro happening member g opens
      rcases List.mem_append.mp member with old | new
      · exact Nat.lt_of_lt_of_le (numbered.below happening old g opens) grows
      · cases (silent happening new g).symm.trans opens
    · apply List.pairwise_append.mpr
      refine ⟨numbered.once, ?_, ?_⟩
      · apply List.Pairwise.imp_of_mem ?_ (List.pairwise_of_forall fun _ _ => trivial)
        intro earlier later member _ _ g opens
        cases (silent earlier member g).symm.trans opens
      · intro earlier _ later member g _
        exact silent later member g
  · rw [isSeen]
    constructor
    · intro happening member g opens
      rcases List.mem_append.mp member with old | new
      · exact Nat.lt_of_lt_of_le (numbered.below happening old g opens) grows
      · rcases List.mem_cons.mp new with isFirst | inRest
        · subst isFirst
          exact isNext g opens ▸ longer
        · cases (silent happening inRest g).symm.trans opens
    · apply List.pairwise_append.mpr
      refine ⟨numbered.once, List.pairwise_cons.mpr ⟨?_, ?_⟩, ?_⟩
      · intro later member g _
        exact silent later member g
      · apply List.Pairwise.imp_of_mem ?_ (List.pairwise_of_forall fun _ _ => trivial)
        intro earlier later member _ _ g opens
        cases (silent earlier member g).symm.trans opens
      · intro earlier old later new g opens
        rcases List.mem_cons.mp new with isFirst | inRest
        · subst isFirst
          apply Bool.eq_false_iff.mpr
          intro again
          have below := numbered.below earlier old g opens
          rw [isNext g again] at below
          exact Nat.lt_irrefl _ below
        · exact silent later inRest g

theorem Numbered.run {trace : List (Happening User)} (numbered : Numbered s trace)
    {actions : List (State.Action User)} (isRun : s.run actions = some later) :
    Numbered later (trace ++ s.trace actions) := by
  induction actions generalizing s trace with
  | nil =>
      cases isRun
      exact (List.append_nil trace).symm ▸ numbered
  | cons action actions induction =>
      obtain ⟨next, stepped, isRest⟩ := Option.bind_eq_some_iff.mp isRun
      rw [trace_cons stepped, ← List.append_assoc]
      exact induction (numbered.step stepped) isRest

end Numbers

/-! ## What the rules allow -/

section Rules

variable {p g : Nat} {happening : Happening User}

theorem ofCall_ne_following (p g : Nat) (call : Call User) : Fate.ofCall p call ≠ .following g := by
  intro follows
  cases call with
  | reject r => cases follows
  | resolve x =>
      rw [Fate.ofCall, Fate.resolvedWith] at follows
      split at follows
      · cases follows
      · split at follows
        · cases follows
        · cases follows

/-- Only a `then` that is a function is followed. -/
theorem next_following {fate : Fate User} (follows : fate.next p happening = .following g) :
    fate = .following g ∨ happening.opens g = true := by
  cases fate with
  | settled state value => cases follows
  | unresolved =>
      cases happening with
      | called q call =>
          rw [Fate.next] at follows
          split at follows
          · exact absurd follows (ofCall_ne_following p g call)
          · cases follows
      | _ => cases follows
  | following h =>
      cases happening with
      | callback level call =>
          rw [Fate.next] at follows
          split at follows
          · exact absurd follows (ofCall_ne_following p g call)
          · exact Or.inl follows
      | finished level result =>
          cases result with
          | returned value => exact Or.inl follows
          | thrown error =>
              rw [Fate.next] at follows
              split at follows
              · cases follows
              · exact Or.inl follows
      | _ => exact Or.inl follows
  | reading x =>
      cases happening with
      | read q y result level =>
          rw [Fate.next] at follows
          split at follows
          · cases result with
            | thrown error => cases follows
            | returned value =>
                cases value with
                | function f =>
                    cases follows
                    exact Or.inr (decide_eq_true rfl)
                | _ => cases follows
          · cases follows
      | _ => cases follows

theorem foldl_following {events : List (Happening User)} {start : Fate User}
    (follows : events.foldl (Fate.next p) start = .following g) :
    start = .following g ∨ ∃ happening ∈ events, happening.opens g = true := by
  induction events generalizing start with
  | nil => exact Or.inl follows
  | cons event events induction =>
      rcases induction follows with follows | ⟨happening, member, opens⟩
      · rcases next_following follows with follows | opens
        · exact Or.inl follows
        · exact Or.inr ⟨event, List.mem_cons_self, opens⟩
      · exact Or.inr ⟨happening, List.mem_cons_of_mem _ member, opens⟩

/-- The first callback or throw of the thenable is what the promise waits for. -/
theorem next_concerns (concerns : happening.concerns g = true) :
    Fate.next p (.following g) happening ≠ .following g := by
  cases happening with
  | called q call => cases concerns
  | read q x result level => cases concerns
  | callback level call =>
      rw [Fate.next, if_pos (of_decide_eq_true concerns)]
      exact ofCall_ne_following p g call
  | finished level result =>
      cases result with
      | returned value => cases concerns
      | thrown error =>
          rw [Fate.next, if_pos (of_decide_eq_true concerns)]
          intro follows
          cases follows

theorem next_ignored {fate : Fate User} (concerns : happening.concerns g = true)
    (elsewhere : fate ≠ .following g) : fate.next p happening = fate := by
  cases fate with
  | settled state value => rfl
  | unresolved =>
      cases happening with
      | called q call => cases concerns
      | _ => rfl
  | reading x =>
      cases happening with
      | read q x result level => cases concerns
      | _ => rfl
  | following h =>
      have different : g ≠ h := fun same => elsewhere (same ▸ rfl)
      cases happening with
      | called q call => rfl
      | read q x result level => rfl
      | callback level call =>
          exact if_neg fun same => different ((of_decide_eq_true concerns).symm.trans same)
      | finished level result =>
          cases result with
          | returned value => rfl
          | thrown error =>
              exact if_neg fun same => different ((of_decide_eq_true concerns).symm.trans same)

theorem foldl_settled (events : List (Happening User)) (state : Status) (value : Value User) :
    events.foldl (Fate.next p) (.settled state value) = .settled state value := by
  induction events with
  | nil => rfl
  | cons event events induction => exact induction

theorem foldl_uncalled {events : List (Happening User)}
    (uncalled : ∀ happening ∈ events, happening.calls p = false) :
    events.foldl (Fate.next p) .unresolved = .unresolved := by
  induction events with
  | nil => rfl
  | cons event events induction =>
      have stays : Fate.next p .unresolved event = .unresolved := by
        have notCalled := uncalled event List.mem_cons_self
        cases event with
        | called q call => exact if_neg (of_decide_eq_false notCalled)
        | _ => rfl
      rw [List.foldl_cons, stays]
      exact induction fun other member => uncalled other (List.mem_cons_of_mem _ member)

theorem resolvedWith_fulfilled {x value : Value User}
    (fulfilled : Fate.resolvedWith p x = .settled .fulfilled value) : value.isObject = false := by
  rw [Fate.resolvedWith] at fulfilled
  split at fulfilled
  · cases fulfilled
  · split at fulfilled
    · cases fulfilled
    next notObject =>
      cases fulfilled
      exact Bool.eq_false_iff.mpr notObject

theorem next_fulfilled {fate : Fate User} {value : Value User}
    (fulfilled : fate.next p happening = .settled .fulfilled value) :
    fate = .settled .fulfilled value ∨ value.isObject = false ∨
      ∃ result level, happening = .read p value (.returned result) level ∧ result.asFunction = none := by
  cases fate with
  | settled state other => exact Or.inl fulfilled
  | unresolved =>
      cases happening with
      | called q call =>
          rw [Fate.next] at fulfilled
          split at fulfilled
          · cases call with
            | resolve x => exact Or.inr (Or.inl (resolvedWith_fulfilled fulfilled))
            | reject r => cases fulfilled
          · cases fulfilled
      | _ => cases fulfilled
  | following h =>
      cases happening with
      | callback level call =>
          rw [Fate.next] at fulfilled
          split at fulfilled
          · cases call with
            | resolve x => exact Or.inr (Or.inl (resolvedWith_fulfilled fulfilled))
            | reject r => cases fulfilled
          · cases fulfilled
      | finished level result =>
          cases result with
          | returned other => cases fulfilled
          | thrown error =>
              rw [Fate.next] at fulfilled
              split at fulfilled
              · cases fulfilled
              · cases fulfilled
      | _ => cases fulfilled
  | reading x =>
      cases happening with
      | read q y result level =>
          rw [Fate.next] at fulfilled
          split at fulfilled
          next same =>
            subst same
            cases result with
            | thrown error => cases fulfilled
            | returned other =>
                cases other with
                | function f => cases fulfilled
                | _ =>
                    cases fulfilled
                    exact Or.inr (Or.inr ⟨_, level, rfl, rfl⟩)
          next => cases fulfilled
      | _ => cases fulfilled

/-- An object fulfils a promise only where its `then` has been read and is not a function. -/
theorem outcome_fulfilled {x value : Value User} (isObject : value.isObject = true)
    (after : List (Happening User)) (fulfilled : outcome p x after = .settled .fulfilled value) :
    ∃ earlier result level rest,
      after = earlier ++ .read p value (.returned result) level :: rest ∧
        result.asFunction = none ∧ ∀ state other, outcome p x earlier ≠ .settled state other := by
  induction after using List.reverseRecOn with
  | nil => cases isObject.symm.trans (resolvedWith_fulfilled fulfilled)
  | append_singleton earlier last induction =>
      by_cases settledBefore : ∃ state other, outcome p x earlier = .settled state other
      · obtain ⟨state, other, isSettled⟩ := settledBefore
        have same : outcome p x earlier = .settled .fulfilled value := by
          rw [outcome, List.foldl_append] at fulfilled
          rw [outcome] at isSettled ⊢
          rw [isSettled] at fulfilled ⊢
          exact fulfilled
        obtain ⟨first, result, level, rest, isEarlier, notFunction, notSettled⟩ := induction same
        refine ⟨first, result, level, rest ++ [last], ?_, notFunction, notSettled⟩
        rw [isEarlier, List.append_assoc, List.cons_append]
      · have last' : (outcome p x earlier).next p last = .settled .fulfilled value := by
          rw [outcome, List.foldl_append] at fulfilled
          exact fulfilled
        rcases next_fulfilled last' with isSettled | notObject | ⟨result, level, isLast, notFunction⟩
        · exact absurd ⟨_, _, isSettled⟩ settledBefore
        · cases isObject.symm.trans notObject
        · refine ⟨earlier, result, level, [], ?_, notFunction, ?_⟩
          · rw [isLast]
          · intro state other isSettled
            exact settledBefore ⟨state, other, isSettled⟩

end Rules

/-! ## A promise that is resolved once -/

/-- What the rules say of the promise `p` that is resolved with `x`, after what has happened
since. -/
structure Resolved (s : State User) (p : Nat) (x : Value User) (after : List (Happening User))
    (promise : Promise User) : Prop where
  shows : (outcome p x after).Shows promise
  /-- The promise is reached itself, at first or where a thenable that it follows calls back. -/
  cycle : (x.isPromise p = true ∨ ∃ earlier g y rest, after = earlier ++ .callback g (.resolve y) :: rest ∧
    outcome p x earlier = .following g ∧ y.isPromise p = true) →
      promise.state = .rejected ∧ promise.value = .typeError
  /-- After the first callback or throw of a thenable, the later ones make no difference. -/
  ignored : ∀ earlier g first middle last rest,
    after = earlier ++ first :: (middle ++ last :: rest) → outcome p x earlier = .following g →
    first.concerns g = true → last.concerns g = true →
      outcome p x (earlier ++ first :: (middle ++ [last])) = outcome p x (earlier ++ first :: middle)
  /-- The reading of `then` that has settled the promise found no function. -/
  noThenable : promise.state = .fulfilled → promise.value.isObject = true →
    ∃ earlier result level rest,
      after = earlier ++ .read p promise.value (.returned result) level :: rest ∧
        result.asFunction = none ∧ ∀ state other, outcome p x earlier ≠ .settled state other
  once : ∀ (actions : List (State.Action User)) later, s.run actions = some later →
    promise.state ≠ .pending → ∃ promise', later.promises[p]? = some promise' ∧
      promise'.state = promise.state ∧ promise'.value = promise.value

section Once

variable {s : State User} {p : Nat} {x : Value User} {before after : List (Happening User)}

theorem alone_of_count {log : List (Event User)} (few : log.countP (Event.calls p) ≤ 1) :
    Alone p log := by
  induction log with
  | nil => exact List.Pairwise.nil
  | cons event log induction =>
      rw [List.countP_cons] at few
      apply List.pairwise_cons.mpr
      constructor
      · intro later member isCall
        rw [if_pos isCall] at few
        have noOther : log.countP (Event.calls p) = 0 := by omega
        have notCall := List.countP_eq_zero.mp noOther later member
        cases later with
        | called q call wasPending =>
            have different : ¬ q = p := fun same => notCall (decide_eq_true same)
            simp [Event.callsPending, different]
        | _ => rfl
      · apply induction
        omega

theorem countP_calls_single
    (single : ∀ happening ∈ before ++ after, happening.calls p = false) (call : Call User) :
    (before ++ .called p call :: after).countP (Happening.calls p) = 1 := by
  have none : ∀ events : List (Happening User), (∀ happening ∈ events, happening ∈ before ++ after) →
      events.countP (Happening.calls p) = 0 := by
    intro events inside
    apply List.countP_eq_zero.mpr
    intro happening member isCall
    cases (single happening (inside happening member)).symm.trans isCall
  rw [List.countP_append, List.countP_cons, none before fun _ => List.mem_append_left _,
    none after fun _ => List.mem_append_right _]
  simp [Happening.calls]

theorem foldl_single (single : ∀ happening ∈ before ++ after, happening.calls p = false) :
    (before ++ .called p (.resolve x) :: after).foldl (Fate.next p) .unresolved = outcome p x after := by
  have uncalled := foldl_uncalled fun happening member =>
    single happening (List.mem_append_left _ member)
  rw [List.foldl_append, uncalled, List.foldl_cons, outcome]
  exact congrArg (after.foldl (Fate.next p)) (if_pos rfl)

theorem outcome_append (p : Nat) (x : Value User) (first second : List (Happening User)) :
    outcome p x (first ++ second) = second.foldl (Fate.next p) (outcome p x first) :=
  List.foldl_append

/-- A thenable that has called back is not followed again. -/
theorem outcome_ignored (numbered : (before ++ .called p (.resolve x) :: after).Pairwise
      fun earlier later => ∀ g, earlier.opens g = true → later.opens g = false)
    {earlier middle rest : List (Happening User)} {g : Nat} {first last : Happening User}
    (isAfter : after = earlier ++ first :: (middle ++ last :: rest))
    (follows : outcome p x earlier = .following g) (firstConcerns : first.concerns g = true)
    (lastConcerns : last.concerns g = true) :
    outcome p x (earlier ++ first :: (middle ++ [last])) = outcome p x (earlier ++ first :: middle) := by
  have numbered := (List.pairwise_cons.mp (List.pairwise_append.mp numbered).2.1).2
  rw [isAfter] at numbered
  obtain ⟨-, -, fresh⟩ := List.pairwise_append.mp numbered
  have opened : ∃ happening ∈ earlier, happening.opens g = true := by
    rcases foldl_following follows with resolved | opened
    · exact absurd resolved (ofCall_ne_following p g (.resolve x))
    · exact opened
  obtain ⟨opening, member, opens⟩ := opened
  have elsewhere : outcome p x (earlier ++ first :: middle) ≠ .following g := by
    intro again
    rw [outcome_append, follows, List.foldl_cons] at again
    rcases foldl_following again with still | ⟨happening, inMiddle, opensAgain⟩
    · exact next_concerns firstConcerns still
    · have notAgain := fresh opening member happening
        (List.mem_cons_of_mem _ (List.mem_append_left _ inMiddle)) g opens
      cases notAgain.symm.trans opensAgain
  have split : earlier ++ first :: (middle ++ [last]) = (earlier ++ first :: middle) ++ [last] := by
    rw [List.append_assoc, List.cons_append]
  rw [split, outcome_append]
  exact next_ignored lastConcerns elsewhere

/-- A promise whose functions are called once, with `resolve(x)`, becomes what the rules make of
it, in every run. -/
theorem resolved_by_rules {actions : List (State.Action User)}
    (isRun : State.initial.run actions = some s)
    (isTrace : State.initial.trace actions = before ++ .called p (.resolve x) :: after)
    (single : ∀ happening ∈ before ++ after, happening.calls p = false)
    {promise : Promise User} (isPromise : s.promises[p]? = some promise) :
    Resolved s p x after promise := by
  have reachable : Reachable s := Reachable.initial.run isRun
  have recordedHere : Recorded p (State.initial : State User) [] := ⟨rfl, fun _ => rfl⟩
  have recorded := recorded_run .initial recordedHere isRun
  have numberedHere : Numbered (State.initial : State User) [] := by
    constructor
    · intro happening member
      cases member
    · exact List.Pairwise.nil
  have numbered := (numberedHere.run isRun).once
  rw [List.nil_append, isTrace] at recorded numbered
  have alone : Alone p s.log := by
    apply alone_of_count
    rw [recorded.sameCalls]
    exact Nat.le_of_eq (countP_calls_single single (.resolve x))
  have sameFate : fate p s.log = outcome p x after :=
    (recorded.sameFate alone).trans (foldl_single single)
  have shows : (outcome p x after).Shows promise := by
    rw [← sameFate]
    have fits : Fits s p (fate p s.log) := reachable.agrees p alone
    exact fits.shows isPromise
  constructor
  case shows => exact shows
  case cycle =>
    intro reached
    have settled : outcome p x after = .settled .rejected .typeError := by
      rcases reached with isSelf | ⟨earlier, g, y, rest, isAfter, follows, isSelf⟩
      · rw [outcome, Fate.resolvedWith, if_pos isSelf]
        exact foldl_settled after .rejected .typeError
      · have cyclic : Fate.next p (.following g) (.callback g (.resolve y)) =
            .settled .rejected .typeError := (if_pos rfl).trans (if_pos isSelf)
        rw [isAfter, outcome_append, follows, List.foldl_cons, cyclic]
        exact foldl_settled rest .rejected .typeError
    rw [settled] at shows
    exact shows
  case ignored =>
    intro earlier g first middle last rest isAfter follows firstConcerns lastConcerns
    exact outcome_ignored numbered isAfter follows firstConcerns lastConcerns
  case noThenable =>
    intro isFulfilled isObject
    apply outcome_fulfilled isObject
    cases isOutcome : outcome p x after with
    | settled state value =>
        rw [isOutcome] at shows
        rw [shows.2, ← isFulfilled, shows.1]
    | _ =>
        rw [isOutcome] at shows
        cases isFulfilled.symm.trans shows
  case once =>
    intro actions later isLater settled
    obtain ⟨promise', isPromise', same | ⟨isPending, -⟩⟩ := run_outcome reachable isLater isPromise
    · exact ⟨promise', isPromise', same⟩
    · exact absurd isPending settled

/-- Promise 0 is resolved with a thenable that calls back both ways and throws. -/
def resolvedWithThenable : List (State.Action Nat) :=
  [.task, .construct (.function (.user 0)), .finish .done, .proceed, .proceed,
    .call (.resolve 0) .undefined (.object 7) .undefined,
    .finish (.returned (.function (.user 1))), .proceed,
    .call (.adopt 0) .undefined (.primitive 5) .undefined, .proceed,
    .call (.refuse 0) .undefined (.primitive 6) .undefined, .proceed,
    .finish (.thrown (.primitive 8)), .proceed]

def sinceThenable : List (Happening Nat) :=
  [.read 0 (.object 7) (.returned (.function (.user 1))) 0,
    .callback 0 (.resolve (.primitive 5)), .callback 0 (.reject (.primitive 6)),
    .finished 0 (.thrown (.primitive 8))]

theorem resolved_by_rules_thenable :
    ∃ s, State.initial.run resolvedWithThenable = some s ∧
      Resolved s 0 (.object 7) sinceThenable ⟨.fulfilled, .primitive 5, [], true⟩ := by
  have isTrace : State.initial.trace resolvedWithThenable =
      [] ++ .called 0 (.resolve (.object 7)) :: sinceThenable := rfl
  have single : ∀ happening ∈ [] ++ sinceThenable, happening.calls 0 = false := by
    intro happening member
    rw [List.nil_append, sinceThenable] at member
    simp only [List.mem_cons, List.not_mem_nil, or_false] at member
    rcases member with rfl | rfl | rfl | rfl
    · rfl
    · rfl
    · rfl
    · rfl
  exact ⟨_, rfl, resolved_by_rules rfl isTrace single rfl⟩

end Once

end FoundationsLab.Promises
