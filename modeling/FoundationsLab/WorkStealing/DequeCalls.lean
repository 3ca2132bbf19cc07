import FoundationsLab.WorkStealing.DequeSteps
import FoundationsLab.WorkStealing.Pool

/-! # Calls on a deque

What one step of a call to `push`, `pop` or `steal` does to the tasks pushed and
returned, and which calls the owner can be inside. -/

namespace FoundationsLab.WorkStealing

variable {Task : Type}

/-! ## Soundness -/

namespace System

/-- A state that satisfies the invariant of the deque. -/
def Sound (system : System Task) : Prop := ∃ ring items held, system.Inv ring items held

theorem Sound.initial {cap : Int} (positive : 0 < cap) : (initial cap : System Task).Sound :=
  ⟨_, _, _, Inv.initial positive⟩

variable {system : System Task}

theorem Sound.push (sound : system.Sound) (x : Task) : (system.push x).Sound := by
  obtain ⟨ring, items, held, inv⟩ := sound
  exact ⟨ring, items, held, push_inv inv x⟩

theorem Sound.pop (sound : system.Sound) : system.pop.Sound := by
  obtain ⟨ring, items, held, inv⟩ := sound
  exact ⟨ring, items, held, pop_inv inv⟩

theorem Sound.ownerStep (sound : system.Sound) : system.ownerStep.Sound := by
  obtain ⟨ring, items, held, inv⟩ := sound
  exact ownerStep_inv inv

theorem Sound.steal (sound : system.Sound) (id : Nat) : (system.steal id).Sound := by
  obtain ⟨ring, items, held, inv⟩ := sound
  exact ⟨ring, items, held, steal_inv inv id⟩

theorem Sound.thiefStep (sound : system.Sound) (id : Nat) : (system.thiefStep id).Sound := by
  obtain ⟨ring, items, held, inv⟩ := sound
  obtain ⟨items', inv'⟩ := thiefStep_inv inv id
  exact ⟨ring, items', held, inv'⟩

/-- Nothing is returned that was not pushed. -/
theorem Sound.returned_le [DecidableEq Task] (sound : system.Sound) (x : Task) :
    system.returned.count x ≤ system.pushed.count x := by
  obtain ⟨ring, items, held, inv⟩ := sound
  have balance := inv.balance.count_eq x
  simp only [List.count_append] at balance
  omega

/-- The deque is empty once everything that was pushed has been returned. -/
theorem Sound.live_eq_nil [DecidableEq Task] (sound : system.Sound)
    (all : ∀ x, system.pushed.count x = system.returned.count x) : system.live = [] := by
  obtain ⟨ring, items, held, inv⟩ := sound
  have isNil : items = [] := by
    refine List.eq_nil_iff_forall_not_mem.mpr fun x member => ?_
    have present := List.count_pos_iff.mpr member
    have balance := inv.balance.count_eq x
    have same := all x
    simp only [List.count_append] at balance
    omega
  have length := inv.length
  have extra := system.owner.extra_nonneg
  rw [isNil, List.length_nil, last] at length
  have empty : (system.deque.bottom - system.deque.top).toNat = 0 := by omega
  rw [live, empty]
  rfl

/-- Between two calls of the owner an empty deque has returned everything. -/
theorem Sound.all_of_live [DecidableEq Task] (sound : system.Sound) (isIdle : system.owner = .idle)
    (empty : system.live = []) (x : Task) : system.pushed.count x = system.returned.count x := by
  obtain ⟨ring, items, held, inv⟩ := sound
  have known := inv.owner
  have length := inv.length
  rw [isIdle] at known
  rw [last, isIdle] at length
  have gap : (.idle : Owner Task).extra = 0 := rfl
  have span : (system.deque.bottom - system.deque.top).toNat = 0 := by
    have lengths := congrArg List.length empty
    rwa [live, List.length_map, List.length_range] at lengths
  obtain rfl : items = [] := List.length_eq_zero_iff.mp (by omega)
  obtain rfl : held = [] := known
  have balance := inv.balance.count_eq x
  simpa using balance.symm

end System

/-! ## Calls of the owner -/

namespace Owner

/-- Inside `push(x)`, or not inside a call. -/
def Pushing (x : Task) : Owner Task → Prop
  | .idle => True
  | .pushTop y _ | .pushRing y _ _ | .growGet y .. | .growPut y .. | .pushPut y .. |
      .pushBottom y _ => y = x
  | _ => False

/-- Inside `pop()`, or not inside a call. -/
def Popping : Owner Task → Prop
  | .idle | .popRing _ | .popBottom .. | .popTop .. | .popGet .. | .popCas .. |
      .popRestore .. => True
  | _ => False

end Owner

namespace System

variable {system : System Task}

theorem given_eq {before after : System Task} {x : Option Task}
    (returned : after.returned = before.returned ++ x.toList) : before.given after = x := by
  rw [given, returned, List.drop_left]
  cases x <;> rfl

/-- A step inside `push(x)` moves on, or finishes the call. -/
theorem ownerStep_push {x : Task} (pushing : system.owner.Pushing x)
    (busy : system.owner ≠ .idle) :
    system.ownerStep.returned = system.returned ∧
      ((system.ownerStep.owner ≠ .idle ∧ system.ownerStep.owner.Pushing x ∧
          system.ownerStep.pushed = system.pushed) ∨
        (system.ownerStep.owner = .idle ∧ system.ownerStep.pushed = system.pushed ++ [x])) := by
  cases here : system.owner with
  | idle => exact absurd here busy
  | pushTop y b | growPut y b t a na i z | pushPut y b a =>
      rw [here] at pushing
      rw [ownerStep, here]
      exact ⟨rfl, .inl ⟨(fun equal => by cases equal), pushing, rfl⟩⟩
  | pushRing y b t | growGet y b t a na i =>
      rw [here] at pushing
      rw [ownerStep, here]
      dsimp only
      split
      · exact ⟨rfl, .inl ⟨(fun equal => by cases equal), pushing, rfl⟩⟩
      · exact ⟨rfl, .inl ⟨(fun equal => by cases equal), pushing, rfl⟩⟩
  | pushBottom y b =>
      rw [here] at pushing
      obtain rfl := pushing
      rw [ownerStep, here]
      exact ⟨rfl, .inr ⟨rfl, rfl⟩⟩
  | popRing | popBottom | popTop | popGet | popCas | popRestore =>
      rw [here] at pushing
      exact pushing.elim

/-- A step inside `pop()` moves on, or finishes the call with what it returns. -/
theorem ownerStep_pop (popping : system.owner.Popping) (busy : system.owner ≠ .idle) :
    system.ownerStep.pushed = system.pushed ∧
      ((system.ownerStep.owner ≠ .idle ∧ system.ownerStep.owner.Popping ∧
          system.ownerStep.returned = system.returned) ∨
        (system.ownerStep.owner = .idle ∧
          ∃ x : Option Task, system.ownerStep.returned = system.returned ++ x.toList)) := by
  cases here : system.owner with
  | idle => exact absurd here busy
  | pushTop | pushRing | growGet | growPut | pushPut | pushBottom =>
      rw [here] at popping
      exact popping.elim
  | popRing b | popBottom b a =>
      rw [ownerStep, here]
      exact ⟨rfl, .inl ⟨(fun equal => by cases equal), trivial, rfl⟩⟩
  | popTop b a | popCas b t x =>
      rw [ownerStep, here]
      dsimp only
      split
      · exact ⟨rfl, .inl ⟨(fun equal => by cases equal), trivial, rfl⟩⟩
      · exact ⟨rfl, .inl ⟨(fun equal => by cases equal), trivial, rfl⟩⟩
  | popGet b t a =>
      rw [ownerStep, here]
      dsimp only
      split
      · exact ⟨rfl, .inl ⟨(fun equal => by cases equal), trivial, rfl⟩⟩
      · exact ⟨rfl, .inr ⟨rfl, _, rfl⟩⟩
  | popRestore b x =>
      rw [ownerStep, here]
      exact ⟨rfl, .inr ⟨rfl, x, rfl⟩⟩

/-- A step of a thief returns at most one task, and only when it leaves the call. -/
theorem thiefStep_steal (system : System Task) (id : Nat) :
    (system.thiefStep id).pushed = system.pushed ∧
      (system.thiefStep id).owner = system.owner ∧
      (((system.thiefStep id).thieves id ≠ .idle ∧
          (system.thiefStep id).returned = system.returned) ∨
        ((system.thiefStep id).thieves id = .idle ∧
          ∃ x : Option Task, (system.thiefStep id).returned = system.returned ++ x.toList)) := by
  have moved : ∀ (other : System Task) (thief : Thief Task),
      (other.setThief id thief).thieves id = thief := fun _ _ => Function.update_self ..
  rw [thiefStep]
  cases here : system.thieves id with
  | idle => exact ⟨rfl, rfl, .inr ⟨here, none, (List.append_nil _).symm⟩⟩
  | stealBottom t =>
      dsimp only
      split
      · exact ⟨rfl, rfl, .inl ⟨(by rw [moved]; intro equal; cases equal), rfl⟩⟩
      · exact ⟨rfl, rfl, .inr ⟨moved .., none, (List.append_nil _).symm⟩⟩
  | stealRing t => exact ⟨rfl, rfl, .inl ⟨(by rw [moved]; intro equal; cases equal), rfl⟩⟩
  | stealGet t a => exact ⟨rfl, rfl, .inl ⟨(by rw [moved]; intro equal; cases equal), rfl⟩⟩
  | stealCas t x =>
      dsimp only
      split
      · exact ⟨rfl, rfl, .inr ⟨moved .., x, rfl⟩⟩
      · exact ⟨rfl, rfl, .inr ⟨moved .., none, (List.append_nil _).symm⟩⟩

/-! ## One step of a call -/

/-- A call to `push(x)` goes on, or returns with `x` pushed. -/
theorem pushStep_spec (sound : system.Sound) {x : Task} (pushing : system.owner.Pushing x) :
    (system.pushStep x).1.Sound ∧ (system.pushStep x).1.returned = system.returned ∧
      (((system.pushStep x).2 = false ∧ (system.pushStep x).1.owner.Pushing x ∧
          (system.pushStep x).1.pushed = system.pushed) ∨
        ((system.pushStep x).2 = true ∧ (system.pushStep x).1.owner = .idle ∧
          (system.pushStep x).1.pushed = system.pushed ++ [x])) := by
  rw [pushStep]
  split
  · rename_i here
    have begun : system.push x = system.goto (.pushTop x system.deque.bottom) := by
      rw [push, here]
    exact ⟨sound.push x, by rw [begun]; rfl, .inl ⟨rfl, by rw [begun]; rfl, by rw [begun]; rfl⟩⟩
  · rename_i busy
    obtain ⟨returned, ⟨still, inside, pushed⟩ | ⟨isIdle, pushed⟩⟩ := ownerStep_push pushing busy
    · dsimp only
      split
      · rename_i isIdle
        exact absurd isIdle still
      · exact ⟨sound.ownerStep, returned, .inl ⟨rfl, inside, pushed⟩⟩
    · dsimp only
      rw [isIdle]
      exact ⟨sound.ownerStep, returned, .inr ⟨rfl, isIdle, pushed⟩⟩

/-- A call to `pop()` goes on, or returns what it takes out. -/
theorem popStep_spec (sound : system.Sound) (popping : system.owner.Popping) :
    system.popStep.1.Sound ∧ system.popStep.1.pushed = system.pushed ∧
      ((system.popStep.2 = none ∧ system.popStep.1.owner.Popping ∧
          system.popStep.1.returned = system.returned) ∨
        ∃ x : Option Task, system.popStep.2 = some x ∧ system.popStep.1.owner = .idle ∧
          system.popStep.1.returned = system.returned ++ x.toList) := by
  rw [popStep]
  split
  · rename_i here
    have begun : system.pop = system.goto (.popRing (system.deque.bottom - 1)) := by
      rw [pop, here]
    exact ⟨sound.pop, by rw [begun]; rfl, .inl ⟨rfl, by rw [begun]; trivial, by rw [begun]; rfl⟩⟩
  · rename_i busy
    obtain ⟨pushed, ⟨still, inside, returned⟩ | ⟨isIdle, x, returned⟩⟩ :=
      ownerStep_pop popping busy
    · dsimp only
      split
      · rename_i isIdle
        exact absurd isIdle still
      · exact ⟨sound.ownerStep, pushed, .inl ⟨rfl, inside, returned⟩⟩
    · dsimp only
      rw [isIdle]
      exact ⟨sound.ownerStep, pushed, .inr ⟨x, by rw [given_eq returned], isIdle, returned⟩⟩

/-- A call to `steal()` goes on, or returns what it takes out. -/
theorem stealStep_spec (sound : system.Sound) (id : Nat) :
    (system.stealStep id).1.Sound ∧ (system.stealStep id).1.pushed = system.pushed ∧
      (system.stealStep id).1.owner = system.owner ∧
      (((system.stealStep id).2 = none ∧ (system.stealStep id).1.returned = system.returned) ∨
        ∃ x : Option Task, (system.stealStep id).2 = some x ∧
          (system.stealStep id).1.returned = system.returned ++ x.toList) := by
  rw [stealStep]
  split
  · rename_i here
    have begun : system.steal id = system.setThief id (.stealBottom system.deque.top) := by
      rw [steal, here]
    exact ⟨sound.steal id, by rw [begun]; rfl, by rw [begun]; rfl, .inl ⟨rfl, by rw [begun]; rfl⟩⟩
  · obtain ⟨pushed, owner, ⟨still, returned⟩ | ⟨isIdle, x, returned⟩⟩ :=
      system.thiefStep_steal id
    · dsimp only
      split
      · rename_i isIdle
        exact absurd isIdle still
      · exact ⟨sound.thiefStep id, pushed, owner, .inl ⟨rfl, returned⟩⟩
    · dsimp only
      rw [isIdle]
      exact ⟨sound.thiefStep id, pushed, owner, .inr ⟨x, by rw [given_eq returned], returned⟩⟩

end System

end FoundationsLab.WorkStealing
