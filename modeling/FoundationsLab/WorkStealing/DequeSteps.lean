import FoundationsLab.WorkStealing.DequeInvariant

/-! # Every step keeps the deque

A thief takes the first task with its compare-exchange, the owner adds a task with
the store to `bottom`, and takes the last one when it reads `top` below it or wins
the compare-exchange. All other steps leave the tasks where they are. -/

namespace FoundationsLab.WorkStealing

variable {Task : Type}

/-- One more slot is copied. -/
theorem Growing.put {deque : Deque Task} {ring na : Ring Task} {b t i : Int} {a : Nat}
    (growing : Growing deque ring b t a na i) (inside : i < b) (positive : 0 < ring.cap) : Growing deque ring b t a (na.put i (ring.get i)) (i + 1) := by
  have cap := growing.cap
  have room := growing.room
  have lower := growing.lower
  refine { growing with cap := cap, lower := by omega, upper := by omega, copied := ?_ }
  intro j above below
  by_cases same : i = j
  · rw [← same, Ring.get_put_self]
  · rw [Ring.get_put_of_ne na _ same (by omega) (by omega)]
    exact growing.copied j above (by omega)

namespace System

variable {system : System Task} {ring : Ring Task} {items held : List Task}

/-! ## Thieves -/

theorem Inv.setThief (inv : Inv system ring items held) (id : Nat) {thief : Thief Task}
    (known : ThiefInv system.deque ring system.last thief) :
    Inv (system.setThief id thief) ring items held := by
  refine ⟨inv.current, inv.positive, inv.slots, inv.length, inv.fits, inv.owner, fun other => ?_,
    inv.order, inv.balance⟩
  by_cases same : other = id
  · obtain rfl := same
    show ThiefInv system.deque ring system.last (Function.update system.thieves other thief other)
    rw [Function.update_self]
    exact known
  · show ThiefInv system.deque ring system.last (Function.update system.thieves id thief other)
    rw [Function.update_of_ne same]
    exact inv.thieves other

/-- The owner does not notice a thief that takes the first task. -/
theorem ownerInv_advance {deque : Deque Task} {owner : Owner Task}
    (inv : OwnerInv deque ring held owner)
    (nonempty : deque.top < deque.bottom + owner.extra) :
    OwnerInv { deque with top := deque.top + 1 } ring held owner := by
  cases owner with
  | idle => exact inv
  | pushTop x b => exact inv
  | pushRing x b t =>
      obtain ⟨noHeld, isBottom, below, room⟩ := inv
      exact ⟨noHeld, isBottom, by dsimp only; omega, room⟩
  | growGet x b t a na i =>
      obtain ⟨noHeld, growing⟩ := inv
      have below := growing.top
      exact ⟨noHeld, { growing with top := by dsimp only; omega }⟩
  | growPut x b t a na i y =>
      obtain ⟨noHeld, growing, rest⟩ := inv
      have below := growing.top
      exact ⟨noHeld, { growing with top := by dsimp only; omega }, rest⟩
  | pushPut x b a =>
      obtain ⟨noHeld, isBottom, isRing, room⟩ := inv
      exact ⟨noHeld, isBottom, isRing, by dsimp only; omega⟩
  | pushBottom x b =>
      obtain ⟨noHeld, isBottom, room, written⟩ := inv
      exact ⟨noHeld, isBottom, by dsimp only; omega, written⟩
  | popRing b => exact inv
  | popBottom b a => exact inv
  | popTop b a => exact inv
  | popGet b t a =>
      obtain ⟨isBottom, isRing, reached, below, isHeld⟩ := inv
      exact ⟨isBottom, isRing, reached, by dsimp only; omega, isHeld⟩
  | popCas b t x =>
      obtain ⟨noHeld, isBottom, isLast, below, isTask⟩ := inv
      exact ⟨noHeld, isBottom, isLast, by dsimp only; omega, isTask⟩
  | popRestore b x =>
      obtain ⟨isHeld, isBottom, isEmpty⟩ := inv
      have gap : (.popRestore b x : Owner Task).extra = 1 := rfl
      omega

theorem thiefStep_inv (inv : Inv system ring items held) (id : Nat) :
    ∃ items', Inv (system.thiefStep id) ring items' held := by
  have known := inv.thieves id
  rw [thiefStep]
  cases here : system.thieves id with
  | idle => exact ⟨items, inv⟩
  | stealBottom t =>
      rw [here] at known
      dsimp only
      split
      · rename_i below
        refine ⟨items, inv.setThief id ⟨known, fun _ => ?_⟩⟩
        have extra := system.owner.extra_nonneg
        rw [last]
        omega
      · exact ⟨items, inv.setThief id trivial⟩
  | stealRing t =>
      rw [here] at known
      obtain ⟨below, first⟩ := known
      have inside : system.deque.ring < system.deque.rings.length :=
        (List.getElem?_eq_some_iff.mp inv.current).1
      exact ⟨items, inv.setThief id
        ⟨inside, below, fun isTop => ⟨first isTop, Deque.slot_current inv.current t⟩⟩⟩
  | stealGet t a =>
      rw [here] at known
      obtain ⟨-, below, first⟩ := known
      exact ⟨items, inv.setThief id ⟨below, first⟩⟩
  | stealCas t x =>
      rw [here] at known
      obtain ⟨below, first⟩ := known
      dsimp only
      split
      · -- The compare-exchange succeeds: the first task goes to the thief.
        rename_i isTop
        obtain ⟨early, isTask⟩ := first isTop.symm
        have length := inv.length
        cases items with
        | nil =>
            rw [List.length_nil] at length
            omega
        | cons y items =>
            obtain ⟨isFirst, rest⟩ := inv.slots
            have taken : x = some y := by rw [isTask, ← isTop, isFirst]
            rw [List.length_cons] at length
            have fits := inv.fits
            rw [List.length_cons] at fits
            have moved : Inv ((system.setTop (t + 1)).give x) ring items held := by
              rw [← isTop, taken]
              refine ⟨inv.current, inv.positive, rest, ?_, by omega, ?_, fun other => ?_,
                (List.sublist_cons_self y items).trans inv.order, ?_⟩
              · show system.deque.top + 1 + (items.length : Int) = system.last
                rw [← length]
                omega
              · have advanced := ownerInv_advance inv.owner (by rw [last] at early; omega)
                exact advanced
              · refine (inv.thieves other).keep le_rfl (by simp [setTop, give]) fun same => ?_
                simp [setTop, give] at same
              · have balance := inv.balance
                show (system.returned ++ [y] ++ held ++ items).Perm system.pushed
                refine List.Perm.trans ?_ balance
                simp only [List.append_assoc]
                refine List.Perm.append_left _ ?_
                show (y :: (held ++ items)).Perm (held ++ y :: items)
                exact List.perm_middle.symm
            exact ⟨items, moved.setThief id trivial⟩
      · exact ⟨items, inv.setThief id trivial⟩

theorem steal_inv (inv : Inv system ring items held) (id : Nat) :
    Inv (system.steal id) ring items held := by
  rw [steal]
  split
  · exact inv.setThief id le_rfl
  · exact inv

/-! ## The owner -/

/-- A step of the owner that only changes its local variables. -/
theorem Inv.goto (inv : Inv system ring items held) {owner : Owner Task}
    (known : OwnerInv system.deque ring held owner) (extra : owner.extra = system.owner.extra) :
    Inv (system.goto owner) ring items held := by
  have last : (system.goto owner).last = system.last := by
    rw [System.last, System.last, extra.symm]
    rfl
  exact ⟨inv.current, inv.positive, inv.slots, inv.length.trans last.symm, inv.fits, known,
    fun id => last ▸ inv.thieves id, inv.order, inv.balance⟩

theorem push_inv (inv : Inv system ring items held) (x : Task) :
    Inv (system.push x) ring items held := by
  have known := inv.owner
  rw [push]
  split
  · rename_i here
    rw [here] at known
    exact inv.goto ⟨known, rfl⟩ (by rw [here]; rfl)
  · exact inv

theorem pop_inv (inv : Inv system ring items held) : Inv system.pop ring items held := by
  have known := inv.owner
  rw [pop]
  split
  · rename_i here
    rw [here] at known
    exact inv.goto ⟨known, rfl⟩ (by rw [here]; rfl)
  · exact inv

section Push

variable {x : Task} {b t i : Int} {a : Nat} {na : Ring Task}

theorem pushRing_inv (inv : Inv system ring items held) (here : system.owner = .pushRing x b t) :
    Inv system.ownerStep ring items held := by
  have known := inv.owner
  rw [here] at known
  obtain ⟨noHeld, isBottom, below, room⟩ := known
  have positive := inv.positive
  rw [ownerStep, here]
  dsimp only
  rw [Deque.capacity_current inv.current]
  split
  · rename_i full
    refine inv.goto ⟨noHeld, isBottom, below, room, rfl, rfl, le_rfl, by omega, ?_⟩
      (by rw [here]; rfl)
    exact fun j lower upper => by omega
  · rename_i free
    exact inv.goto ⟨noHeld, isBottom, rfl, by omega⟩ (by rw [here]; rfl)

theorem publish_inv (inv : Inv system ring items held)
    (here : system.owner = .growGet x b t a na i) (done : ¬ i < b) :
    ∃ ring', Inv system.ownerStep ring' items held := by
  have known := inv.owner
  rw [here] at known
  obtain ⟨noHeld, growing⟩ := known
  have length := inv.length
  have cap := growing.cap
  have positive := inv.positive
  have isBottom := growing.bottom
  have below := growing.top
  have room := growing.room
  rw [last, here] at length
  have gap : Owner.extra (.growGet x b t a na i) = 0 := rfl
  -- All live slots were copied.
  have copied : ∀ j, system.deque.top ≤ j → j < b → na.get j = ring.get j :=
    fun j lower upper => growing.copied j (by omega) (by omega)
  rw [ownerStep, here]
  dsimp only
  rw [if_neg done]
  refine ⟨na, ?_, by omega, inv.slots.congr fun j lower upper => copied j lower (by omega), ?_,
    by have fits := inv.fits; omega, ⟨noHeld, isBottom, rfl, ?_⟩, fun id => ?_, inv.order,
    inv.balance⟩
  · exact List.getElem?_concat_length
  · exact length
  · show b - system.deque.top < na.cap
    omega
  · refine (inv.thieves id).keep ?_ le_rfl fun _ early => ⟨?_, ?_, fun a inside isSlot => ?_⟩
    · simp [Deque.publish]
    · rw [last, here] at early
      exact early
    · rw [last, here] at early
      exact copied _ le_rfl (by omega)
    · exact (Deque.slot_publish inside na _).trans isSlot

theorem pushPut_inv (inv : Inv system ring items held) (here : system.owner = .pushPut x b a) :
    Inv system.ownerStep (ring.put b (some x)) items held := by
  have known := inv.owner
  rw [here] at known
  obtain ⟨noHeld, isBottom, rfl, room⟩ := known
  have length := inv.length
  rw [last, here] at length
  have gap : Owner.extra (.pushPut x b system.deque.ring) = 0 := rfl
  have unchanged : ∀ j, system.deque.top ≤ j → j < b → (ring.put b (some x)).get j = ring.get j :=
    fun j lower upper => Ring.get_put_of_ne ring _ (by omega) (by omega) (by omega)
  rw [ownerStep, here]
  dsimp only
  refine ⟨Deque.rings_putSlot inv.current b _, inv.positive,
    inv.slots.congr fun j lower upper => unchanged j lower (by omega), length, inv.fits,
    ⟨noHeld, isBottom, room, Ring.get_put_self _ _ _⟩, fun id => ?_, inv.order, inv.balance⟩
  refine (inv.thieves id).keep ?_ le_rfl fun _ early => ⟨?_, ?_, fun a inside isSlot => ?_⟩
  · simp [Deque.putSlot]
  · rw [last, here] at early
    exact early
  · rw [last, here] at early
    exact unchanged _ le_rfl (by omega)
  · by_cases same : system.deque.ring = a
    · rw [last, here] at early
      subst same
      exact (Deque.slot_current (Deque.rings_putSlot inv.current b _) _).trans
        (unchanged _ le_rfl (by omega))
    · exact (Deque.slot_putSlot_of_ne same _ _ _).trans isSlot

theorem pushBottom_inv (inv : Inv system ring items held)
    (here : system.owner = .pushBottom x b) :
    Inv system.ownerStep ring (items ++ [x]) held := by
  have known := inv.owner
  rw [here] at known
  obtain ⟨noHeld, isBottom, room, written⟩ := known
  have length := inv.length
  rw [last, here] at length
  have gap : Owner.extra (.pushBottom x b) = 0 := rfl
  have atEnd : system.deque.top + items.length = b := by omega
  rw [ownerStep, here]
  dsimp only
  refine ⟨inv.current, inv.positive, Ring.holds_append.mpr ⟨inv.slots, ?_, trivial⟩, ?_, ?_, noHeld,
    fun id => ?_, inv.order.append_right [x], ?_⟩
  · rw [show (system.setBottom (b + 1)).deque.top = system.deque.top from rfl, atEnd]
    exact written
  · show system.deque.top + ((items ++ [x]).length : Int) = b + 1 + 0
    rw [List.length_append, List.length_singleton]
    omega
  · rw [List.length_append, List.length_singleton]
    omega
  · refine (inv.thieves id).keep le_rfl le_rfl fun _ early => ⟨?_, rfl, fun _ _ isSlot => isSlot⟩
    show system.deque.top < b + 1 + 0
    rw [last, here] at early
    omega
  · rw [← List.append_assoc]
    exact inv.balance.append_right [x]

end Push

section Pop

variable {x : Option Task} {b t : Int} {a : Nat}

theorem popBottom_inv (inv : Inv system ring items held) (here : system.owner = .popBottom b a) :
    Inv system.ownerStep ring items held := by
  have known := inv.owner
  rw [here] at known
  obtain ⟨noHeld, isBottom, isRing⟩ := known
  have length := inv.length
  rw [last, here] at length
  have gap : (.popBottom b a : Owner Task).extra = 0 := rfl
  rw [ownerStep, here]
  dsimp only
  refine ⟨inv.current, inv.positive, inv.slots, ?_, inv.fits, ⟨noHeld, rfl, isRing⟩, fun id => ?_,
    inv.order, inv.balance⟩
  · show system.deque.top + (items.length : Int) = b + 1
    omega
  · refine (inv.thieves id).keep le_rfl le_rfl fun _ early => ⟨?_, rfl, fun _ _ isSlot => isSlot⟩
    show system.deque.top < b + 1
    rw [last, here] at early
    omega

theorem popTop_inv (inv : Inv system ring items held) (here : system.owner = .popTop b a) :
    ∃ items' held', Inv system.ownerStep ring items' held' := by
  have known := inv.owner
  rw [here] at known
  obtain ⟨noHeld, isBottom, isRing⟩ := known
  have length := inv.length
  have fits := inv.fits
  rw [last, here] at length
  have gap : (.popTop b a : Owner Task).extra = 1 := rfl
  rw [ownerStep, here]
  dsimp only
  split
  · rename_i reached
    by_cases isLast : system.deque.top = b
    · -- The last task: the compare-exchange will decide.
      refine ⟨items, held, inv.goto ⟨isBottom, isRing, reached, le_rfl, ?_⟩ ?_⟩
      · rw [if_pos isLast, noHeld]
      · rw [here]
        exact if_pos isLast
    · -- No thief can get here any more: the task is in the owner's hands.
      obtain ⟨front, y, rfl⟩ : ∃ front y, items = front ++ [y] := by
        refine (List.eq_nil_or_concat' items).resolve_left fun isNil => ?_
        rw [isNil, List.length_nil] at length
        omega
      rw [List.length_append, List.length_singleton] at length fits
      obtain ⟨onFront, isLast', -⟩ := Ring.holds_append.mp inv.slots
      have atEnd : system.deque.top + front.length = b := by omega
      rw [atEnd] at isLast'
      refine ⟨front, [y], inv.current, inv.positive, onFront, ?_, by omega, ?_, fun id => ?_,
        (List.sublist_append_left front [y]).trans inv.order, ?_⟩
      · show system.deque.top + (front.length : Int) =
          system.deque.bottom + if system.deque.top = b then 1 else 0
        rw [if_neg isLast]
        omega
      · refine ⟨isBottom, isRing, reached, le_rfl, ?_⟩
        rw [if_neg isLast, isLast']
        rfl
      · refine (inv.thieves id).keep le_rfl le_rfl fun _ early => ⟨?_, rfl, fun _ _ isSlot => isSlot⟩
        show system.deque.top < system.deque.bottom + if system.deque.top = b then 1 else 0
        rw [if_neg isLast]
        omega
      · have balance := inv.balance
        rw [noHeld, List.append_nil] at balance
        refine List.Perm.trans ?_ balance
        show (system.returned ++ [y] ++ front).Perm (system.returned ++ (front ++ [y]))
        rw [List.append_assoc]
        exact List.Perm.append_left _ List.perm_append_comm
  · rename_i passed
    refine ⟨items, held, inv.goto ⟨noHeld, isBottom, ?_⟩ ?_⟩
    · omega
    · rw [here]
      rfl

theorem popGet_inv (inv : Inv system ring items held) (here : system.owner = .popGet b t a) :
    ∃ held', Inv system.ownerStep ring items held' := by
  have known := inv.owner
  rw [here] at known
  obtain ⟨isBottom, rfl, reached, below, isHeld⟩ := known
  have length := inv.length
  rw [last, here] at length
  rw [ownerStep, here]
  dsimp only
  rw [Deque.slot_current inv.current]
  split
  · rename_i isLast
    rw [if_pos isLast] at isHeld
    refine ⟨held, inv.goto ⟨isHeld, isBottom, isLast, below, rfl⟩ ?_⟩
    rw [here]
    exact (if_pos isLast).symm
  · rename_i notLast
    rw [if_neg notLast] at isHeld
    have gap : (.popGet b t system.deque.ring : Owner Task).extra = 0 := if_neg notLast
    refine ⟨[], inv.current, inv.positive, inv.slots, ?_, inv.fits, rfl, fun id => ?_, inv.order, ?_⟩
    · show system.deque.top + (items.length : Int) = system.deque.bottom + 0
      omega
    · refine (inv.thieves id).keep le_rfl le_rfl fun _ early => ⟨?_, rfl, fun _ _ isSlot => isSlot⟩
      rw [last, here] at early
      show system.deque.top < system.deque.bottom + 0
      omega
    · have balance := inv.balance
      rw [isHeld] at balance
      show (system.returned ++ (ring.get b).toList ++ [] ++ items).Perm system.pushed
      rw [List.append_nil]
      exact balance

theorem popCas_inv (inv : Inv system ring items held) (here : system.owner = .popCas b t x) :
    ∃ items' held', Inv system.ownerStep ring items' held' := by
  have known := inv.owner
  rw [here] at known
  obtain ⟨noHeld, isBottom, isLast, below, isTask⟩ := known
  have length := inv.length
  have fits := inv.fits
  rw [last, here] at length
  have gap : (.popCas b t x : Owner Task).extra = 1 := rfl
  rw [ownerStep, here]
  dsimp only
  split
  · -- The owner wins the last task.
    rename_i isTop
    obtain ⟨y, rfl⟩ : ∃ y, items = [y] := List.length_eq_one_iff.mp (by omega)
    have isFirst : ring.get system.deque.top = some y := inv.slots.1
    have taken : x = some y := by
      rw [isTask, ← isFirst]
      congr 1
      omega
    refine ⟨[], [y], inv.current, inv.positive, trivial, ?_, inv.positive.le, ?_, fun id => ?_,
      List.nil_sublist _, ?_⟩
    · show t + 1 + ((0 : Nat) : Int) = system.deque.bottom + 1
      omega
    · refine ⟨by rw [taken]; rfl, isBottom, ?_⟩
      show t + 1 = b + 1
      omega
    · refine (inv.thieves id).keep le_rfl ?_ fun same => ?_
      · show system.deque.top ≤ t + 1
        omega
      · have moved : t + 1 = system.deque.top := same
        omega
    · have balance := inv.balance
      rw [noHeld, List.append_nil] at balance
      show (system.returned ++ [y] ++ []).Perm system.pushed
      rw [List.append_nil]
      exact balance
  · rename_i lost
    refine ⟨items, held, inv.goto ⟨noHeld, isBottom, ?_⟩ ?_⟩
    · omega
    · rw [here]
      rfl

theorem popRestore_inv (inv : Inv system ring items held)
    (here : system.owner = .popRestore b x) :
    ∃ held', Inv system.ownerStep ring items held' := by
  have known := inv.owner
  rw [here] at known
  obtain ⟨isHeld, isBottom, isEmpty⟩ := known
  have length := inv.length
  rw [last, here] at length
  have gap : (.popRestore b x : Owner Task).extra = 1 := rfl
  rw [ownerStep, here]
  dsimp only
  refine ⟨[], inv.current, inv.positive, inv.slots, ?_, inv.fits, rfl, fun id => ?_, inv.order, ?_⟩
  · show system.deque.top + (items.length : Int) = b + 1 + 0
    omega
  · refine (inv.thieves id).keep le_rfl le_rfl fun _ early => ⟨?_, rfl, fun _ _ isSlot => isSlot⟩
    rw [last, here] at early
    show system.deque.top < b + 1 + 0
    omega
  · have balance := inv.balance
    rw [isHeld] at balance
    show (system.returned ++ x.toList ++ [] ++ items).Perm system.pushed
    rw [List.append_nil]
    exact balance

end Pop

theorem ownerStep_inv (inv : Inv system ring items held) :
    ∃ ring' items' held', Inv system.ownerStep ring' items' held' := by
  have known := inv.owner
  cases here : system.owner with
  | idle =>
      rw [ownerStep, here]
      exact ⟨ring, items, held, inv⟩
  | pushTop x b =>
      rw [here] at known
      obtain ⟨noHeld, isBottom⟩ := known
      have length := inv.length
      have fits := inv.fits
      rw [last, here] at length
      have gap : Owner.extra (.pushTop x b) = 0 := rfl
      rw [ownerStep, here]
      exact ⟨ring, items, held, inv.goto ⟨noHeld, isBottom, le_rfl, by omega⟩ (by rw [here]; rfl)⟩
  | pushRing x b t => exact ⟨ring, items, held, pushRing_inv inv here⟩
  | growGet x b t a na i =>
      by_cases inside : i < b
      · rw [here] at known
        obtain ⟨noHeld, growing⟩ := known
        rw [ownerStep, here]
        dsimp only
        rw [if_pos inside]
        have isRing := growing.isRing
        refine ⟨ring, items, held, inv.goto ⟨noHeld, growing, inside, ?_⟩ (by rw [here]; rfl)⟩
        rw [isRing]
        exact Deque.slot_current inv.current i
      · obtain ⟨ring', inv'⟩ := publish_inv inv here inside
        exact ⟨ring', items, held, inv'⟩
  | growPut x b t a na i y =>
      rw [here] at known
      obtain ⟨noHeld, growing, inside, rfl⟩ := known
      rw [ownerStep, here]
      exact ⟨ring, items, held,
        inv.goto ⟨noHeld, growing.put inside inv.positive⟩ (by rw [here]; rfl)⟩
  | pushPut x b a => exact ⟨_, items, held, pushPut_inv inv here⟩
  | pushBottom x b => exact ⟨ring, _, held, pushBottom_inv inv here⟩
  | popRing b =>
      rw [here] at known
      rw [ownerStep, here]
      exact ⟨ring, items, held, inv.goto ⟨known.1, known.2, rfl⟩ (by rw [here]; rfl)⟩
  | popBottom b a => exact ⟨ring, items, held, popBottom_inv inv here⟩
  | popTop b a => exact ⟨ring, popTop_inv inv here⟩
  | popGet b t a => exact ⟨ring, items, popGet_inv inv here⟩
  | popCas b t x => exact ⟨ring, popCas_inv inv here⟩
  | popRestore b x => exact ⟨ring, items, popRestore_inv inv here⟩

/-! ## Runs -/

theorem step_inv (inv : Inv system ring items held) (event : Event Task) :
    ∃ ring' items' held', Inv (system.step event) ring' items' held' := by
  cases event with
  | push x => exact ⟨ring, items, held, push_inv inv x⟩
  | pop => exact ⟨ring, items, held, pop_inv inv⟩
  | owner => exact ownerStep_inv inv
  | steal id => exact ⟨ring, items, held, steal_inv inv id⟩
  | thief id =>
      obtain ⟨items', inv'⟩ := thiefStep_inv inv id
      exact ⟨ring, items', held, inv'⟩

theorem run_inv (events : List (Event Task)) (inv : Inv system ring items held) :
    ∃ ring' items' held', Inv (system.run events) ring' items' held' := by
  induction events generalizing system ring items held with
  | nil => exact ⟨ring, items, held, inv⟩
  | cons event events induction =>
      obtain ⟨ring', items', held', inv'⟩ := step_inv inv event
      exact induction inv'

end System

/-! ## Exactly once -/

/-- What the current ring holds from `top` to `bottom - 1`. -/
def System.live (system : System Task) : List (Option Task) :=
  (List.range (system.deque.bottom - system.deque.top).toNat).map
    fun i => system.deque.slot system.deque.ring (system.deque.top + (i : Nat))

/-- In every interleaving no task is returned more often than it was pushed; and when
no operation is in progress the slots from `top` to `bottom - 1` hold, in the order of
the pushes, exactly the tasks that were pushed and not returned. -/
theorem deque_exactly_once (k : Nat) (events : List (System.Event Task)) :
    let system := (System.initial (2 ^ k)).run events
    system.returned.Subperm system.pushed ∧
      (system.pushed.Nodup → system.returned.Nodup) ∧
      (system.Quiescent → ∃ items, system.live = items.map some ∧
        items.Sublist system.pushed ∧ (system.returned ++ items).Perm system.pushed ∧
        (system.pushed.Nodup →
          ∀ x, x ∈ items ↔ x ∈ system.pushed ∧ x ∉ system.returned)) := by
  intro system
  obtain ⟨ring, items, held, inv⟩ : ∃ ring items held, system.Inv ring items held :=
    System.run_inv events (System.Inv.initial (pow_pos (by decide) k : (0 : Int) < 2 ^ k))
  have returned : system.returned.Subperm system.pushed := by
    refine List.Subperm.trans ?_ inv.balance.subperm
    rw [List.append_assoc]
    exact (List.sublist_append_left _ _).subperm
  refine ⟨returned, fun distinct => ?_, fun quiescent => ?_⟩
  · have whole := inv.balance.nodup_iff.mpr distinct
    rw [List.append_assoc] at whole
    exact (List.nodup_append'.mp whole).1
  · have known := inv.owner
    rw [quiescent.owner] at known
    obtain rfl : held = [] := known
    have balance := inv.balance
    rw [List.append_nil] at balance
    have length := inv.length
    rw [System.last, quiescent.owner] at length
    have gap : (.idle : Owner Task).extra = 0 := rfl
    refine ⟨items, ?_, inv.order, balance, fun distinct x => ?_⟩
    · have count : (system.deque.bottom - system.deque.top).toNat = items.length := by omega
      rw [System.live, count, ← inv.slots.map_get]
      exact List.map_congr_left fun i _ => Deque.slot_current inv.current _
    · have whole := balance.nodup_iff.mpr distinct
      have apart := (List.nodup_append'.mp whole).2.2
      rw [← balance.mem_iff, List.mem_append]
      constructor
      · exact fun isItem => ⟨.inr isItem, fun isReturned => apart isReturned isItem⟩
      · rintro ⟨isReturned | isItem, notReturned⟩
        · exact absurd isReturned notReturned
        · exact isItem

end FoundationsLab.WorkStealing
