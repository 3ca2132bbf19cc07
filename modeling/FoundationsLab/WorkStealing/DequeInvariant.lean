import FoundationsLab.WorkStealing.Deque
import Mathlib.Data.List.Perm.Subperm
import Mathlib.Data.List.Nodup
import Mathlib.Data.Int.ModEq
import Mathlib.Algebra.Order.Group.Unbundled.Int
import Mathlib.Algebra.Order.Ring.Int

/-! # What the deque holds

In every interleaving the slots from `top` on hold a list of tasks. The list ends
at `bottom`, or one further while the owner has lowered `bottom` and has not yet
decided about the last task. -/

namespace FoundationsLab.WorkStealing

variable {Task : Type}

/-! ## Slots that hold a list -/

/-- The slots from `start` on hold the list. -/
def Ring.Holds (ring : Ring Task) : (start : Int) → List Task → Prop
  | _, [] => True
  | start, x :: rest => ring.get start = some x ∧ ring.Holds (start + 1) rest

namespace Ring

variable {ring : Ring Task}

theorem holds_append : ∀ {start : Int} {front back : List Task},
    ring.Holds start (front ++ back) ↔
      ring.Holds start front ∧ ring.Holds (start + front.length) back
  | start, [], back => by simp [Holds]
  | start, x :: front, back => by
      have shift : start + 1 + (front.length : Int) = start + ((x :: front).length : Nat) := by
        rw [List.length_cons]
        omega
      rw [List.cons_append, Holds, holds_append, Holds, shift, and_assoc]

theorem Holds.congr {ring' : Ring Task} : ∀ {start : Int} {items : List Task},
    ring.Holds start items →
    (∀ i, start ≤ i → i < start + items.length → ring'.get i = ring.get i) →
    ring'.Holds start items
  | _, [], _, _ => trivial
  | start, x :: rest, holds, same => by
      rw [List.length_cons] at same
      refine ⟨(same start le_rfl (by omega)).trans holds.1, holds.2.congr fun i lower upper => ?_⟩
      exact same i (by omega) (by omega)

/-- The slots as they are read from `start` on. -/
theorem Holds.map_get : ∀ {start : Int} {items : List Task}, ring.Holds start items →
    (List.range items.length).map (fun i => ring.get (start + (i : Nat))) = items.map some
  | _, [], _ => rfl
  | start, x :: rest, holds => by
      rw [List.length_cons, List.range_succ_eq_map, List.map_cons, List.map_map, List.map_cons,
        ← holds.2.map_get]
      refine congrArg₂ List.cons (by simpa using holds.1) (List.map_congr_left fun i _ => ?_)
      simp only [Function.comp_apply, Nat.succ_eq_add_one, Nat.cast_add, Nat.cast_one]
      rw [add_comm (i : Int) 1, add_assoc]

theorem get_put_self (ring : Ring Task) (i : Int) (x : Option Task) :
    (ring.put i x).get i = x :=
  Function.update_self ..

/-- Within one turn of the ring a write leaves the other slots alone. -/
theorem get_put_of_ne (ring : Ring Task) {i j : Int} (x : Option Task) (different : i ≠ j)
    (lower : i - ring.cap < j) (upper : j < i + ring.cap) :
    (ring.put i x).get j = ring.get j := by
  refine Function.update_of_ne (fun same => different ?_) _ _
  have congruent : ring.cap ∣ j - i := Int.ModEq.dvd (Eq.symm same)
  have zero : j - i = 0 := Int.eq_zero_of_abs_lt_dvd congruent (by rw [abs_lt]; omega)
  omega

end Ring

/-! ## Slots of the shared memory -/

namespace Deque

variable {deque : Deque Task} {ring : Ring Task}

theorem slot_current (current : deque.rings[deque.ring]? = some ring) (i : Int) :
    deque.slot deque.ring i = ring.get i := by
  rw [slot, current]
  rfl

theorem capacity_current (current : deque.rings[deque.ring]? = some ring) :
    deque.capacity deque.ring = ring.cap := by
  rw [capacity, current]
  rfl

theorem rings_putSlot (current : deque.rings[deque.ring]? = some ring) (i : Int)
    (x : Option Task) :
    (deque.putSlot deque.ring i x).rings[deque.ring]? = some (ring.put i x) := by
  rw [putSlot, List.getElem?_modify_eq, current]
  rfl

theorem slot_putSlot_of_ne {a a' : Nat} (different : a ≠ a') (i j : Int) (x : Option Task) :
    (deque.putSlot a i x).slot a' j = deque.slot a' j := by
  rw [slot, putSlot, List.getElem?_modify_ne _ _ different]
  rfl

theorem slot_publish {a : Nat} (inside : a < deque.rings.length) (na : Ring Task) (j : Int) :
    (deque.publish na).slot a j = deque.slot a j := by
  rw [slot, publish, List.getElem?_append_left inside]
  rfl

end Deque

/-! ## The invariant -/

/-- How far the last task is behind `bottom`: the owner has lowered `bottom` but may
still lose the task to a thief. -/
def Owner.extra : Owner Task → Int
  | .popTop .. => 1
  | .popGet b t _ => if t = b then 1 else 0
  | .popCas .. => 1
  | .popRestore .. => 1
  | _ => 0

theorem Owner.extra_nonneg (owner : Owner Task) : 0 ≤ owner.extra := by
  cases owner with
  | popGet b t a =>
      rw [extra]
      split
      · exact zero_le_one
      · exact le_rfl
  | popTop | popCas | popRestore => exact zero_le_one
  | _ => exact le_rfl

/-- A push that has to make the ring larger. -/
structure Growing (deque : Deque Task) (ring : Ring Task) (b t : Int) (a : Nat) (na : Ring Task)
    (i : Int) : Prop where
  bottom : b = deque.bottom
  top : t ≤ deque.top
  room : b - t ≤ ring.cap
  isRing : a = deque.ring
  cap : na.cap = ring.cap * 2
  lower : t ≤ i
  upper : i ≤ b
  copied : ∀ j, t ≤ j → j < i → na.get j = ring.get j

/-- What the local variables of the owner say, and the task in its hands. -/
def OwnerInv (deque : Deque Task) (ring : Ring Task) (held : List Task) : Owner Task → Prop
  | .idle => held = []
  | .pushTop _ b => held = [] ∧ b = deque.bottom
  | .pushRing _ b t => held = [] ∧ b = deque.bottom ∧ t ≤ deque.top ∧ b - t ≤ ring.cap
  | .growGet _ b t a na i => held = [] ∧ Growing deque ring b t a na i
  | .growPut _ b t a na i y => held = [] ∧ Growing deque ring b t a na i ∧ i < b ∧ y = ring.get i
  | .pushPut _ b a => held = [] ∧ b = deque.bottom ∧ a = deque.ring ∧ b - deque.top < ring.cap
  | .pushBottom x b =>
      held = [] ∧ b = deque.bottom ∧ b - deque.top < ring.cap ∧ ring.get b = some x
  | .popRing b => held = [] ∧ b = deque.bottom - 1
  | .popBottom b a => held = [] ∧ b = deque.bottom - 1 ∧ a = deque.ring
  | .popTop b a => held = [] ∧ b = deque.bottom ∧ a = deque.ring
  | .popGet b t a => b = deque.bottom ∧ a = deque.ring ∧ t ≤ b ∧ t ≤ deque.top ∧
      held = if t = b then [] else (ring.get b).toList
  | .popCas b t x =>
      held = [] ∧ b = deque.bottom ∧ t = b ∧ t ≤ deque.top ∧ x = ring.get b
  | .popRestore b x => held = x.toList ∧ b = deque.bottom ∧ deque.top = b + 1

/-- What a thief has read is still there as long as `top` has not moved. -/
def ThiefInv (deque : Deque Task) (ring : Ring Task) (last : Int) : Thief Task → Prop
  | .idle => True
  | .stealBottom t => t ≤ deque.top
  | .stealRing t => t ≤ deque.top ∧ (t = deque.top → t < last)
  | .stealGet t a => a < deque.rings.length ∧ t ≤ deque.top ∧
      (t = deque.top → t < last ∧ deque.slot a t = ring.get t)
  | .stealCas t x => t ≤ deque.top ∧ (t = deque.top → t < last ∧ x = ring.get t)

namespace System

/-- The tasks in the ring end before this index. -/
def last (system : System Task) : Int := system.deque.bottom + system.owner.extra

structure Inv (system : System Task) (ring : Ring Task) (items held : List Task) : Prop where
  current : system.deque.rings[system.deque.ring]? = some ring
  positive : 0 < ring.cap
  slots : ring.Holds system.deque.top items
  length : system.deque.top + items.length = system.last
  fits : items.length ≤ ring.cap
  owner : OwnerInv system.deque ring held system.owner
  thieves : ∀ id, ThiefInv system.deque ring system.last (system.thieves id)
  order : items.Sublist system.pushed
  balance : (system.returned ++ held ++ items).Perm system.pushed

theorem Inv.initial {cap : Int} (positive : 0 < cap) :
    Inv (initial cap : System Task) (.new cap) [] [] where
  current := rfl
  positive := positive
  slots := trivial
  length := rfl
  fits := positive.le
  owner := rfl
  thieves _ := trivial
  order := List.Sublist.refl _
  balance := List.Perm.refl _

end System

/-- A thief keeps what it knows when `top` stays and the first task does, or when `top`
moves on. -/
theorem ThiefInv.keep {deque deque' : Deque Task} {ring ring' : Ring Task} {last last' : Int}
    {thief : Thief Task} (known : ThiefInv deque ring last thief)
    (rings : deque.rings.length ≤ deque'.rings.length) (top : deque.top ≤ deque'.top)
    (same : deque'.top = deque.top → deque.top < last → deque.top < last' ∧
      ring'.get deque.top = ring.get deque.top ∧ ∀ a, a < deque.rings.length →
        deque.slot a deque.top = ring.get deque.top →
          deque'.slot a deque.top = ring.get deque.top) :
    ThiefInv deque' ring' last' thief := by
  cases thief with
  | idle => trivial
  | stealBottom t => exact le_trans known top
  | stealRing t =>
      obtain ⟨below, first⟩ := known
      refine ⟨below.trans top, fun isTop => ?_⟩
      have unmoved : deque'.top = deque.top := by omega
      obtain rfl : t = deque.top := by omega
      exact (same unmoved (first rfl)).1
  | stealGet t a =>
      obtain ⟨inside, below, first⟩ := known
      refine ⟨by omega, below.trans top, fun isTop => ?_⟩
      have unmoved : deque'.top = deque.top := by omega
      obtain rfl : t = deque.top := by omega
      obtain ⟨early, isSlot⟩ := first rfl
      obtain ⟨early', sameRing, sameSlot⟩ := same unmoved early
      exact ⟨early', (sameSlot a inside isSlot).trans sameRing.symm⟩
  | stealCas t x =>
      obtain ⟨below, first⟩ := known
      refine ⟨below.trans top, fun isTop => ?_⟩
      have unmoved : deque'.top = deque.top := by omega
      obtain rfl : t = deque.top := by omega
      obtain ⟨early, isTask⟩ := first rfl
      obtain ⟨early', sameRing, -⟩ := same unmoved early
      exact ⟨early', isTask.trans sameRing.symm⟩

end FoundationsLab.WorkStealing
