import FoundationsLab.Hll.HyperLogLog
import Mathlib.Data.Finset.Lattice.Fold
import Mathlib.Order.Lattice
import Mathlib.Order.Lattice.Nat

/-! # What the registers hold

A register is the maximum of the ranks of the hashes that select it. As a maximum over
a set it does not depend on order, repetition or the tree of merges. -/

namespace FoundationsLab.Hll

open Foundation

/-! ## Registers and ranks of hashes -/

/-- The register that the top bits of a hash select. -/
def registerOf (precision : Nat) (hash : Long) : Nat := hash.toNat / 2 ^ (64 - precision)

/-- The bits of a hash below the ones that select the register. -/
def restOf (precision : Nat) (hash : Long) : Nat := hash.toNat % 2 ^ (64 - precision)

/-- The place of the first one among the remaining bits, or the place behind them. -/
def rankOf (precision : Nat) (hash : Long) : Nat :=
  64 - precision + 1 - (restOf precision hash).size

/-- The maximum rank over the hashes that select a register, `0` if none does. -/
def maxRank (precision : Nat) (hashes : Finset Long) (register : Nat) : Nat :=
  (hashes.filter fun hash => registerOf precision hash = register).sup (rankOf precision)

section Ranks

variable {precision : Nat}

/-- The first `zeros` of the remaining bits are zero exactly when the rank is behind them. -/
theorem lt_rankOf_iff (hash : Long) {zeros : Nat} (inside : zeros ≤ 64 - precision) :
    zeros < rankOf precision hash ↔ restOf precision hash < 2 ^ (64 - precision - zeros) := by
  rw [← Nat.size_le, rankOf]
  omega

theorem rankOf_le (precision : Nat) (hash : Long) : rankOf precision hash ≤ 64 - precision + 1 :=
  Nat.sub_le _ _

theorem maxRank_le (precision : Nat) (hashes : Finset Long) (register : Nat) :
    maxRank precision hashes register ≤ 64 - precision + 1 :=
  Finset.sup_le fun hash _ => rankOf_le precision hash

theorem maxRank_insert (precision : Nat) (hash : Long) (hashes : Finset Long) (register : Nat) :
    maxRank precision (insert hash hashes) register =
      if registerOf precision hash = register then
        max (rankOf precision hash) (maxRank precision hashes register)
      else maxRank precision hashes register := by
  rw [maxRank, Finset.filter_insert]
  split
  · rw [Finset.sup_insert]
    rfl
  · rfl

theorem maxRank_union (precision : Nat) (left right : Finset Long) (register : Nat) :
    maxRank precision (left ∪ right) register =
      max (maxRank precision left register) (maxRank precision right register) := by
  rw [maxRank, Finset.filter_union, Finset.sup_union]
  rfl

/-! ## What `addHash` computes -/

theorem registerOf_lt (hash : Long) (bound : precision ≤ 64) :
    registerOf precision hash < 2 ^ precision := by
  rw [registerOf, Nat.div_lt_iff_lt_mul (Nat.two_pow_pos _), ← Nat.pow_add]
  have width : precision + (64 - precision) = 64 := by omega
  rw [width]
  exact hash.isLt

theorem index_eq (hash : Long) (bound : precision ≤ 18) :
    (intValue (hash >>> (64 - precision))).toNat = registerOf precision hash := by
  have small : registerOf precision hash < 2 ^ 18 :=
    (registerOf_lt hash (by omega)).trans_le (Nat.pow_le_pow_right (by decide) bound)
  have shifted : (hash >>> (64 - precision)).toNat = registerOf precision hash := by
    rw [BitVec.toNat_ushiftRight, Nat.shiftRight_eq_div_pow]
    rfl
  have truncated : ((hash >>> (64 - precision)).setWidth 32).toNat = registerOf precision hash := by
    rw [BitVec.toNat_setWidth, shifted]
    exact Nat.mod_eq_of_lt (by omega)
  rw [intValue, BitVec.toInt_eq_toNat_of_lt (by omega), truncated, Int.toNat_natCast]

theorem remaining_eq (hash : Long) (bound : precision ≤ 64) :
    (hash <<< precision).toNat = restOf precision hash * 2 ^ precision := by
  have width : 2 ^ 64 = 2 ^ (64 - precision) * 2 ^ precision := by
    rw [← Nat.pow_add]
    congr 1
    omega
  rw [BitVec.toNat_shiftLeft, Nat.shiftLeft_eq, restOf, width, Nat.mul_mod_mul_right]

theorem rank_eq (hash : Long) (bound : precision ≤ 18) :
    (if hash <<< precision = 0 then 64 - precision + 1
      else numberOfLeadingZeros (hash <<< precision) + 1) = rankOf precision hash := by
  have remaining := remaining_eq hash (by omega : precision ≤ 64)
  have positive : 0 < 2 ^ precision := Nat.two_pow_pos precision
  by_cases isZero : restOf precision hash = 0
  · have noBits : hash <<< precision = 0 := by
      apply BitVec.eq_of_toNat_eq
      rw [remaining, isZero]
      simp
    rw [if_pos noBits, rankOf, isZero, Nat.size_zero]
    rfl
  · have someBit : hash <<< precision ≠ 0 := by
      intro noBits
      rw [noBits] at remaining
      have product : restOf precision hash * 2 ^ precision = 0 := by simpa using remaining.symm
      rcases Nat.mul_eq_zero.mp product with rest | power <;> omega
    have size : (restOf precision hash * 2 ^ precision).size =
        (restOf precision hash).size + precision := by
      rw [← Nat.shiftLeft_eq]
      exact Nat.size_shiftLeft isZero precision
    have inRest : (restOf precision hash).size ≤ 64 - precision :=
      Nat.size_le.mpr (Nat.mod_lt _ (Nat.two_pow_pos _))
    rw [if_neg someBit, numberOfLeadingZeros, remaining, size, rankOf]
    omega

end Ranks

/-! ## Registers of a sketch -/

namespace HyperLogLog

variable {sketch this other : HyperLogLog}

/-- A register as a number. -/
def value (sketch : HyperLogLog) (register : Nat) : Int := (sketch.registers.getD register 0).toInt

theorem value_setRegister (sketch : HyperLogLog) {index : Nat}
    (inside : index < 2 ^ sketch.precision) (byte : Int8) (register : Nat) :
    (sketch.setRegister index byte).value register =
      if register = index then byte.toInt else sketch.value register := by
  have bound : index < sketch.registers.length := by rwa [sketch.size]
  rw [value, setRegister]
  dsimp only
  rw [List.getD_eq_getElem?_getD, List.getElem?_set]
  by_cases same : register = index
  · rw [if_pos same, if_pos same.symm, if_pos bound]
    rfl
  · rw [if_neg same, if_neg (Ne.symm same), value, List.getD_eq_getElem?_getD]

/-- The registers are the maxima over a set of hashes. -/
def Holds (sketch : HyperLogLog) (hashes : Finset Long) : Prop :=
  ∀ register, register < 2 ^ sketch.precision →
    sketch.value register = maxRank sketch.precision hashes register

theorem addHash_precision (sketch : HyperLogLog) (hash : Long) :
    (sketch.addHash hash).precision = sketch.precision := by
  rw [addHash, rank_eq hash sketch.range.2]
  split <;> rfl

theorem Holds.addHash {hashes : Finset Long} (holds : sketch.Holds hashes) (hash : Long) :
    (sketch.addHash hash).Holds (insert hash hashes) := by
  have bound := sketch.range.2
  have inside := registerOf_lt hash (by omega : sketch.precision ≤ 64)
  have rankBound := rankOf_le sketch.precision hash
  have byte : (Int8.ofNat (rankOf sketch.precision hash)).toInt = rankOf sketch.precision hash :=
    Int8.toInt_ofNat_of_lt (by omega)
  intro register isRegister
  rw [addHash_precision] at isRegister ⊢
  have before := holds register isRegister
  rw [maxRank_insert, HyperLogLog.addHash, index_eq hash bound, rank_eq hash bound]
  have selected := holds (registerOf sketch.precision hash) inside
  rw [value] at selected
  split
  · rename_i larger
    rw [value_setRegister sketch inside, byte]
    by_cases same : register = registerOf sketch.precision hash
    · subst same
      rw [if_pos rfl, if_pos rfl, max_eq_left]
      omega
    · rw [if_neg same, if_neg (Ne.symm same)]
      exact before
  · rename_i notLarger
    by_cases same : registerOf sketch.precision hash = register
    · subst same
      rw [if_pos rfl, before, max_eq_right]
      omega
    · rw [if_neg same]
      exact before

/-! ## Merging -/

theorem mergeRegister_precision (other this : HyperLogLog) (i : Nat) :
    (mergeRegister other this i).precision = this.precision := by
  rw [mergeRegister]
  split <;> rfl

theorem value_mergeRegister (other this : HyperLogLog) {i : Nat} (inside : i < 2 ^ this.precision)
    (register : Nat) :
    (mergeRegister other this i).value register =
      if register = i then max (this.value i) (other.value i) else this.value register := by
  rw [mergeRegister]
  by_cases larger : this.registers.getD i 0 < other.registers.getD i 0
  · have below : this.value i < other.value i := Int8.lt_iff_toInt_lt.mp larger
    rw [if_pos larger, value_setRegister this inside, max_eq_right below.le]
    rfl
  · have above : other.value i ≤ this.value i := by
      have notBelow : ¬ this.value i < other.value i := fun below =>
        larger (Int8.lt_iff_toInt_lt.mpr below)
      omega
    rw [if_neg larger, max_eq_left above]
    split
    · rename_i same
      rw [same]
    · rfl

/-- After some rounds the registers that were visited are merged, and the others are not. -/
theorem value_mergeLoop (other this : HyperLogLog) (rounds : Nat)
    (inside : rounds ≤ 2 ^ this.precision) :
    ((List.range rounds).foldl (mergeRegister other) this).precision = this.precision ∧
      ∀ register, ((List.range rounds).foldl (mergeRegister other) this).value register =
        if register < rounds then max (this.value register) (other.value register)
        else this.value register := by
  induction rounds with
  | zero => exact ⟨rfl, fun register => rfl⟩
  | succ rounds induction =>
      obtain ⟨precision, values⟩ := induction (by omega)
      rw [List.range_succ, List.foldl_append]
      refine ⟨(mergeRegister_precision _ _ _).trans precision, fun register => ?_⟩
      have step := value_mergeRegister other
        ((List.range rounds).foldl (mergeRegister other) this) (i := rounds)
        (by rw [precision]; omega) register
      refine step.trans ?_
      rw [values rounds, if_neg (lt_irrefl rounds), values register]
      by_cases same : register = rounds
      · rw [if_pos same, if_pos (by omega), same]
      · rw [if_neg same]
        by_cases earlier : register < rounds
        · rw [if_pos earlier, if_pos (by omega)]
        · rw [if_neg earlier, if_neg (by omega)]

theorem merge_ok {merged : HyperLogLog} (returned : this.merge other = .ok merged) :
    other.precision = this.precision ∧ merged.precision = this.precision ∧
      ∀ register, register < 2 ^ this.precision →
        merged.value register = max (this.value register) (other.value register) := by
  rw [merge] at returned
  split at returned
  · exact absurd returned (by simp)
  · rename_i same
    obtain rfl := Except.ok.inj returned
    have count : this.registerCount = 2 ^ this.precision := by
      rw [registerCount, Nat.one_shiftLeft]
    obtain ⟨precision, values⟩ := value_mergeLoop other this this.registerCount (by omega)
    refine ⟨not_not.mp same, precision, fun register inside => ?_⟩
    rw [values, if_pos (by omega)]

theorem merge_throws (different : this.precision ≠ other.precision) :
    ∃ message, this.merge other = .error message := by
  rw [merge, if_pos (Ne.symm different)]
  exact ⟨_, rfl⟩

theorem Holds.merge {merged : HyperLogLog} {hashes others : Finset Long}
    (holds : this.Holds hashes) (otherHolds : other.Holds others)
    (returned : this.merge other = .ok merged) : merged.Holds (hashes ∪ others) := by
  obtain ⟨same, precision, values⟩ := merge_ok returned
  intro register inside
  rw [precision] at inside ⊢
  have mine := holds register inside
  have theirs := otherHolds register (by rw [same]; exact inside)
  rw [same] at theirs
  rw [values register inside, mine, theirs, maxRank_union]
  omega

theorem new_ok {precision : Int} (returned : new precision = .ok sketch) :
    sketch.precision = precision.toNat ∧ sketch.Holds ∅ := by
  rw [new] at returned
  split at returned
  · exact absurd returned (by simp)
  · obtain rfl := Except.ok.inj returned
    refine ⟨rfl, fun register inside => ?_⟩
    have zero : (List.replicate (1 <<< precision.toNat) (0 : Int8)).getD register 0 = 0 := by
      rw [List.getD_eq_getElem?_getD, List.getElem?_replicate]
      split <;> rfl
    have empty : maxRank precision.toNat ∅ register = 0 := rfl
    rw [value, zero, empty]
    rfl

theorem Holds.union {a b merged : HyperLogLog} {hashes others : Finset Long}
    (holds : a.Holds hashes) (otherHolds : b.Holds others)
    (returned : HyperLogLog.union a b = .ok merged) : merged.Holds (hashes ∪ others) := by
  rw [HyperLogLog.union] at returned
  cases isNew : new a.precision with
  | error message =>
      rw [isNew] at returned
      exact absurd returned (by simp [bind, Except.bind])
  | ok empty =>
      obtain ⟨-, isEmpty⟩ := new_ok isNew
      rw [isNew] at returned
      cases first : empty.merge a with
      | error message =>
          have failed : (Except.error message : Except String HyperLogLog) = .ok merged := by
            simpa only [bind, Except.bind, first] using returned
          exact absurd failed (by simp)
      | ok copy =>
          have second : copy.merge b = .ok merged := by
            simpa only [bind, Except.bind, first] using returned
          have copied := isEmpty.merge holds first
          rw [Finset.empty_union] at copied
          exact copied.merge otherHolds second

/-- Sketches of one precision that hold the same hashes are the same. -/
theorem Holds.unique {hashes : Finset Long} (holds : this.Holds hashes)
    (otherHolds : other.Holds hashes) (same : this.precision = other.precision) : this = other := by
  have registers : this.registers = other.registers := by
    apply List.ext_getElem
    · rw [this.size, other.size, same]
    · intro register inThis inOther
      have inside : register < 2 ^ this.precision := by rwa [← this.size]
      have mine := holds register inside
      have theirs := otherHolds register (by rwa [← same])
      rw [← same, ← mine, value, value] at theirs
      have bytes := Int8.toInt_inj.mp theirs
      rw [List.getD_eq_getElem?_getD, List.getD_eq_getElem?_getD,
        List.getElem?_eq_getElem inThis, List.getElem?_eq_getElem inOther] at bytes
      exact bytes.symm
  obtain ⟨precision, bytes, range, size⟩ := this
  obtain ⟨precision', bytes', range', size'⟩ := other
  obtain rfl : precision = precision' := same
  obtain rfl : bytes = bytes' := registers
  rfl

end HyperLogLog

/-! ## Families -/

/-- The hashes of the items that went into a sketch. -/
def Tracked.hashes (tracked : Tracked) : Finset Long := (tracked.history.map Item.hash).toFinset

def Tracked.Faithful (tracked : Tracked) : Prop := tracked.sketch.Holds tracked.hashes

/-- Every sketch holds the items of its history. -/
def Family.Faithful (family : Family) : Prop := ∀ tracked ∈ family, tracked.Faithful

section Families

variable {family : Family}

theorem hashes_append (sketch : HyperLogLog) (front back : List Item) :
    (Tracked.mk sketch (front ++ back)).hashes =
      (Tracked.mk sketch front).hashes ∪ (Tracked.mk sketch back).hashes := by
  rw [Tracked.hashes, List.map_append, List.toFinset_append]
  rfl

theorem Family.Faithful.snoc (faithful : family.Faithful) {tracked : Tracked}
    (isNew : tracked.Faithful) : Family.Faithful (family ++ [tracked]) := by
  intro other member
  rcases List.mem_append.mp member with isOld | isLast
  · exact faithful other isOld
  · obtain rfl := List.mem_singleton.mp isLast
    exact isNew

theorem Family.Faithful.set (faithful : family.Faithful) (i : Nat) {tracked : Tracked}
    (isNew : tracked.Faithful) : Family.Faithful (family.set i tracked) := by
  intro other member
  rcases List.mem_or_eq_of_mem_set member with isOld | rfl
  · exact faithful other isOld
  · exact isNew

theorem Family.Faithful.step (faithful : family.Faithful) (call : Call) :
    (family.step call).1.Faithful := by
  cases call with
  | new precision =>
      rw [Family.step]
      split
      · rename_i sketch returned
        exact faithful.snoc (HyperLogLog.new_ok returned).2
      · exact faithful
  | add i item =>
      rw [Family.step]
      split
      · rename_i tracked found
        refine faithful.set i ?_
        have holds := faithful tracked (List.mem_of_getElem? found)
        have added : (Tracked.mk (tracked.sketch.add item) (item :: tracked.history)).hashes =
            insert item.hash tracked.hashes := by
          rw [Tracked.hashes, List.map_cons, List.toFinset_cons]
          rfl
        rw [Tracked.Faithful, added]
        exact holds.addHash item.hash
      · exact faithful
  | merge i j =>
      rw [Family.step]
      split
      · rename_i this other foundThis foundOther
        split
        · rename_i sketch returned
          refine faithful.set i ?_
          rw [Tracked.Faithful, hashes_append]
          exact (faithful this (List.mem_of_getElem? foundThis)).merge
            (faithful other (List.mem_of_getElem? foundOther)) returned
        · exact faithful
      · exact faithful
  | union i j =>
      rw [Family.step]
      split
      · rename_i a b foundA foundB
        split
        · rename_i sketch returned
          refine faithful.snoc ?_
          rw [Tracked.Faithful, hashes_append]
          exact (faithful a (List.mem_of_getElem? foundA)).union
            (faithful b (List.mem_of_getElem? foundB)) returned
        · exact faithful
      · exact faithful

theorem run_faithful (calls : List Call) : (Family.run calls).Faithful := by
  induction calls using List.reverseRecOn with
  | nil => exact fun tracked member => absurd member List.not_mem_nil
  | append_singleton calls call induction =>
      rw [Family.run, List.foldl_append]
      exact induction.step call

theorem Tracked.hashes_congr {tracked other : Tracked}
    (same : ∀ item, item ∈ tracked.history ↔ item ∈ other.history) :
    tracked.hashes = other.hashes := by
  ext hash
  simp only [Tracked.hashes, List.mem_toFinset, List.mem_map, same]

theorem union_unchanged (a b i : Nat) {tracked : Tracked} (found : family[i]? = some tracked) :
    (family.step (.union a b)).1[i]? = some tracked := by
  have inside : i < family.length := (List.getElem?_eq_some_iff.mp found).1
  rw [Family.step]
  split
  · split
    · rw [List.getElem?_append_left inside]
      exact found
    · exact found
  · exact found

theorem merge_unchanged {i j : Nat} {this other : Tracked} (foundThis : family[i]? = some this)
    (foundOther : family[j]? = some other)
    (different : this.sketch.precision ≠ other.sketch.precision) :
    family.step (.merge i j) = (family, false) := by
  obtain ⟨message, throws⟩ := HyperLogLog.merge_throws different
  rw [Family.step, foundThis, foundOther]
  dsimp only
  rw [throws]

end Families

/-- After any calls, the registers of every sketch are the maximum ranks over the items
of its history, sketches with the same items are the same, a union changes no sketch and
a merge of different precisions throws and changes nothing. -/
theorem sketches_homomorphic (calls : List Call) :
    (∀ tracked ∈ Family.run calls,
      (4 ≤ tracked.sketch.precision ∧ tracked.sketch.precision ≤ 18) ∧
        tracked.sketch.registers.length = 2 ^ tracked.sketch.precision ∧
        ∀ register, register < 2 ^ tracked.sketch.precision →
          tracked.sketch.value register =
              maxRank tracked.sketch.precision tracked.hashes register ∧
            tracked.sketch.value register ≤ (64 - tracked.sketch.precision + 1 : Nat)) ∧
    (∀ others, ∀ tracked ∈ Family.run calls, ∀ other ∈ Family.run others,
      tracked.sketch.precision = other.sketch.precision →
        (∀ item, item ∈ tracked.history ↔ item ∈ other.history) →
          tracked.sketch = other.sketch ∧ tracked.sketch.estimate = other.sketch.estimate) ∧
    (∀ (a b i : Nat) (tracked : Tracked), (Family.run calls)[i]? = some tracked →
      ((Family.run calls).step (.union a b)).1[i]? = some tracked) ∧
    ∀ (i j : Nat) (this other : Tracked), (Family.run calls)[i]? = some this →
      (Family.run calls)[j]? = some other →
      this.sketch.precision ≠ other.sketch.precision →
        (Family.run calls).step (.merge i j) = (Family.run calls, false) := by
  have faithful := run_faithful calls
  refine ⟨fun tracked member => ⟨tracked.sketch.range, tracked.sketch.size, ?_⟩, ?_, ?_, ?_⟩
  · intro register inside
    have isValue := faithful tracked member register inside
    have bound := maxRank_le tracked.sketch.precision tracked.hashes register
    refine ⟨isValue, ?_⟩
    rw [isValue]
    omega
  · intro others tracked member other otherMember same items
    have holds := faithful tracked member
    have otherHolds := run_faithful others other otherMember
    rw [Tracked.Faithful, ← Tracked.hashes_congr items] at otherHolds
    have isSame := holds.unique otherHolds same
    exact ⟨isSame, congrArg HyperLogLog.estimate isSame⟩
  · intro a b i tracked found
    exact union_unchanged a b i found
  · intro i j this other foundThis foundOther different
    exact merge_unchanged foundThis foundOther different

/-- Two shards that are merged, and the same items added to one sketch. -/
example : ((Family.run [.new 4, .new 4, .add 0 (.long 1), .add 1 (.long 2), .merge 0 1])[0]?.map
      (·.sketch.registers)) =
    ((Family.run [.new 4, .add 0 (.long 2), .add 0 (.long 1), .add 0 (.long 2)])[0]?.map
      (·.sketch.registers)) := by
  decide +kernel

end FoundationsLab.Hll
