import FoundationsLab.Foundation.JavaString
import Mathlib.Data.Nat.Size

/-! # The sketch

`HyperLogLog` as values: a call that throws is an error with its message. A `long` is
a word of 64 bits, and a register is a signed byte. -/

namespace FoundationsLab.Hll

open Foundation
open Foundation.JavaString

abbrev Long := BitVec 64

/-! ## Hashing -/

def mix64 (z : Long) : Long :=
  let z := z + 0x9E3779B97F4A7C15
  let z := (z ^^^ (z >>> 30)) * 0xBF58476D1CE4E5B9
  let z := (z ^^^ (z >>> 27)) * 0x94D049BB133111EB
  z ^^^ (z >>> 31)

def hashBytes (data : Bytes) : Long :=
  mix64 (data.foldl (fun h b => (h ^^^ BitVec.ofNat 64 b.toNat) * 0x100000001B3)
    0xCBF29CE484222325)

def hashString (s : JavaString) : Long := hashBytes (getBytes s)

/-- What the three methods `add` take. -/
inductive Item where
  | long (item : Long)
  | string (item : JavaString)
  | bytes (item : Bytes)
deriving DecidableEq

def Item.hash : Item → Long
  | long item => mix64 item
  | string item => hashString item
  | bytes item => hashBytes item

/-! ## The sketch -/

/-- The two other fields of the class are functions of the precision. -/
structure HyperLogLog where
  precision : Nat
  registers : List Int8
  range : 4 ≤ precision ∧ precision ≤ 18
  size : registers.length = 2 ^ precision

/-- `Long.numberOfLeadingZeros`. -/
def numberOfLeadingZeros (i : Long) : Nat := 64 - i.toNat.size

/-- The conversion of a `long` to an `int`. -/
def intValue (i : Long) : Int := (i.setWidth 32).toInt

/-- `Math.round`. -/
def round (a : Float) : Int64 :=
  let down := a.floor
  if a - down < 0.5 then down.toInt64 else (down + 1).toInt64

namespace HyperLogLog

def registerCount (sketch : HyperLogLog) : Nat := 1 <<< sketch.precision

def alphaFor (m : Nat) : Float :=
  if m = 16 then 0.673
  else if m = 32 then 0.697
  else if m = 64 then 0.709
  else 0.7213 / (1.0 + 1.079 / Float.ofNat m)

def alpha (sketch : HyperLogLog) : Float := alphaFor sketch.registerCount

def new (precision : Int) : Except String HyperLogLog :=
  if inRange : precision < 4 ∨ 18 < precision then
    .error s!"precision must be in 4..18, got {precision}"
  else
    .ok {
      precision := precision.toNat
      registers := List.replicate (1 <<< precision.toNat) 0
      range := by omega
      size := by rw [List.length_replicate, Nat.one_shiftLeft] }

/-- `registers[index] = value`. -/
def setRegister (sketch : HyperLogLog) (index : Nat) (value : Int8) : HyperLogLog :=
  { sketch with
    registers := sketch.registers.set index value
    size := by rw [List.length_set, sketch.size] }

/-! ### Adding -/

def addHash (sketch : HyperLogLog) (hash : Long) : HyperLogLog :=
  let index := (intValue (hash >>> (64 - sketch.precision))).toNat
  let remaining := hash <<< sketch.precision
  let rank := if remaining = 0 then 64 - sketch.precision + 1
    else numberOfLeadingZeros remaining + 1
  if (sketch.registers.getD index 0).toInt < rank then sketch.setRegister index (Int8.ofNat rank)
  else sketch

def add (sketch : HyperLogLog) (item : Item) : HyperLogLog := sketch.addHash item.hash

/-! ### Estimating -/

/-- The loop of `estimate`. -/
def estimateLoop : (registers : List Int8) → (sum : Float) → (zeros : Nat) → Float × Nat
  | [], sum, zeros => (sum, zeros)
  | register :: rest, sum, zeros =>
      estimateLoop rest (sum + 1.0 / ((1 : Int64) <<< register.toInt64).toFloat)
        (if register = 0 then zeros + 1 else zeros)

def estimate (sketch : HyperLogLog) : Int64 :=
  let (sum, zeros) := estimateLoop sketch.registers 0.0 0
  let m := Float.ofNat sketch.registerCount
  let estimate := sketch.alpha * m * m / sum
  if estimate ≤ 2.5 * m ∧ zeros ≠ 0 then round (m * Float.log (m / Float.ofNat zeros))
  else round estimate

/-! ### Merging -/

/-- One round of the loop of `merge`. -/
def mergeRegister (other this : HyperLogLog) (i : Nat) : HyperLogLog :=
  if this.registers.getD i 0 < other.registers.getD i 0 then
    this.setRegister i (other.registers.getD i 0)
  else this

def merge (this other : HyperLogLog) : Except String HyperLogLog :=
  if other.precision ≠ this.precision then
    let mine := this.precision
    let others := other.precision
    .error s!"cannot merge sketches of different precision ({mine} vs {others})"
  else .ok ((List.range this.registerCount).foldl (mergeRegister other) this)

def union (a b : HyperLogLog) : Except String HyperLogLog := do
  let result ← new a.precision
  let result ← result.merge a
  result.merge b

end HyperLogLog

/-! ## A family of sketches -/

/-- A sketch and the items that went into it. -/
structure Tracked where
  sketch : HyperLogLog
  history : List Item

/-- The calls of a program. Sketches are named by their place in the family. -/
inductive Call where
  | new (precision : Int)
  | add (sketch : Nat) (item : Item)
  | merge (sketch other : Nat)
  | union (a b : Nat)

abbrev Family := List Tracked

/-- The family after a call, and whether the call returned. A name that is not in the
family is `null`. -/
def Family.step (family : Family) : Call → Family × Bool
  | .new precision =>
      match HyperLogLog.new precision with
      | .ok sketch => (family ++ [⟨sketch, []⟩], true)
      | .error _ => (family, false)
  | .add i item =>
      match family[i]? with
      | some tracked => (family.set i ⟨tracked.sketch.add item, item :: tracked.history⟩, true)
      | none => (family, false)
  | .merge i j =>
      match family[i]?, family[j]? with
      | some this, some other =>
          match this.sketch.merge other.sketch with
          | .ok sketch => (family.set i ⟨sketch, this.history ++ other.history⟩, true)
          | .error _ => (family, false)
      | _, _ => (family, false)
  | .union i j =>
      match family[i]?, family[j]? with
      | some a, some b =>
          match a.sketch.union b.sketch with
          | .ok sketch => (family ++ [⟨sketch, a.history ++ b.history⟩], true)
          | .error _ => (family, false)
      | _, _ => (family, false)

def Family.run (calls : List Call) : Family :=
  calls.foldl (fun family call => (family.step call).1) []

end FoundationsLab.Hll
