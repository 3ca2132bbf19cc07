import FoundationsLab.Foundation.Bytes
import Mathlib.Data.Int.Basic

/-! # The Bloom filter

A bit array with the positions of every key that was added. The sizes come from
floating-point formulas, which are parameters here. -/

namespace FoundationsLab.Lsm

open Foundation

/-- What the formulas for the number of bits (at the rate `0.01`) and the number of
hashes give before the code takes the maximum with `64` and `1`. -/
structure Sizing where
  ceilBits : Nat → Nat
  roundHashes : Nat → Nat → Nat
  roundHashes_lt : ∀ n m, roundHashes n m < 2 ^ 31

structure BloomFilter where
  bits : List (BitVec 64)
  numBits : Int
  numHashes : Int

namespace BloomFilter

def optimalBits (sizing : Sizing) (n : Nat) : Nat := sizing.ceilBits n

def optimalHashes (sizing : Sizing) (n m : Nat) : Nat := max 1 (sizing.roundHashes n m)

/-- An empty filter for a number of keys. -/
def new (sizing : Sizing) (expectedKeys : Nat) : BloomFilter :=
  let numBits := max 64 (optimalBits sizing (max 1 expectedKeys))
  { bits := List.replicate ((numBits + 63) / 64) 0
    numBits := numBits
    numHashes := optimalHashes sizing (max 1 expectedKeys) numBits }

def hash (key : Bytes) (seed : BitVec 64) : BitVec 64 :=
  let h := seed ^^^ 0xCBF29CE484222325
  let h := key.foldl (fun h b => (h ^^^ BitVec.ofNat 64 b.toNat) * 0x100000001B3) h
  let h := h ^^^ (h >>> 33)
  let h := h * 0xFF51AFD7ED558CCD
  h ^^^ (h >>> 33)

/-- The position number `i` of a key. -/
def position (numBits : Int) (key : Bytes) (i : Nat) : Int :=
  let h₁ := hash key 0x9E3779B97F4A7C15
  let h₂ := hash key 0xC2B2AE3D27D4EB4F
  (h₁ + BitVec.ofNat 64 i * h₂).toInt.fmod numBits

/-- `(int) (bit >>> 6)`. -/
def wordIndex (bit : Int) : Int := signed 32 ((bit % 2 ^ 64).toNat / 64 % 2 ^ 32)

/-- `1L << (bit & 63)`. -/
def bitMask (bit : Int) : BitVec 64 := 1#64 <<< (bit % 64).toNat

def setBit (bits : List (BitVec 64)) (bit : Int) : List (BitVec 64) :=
  bits.modify (wordIndex bit).toNat (· ||| bitMask bit)

def testBit (bits : List (BitVec 64)) (bit : Int) : Option Bool :=
  if wordIndex bit < 0 then none
  else bits[(wordIndex bit).toNat]?.map fun word => decide (word &&& bitMask bit ≠ 0)

def add (filter : BloomFilter) (key : Bytes) : BloomFilter :=
  let bits := (List.range filter.numHashes.toNat).foldl
    (fun bits i => setBit bits (position filter.numBits key i)) filter.bits
  { filter with bits }

/-- The positions from number `i` on, `rest` of them. -/
def mightContainFrom (filter : BloomFilter) (key : Bytes) : (rest i : Nat) → Option Bool
  | 0, _ => some true
  | rest + 1, i =>
      if filter.numBits = 0 then none
      else do
        if ← testBit filter.bits (position filter.numBits key i) then
          mightContainFrom filter key rest (i + 1)
        else some false

def mightContain (filter : BloomFilter) (key : Bytes) : Option Bool :=
  mightContainFrom filter key filter.numHashes.toNat 0

def writeTo (filter : BloomFilter) : Bytes :=
  writeLong filter.numBits.toNat ++ writeInt filter.numHashes.toNat ++
    writeInt filter.bits.length ++ filter.bits.flatMap fun word => writeLong word.toNat

def readWords : (count : Nat) → Bytes → Option (List (BitVec 64) × Bytes)
  | 0, bytes => some ([], bytes)
  | count + 1, bytes => do
      let (word, bytes) ← readUnsigned 8 bytes
      let (words, bytes) ← readWords count bytes
      some (BitVec.ofNat 64 word :: words, bytes)

def readFrom (bytes : Bytes) : Option (BloomFilter × Bytes) := do
  let (numBits, bytes) ← readLong bytes
  let (numHashes, bytes) ← readInt bytes
  let (len, bytes) ← readInt bytes
  if len < 0 then none
  else do
    let (bits, bytes) ← readWords len.toNat bytes
    some (⟨bits, numBits, numHashes⟩, bytes)

/-! ## Bits -/

theorem masked_ne_zero (word : BitVec 64) (bit : Int) :
    word &&& bitMask bit ≠ 0 ↔ word.getLsbD (bit % 64).toNat = true := by
  have small : (bit % 64).toNat < 64 := by omega
  rw [bitMask, ← BitVec.twoPow_eq, BitVec.and_twoPow]
  cases isSet : word.getLsbD (bit % 64).toNat with
  | false => simp
  | true =>
      refine iff_of_true (fun isZero => ?_) rfl
      have atBit := congrArg (fun x : BitVec 64 => x.getLsbD (bit % 64).toNat) isZero
      simp [small] at atBit

theorem testBit_eq_true {bits : List (BitVec 64)} {bit : Int} :
    testBit bits bit = some true ↔ 0 ≤ wordIndex bit ∧
      ∃ word, bits[(wordIndex bit).toNat]? = some word ∧
        word.getLsbD (bit % 64).toNat = true := by
  rw [testBit]
  split
  · rename_i negative
    simp [not_le.mpr negative]
  · rename_i inside
    simp only [Option.map_eq_some_iff, decide_eq_true_eq, masked_ne_zero, not_lt.mp inside,
      true_and]

theorem testBit_setBit {bits : List (BitVec 64)} {bit : Int} (inside : 0 ≤ wordIndex bit)
    (present : (wordIndex bit).toNat < bits.length) :
    testBit (setBit bits bit) bit = some true := by
  have small : (bit % 64).toNat < 64 := by omega
  refine testBit_eq_true.mpr ⟨inside, bits[(wordIndex bit).toNat] ||| bitMask bit, ?_, ?_⟩
  · simp [setBit, present]
  · rw [BitVec.getLsbD_or, bitMask, ← BitVec.twoPow_eq, BitVec.getLsbD_twoPow]
    simp [small]

theorem testBit_setBit_of_true {bits : List (BitVec 64)} (bit : Int) {other : Int}
    (isSet : testBit bits other = some true) : testBit (setBit bits bit) other = some true := by
  obtain ⟨inside, word, found, atBit⟩ := testBit_eq_true.mp isSet
  refine testBit_eq_true.mpr ⟨inside, ?_⟩
  rw [setBit, List.getElem?_modify, found]
  by_cases same : (wordIndex bit).toNat = (wordIndex other).toNat
  · exact ⟨word ||| bitMask bit, by simp [same], by rw [BitVec.getLsbD_or, atBit, Bool.true_or]⟩
  · exact ⟨word, by simp [same], atBit⟩

/-! ## No false negatives -/

/-- The bit array has room for every position. -/
structure Sized (filter : BloomFilter) : Prop where
  positive : 0 < filter.numBits
  covered : filter.numBits ≤ 64 * filter.bits.length
  bounded : filter.bits.length < 2 ^ 31

/-- All positions of the key are set. -/
def Marked (filter : BloomFilter) (key : Bytes) : Prop :=
  ∀ i < filter.numHashes.toNat, testBit filter.bits (position filter.numBits key i) = some true

theorem Sized.wordIndex_position {filter : BloomFilter} (sized : filter.Sized) (key : Bytes)
    (i : Nat) : 0 ≤ wordIndex (position filter.numBits key i) ∧
      (wordIndex (position filter.numBits key i)).toNat < filter.bits.length := by
  obtain ⟨bit, isBit⟩ : ∃ bit, bit = position filter.numBits key i := ⟨_, rfl⟩
  have lower : 0 ≤ bit := isBit ▸ Int.fmod_nonneg_of_pos _ sized.positive
  have upper : bit < filter.numBits := isBit ▸ Int.fmod_lt_of_pos _ sized.positive
  have covered := sized.covered
  have bounded := sized.bounded
  have index : (bit % 2 ^ 64).toNat / 64 % 2 ^ 32 = bit.toNat / 64 := by omega
  rw [← isBit, wordIndex, index, signed, if_pos (by omega)]
  omega

theorem foldl_setBit_length (bits : List (BitVec 64)) (positions : List Int) :
    (positions.foldl setBit bits).length = bits.length := by
  induction positions generalizing bits with
  | nil => rfl
  | cons bit rest induction => rw [List.foldl_cons, induction, setBit, List.length_modify]

theorem foldl_setBit_of_true {other : Int} (positions : List Int) : ∀ {bits : List (BitVec 64)},
    testBit bits other = some true → testBit (positions.foldl setBit bits) other = some true := by
  induction positions with
  | nil => exact fun isSet => isSet
  | cons bit rest induction => exact fun isSet => induction (testBit_setBit_of_true bit isSet)

theorem foldl_setBit_of_mem {other : Int} (inside : 0 ≤ wordIndex other) {positions : List Int}
    (member : other ∈ positions) : ∀ {bits : List (BitVec 64)},
    (wordIndex other).toNat < bits.length →
      testBit (positions.foldl setBit bits) other = some true := by
  intro bits present
  obtain ⟨front, back, rfl⟩ := List.append_of_mem member
  rw [List.foldl_append, List.foldl_cons]
  refine foldl_setBit_of_true back (testBit_setBit inside ?_)
  rwa [foldl_setBit_length]

/-- The positions of a key. -/
def positions (filter : BloomFilter) (key : Bytes) : List Int :=
  (List.range filter.numHashes.toNat).map (position filter.numBits key)

theorem add_bits (filter : BloomFilter) (key : Bytes) :
    (filter.add key).bits = (positions filter key).foldl setBit filter.bits := by
  simp [add, positions, List.foldl_map]

theorem Sized.add {filter : BloomFilter} (sized : filter.Sized) (key : Bytes) :
    (filter.add key).Sized := by
  have same : (filter.add key).bits.length = filter.bits.length := by
    rw [add_bits, foldl_setBit_length]
  refine ⟨sized.positive, ?_, ?_⟩
  · rw [same]
    exact sized.covered
  · rw [same]
    exact sized.bounded

theorem Sized.add_marked {filter : BloomFilter} (sized : filter.Sized) (key : Bytes) :
    (filter.add key).Marked key := by
  intro i inside
  obtain ⟨lower, upper⟩ := sized.wordIndex_position key i
  have member : position filter.numBits key i ∈ positions filter key :=
    List.mem_map_of_mem (List.mem_range.mpr inside)
  rw [add_bits]
  exact foldl_setBit_of_mem lower member upper

theorem Marked.add {filter : BloomFilter} {key : Bytes} (marked : filter.Marked key)
    (other : Bytes) : (filter.add other).Marked key := by
  intro i inside
  rw [add_bits]
  exact foldl_setBit_of_true _ (marked i inside)

theorem Marked.mightContainFrom {filter : BloomFilter} {key : Bytes} (sized : filter.Sized)
    (marked : filter.Marked key) : ∀ {rest i : Nat}, i + rest ≤ filter.numHashes.toNat →
      filter.mightContainFrom key rest i = some true
  | 0, _, _ => rfl
  | rest + 1, i, inside => by
      have isSet := marked i (by omega)
      have later := marked.mightContainFrom sized (by omega : i + 1 + rest ≤ filter.numHashes.toNat)
      have positive := sized.positive
      rw [BloomFilter.mightContainFrom, if_neg (by omega), isSet]
      exact later

/-- A key that was added is never denied. -/
theorem Marked.mightContain {filter : BloomFilter} {key : Bytes} (sized : filter.Sized)
    (marked : filter.Marked key) : filter.mightContain key = some true :=
  marked.mightContainFrom sized (Nat.le_of_eq (Nat.zero_add _))

/-- A filter with room answers. -/
theorem Sized.mightContain_total {filter : BloomFilter} (sized : filter.Sized) (key : Bytes) :
    ∃ answer, filter.mightContain key = some answer := by
  have each : ∀ rest i, ∃ answer, filter.mightContainFrom key rest i = some answer := by
    intro rest
    induction rest with
    | zero => exact fun i => ⟨true, rfl⟩
    | succ rest induction =>
        intro i
        obtain ⟨lower, upper⟩ := sized.wordIndex_position key i
        have positive := sized.positive
        obtain ⟨isSet, tested⟩ : ∃ isSet,
            testBit filter.bits (position filter.numBits key i) = some isSet := by
          rw [testBit, if_neg (by omega), List.getElem?_eq_getElem upper]
          exact ⟨_, rfl⟩
        rw [mightContainFrom, if_neg (by omega), tested]
        cases isSet with
        | false => exact ⟨false, rfl⟩
        | true => exact induction (i + 1)
  exact each _ 0

/-! ## On disk -/

theorem readWords_append (words : List (BitVec 64)) (rest : Bytes) :
    readWords words.length (words.flatMap (fun word => writeLong word.toNat) ++ rest) =
      some (words, rest) := by
  induction words with
  | nil => rfl
  | cons word words induction =>
      have read := readUnsigned_append (by have := word.isLt; omega : word.toNat < 256 ^ 8)
        (words.flatMap (fun word => writeLong word.toNat) ++ rest)
      simp only [List.length_cons, List.flatMap_cons, List.append_assoc, readWords, writeLong] at *
      simp [read, induction]

theorem readFrom_append {filter : BloomFilter} (sized : filter.Sized)
    (lower : 0 ≤ filter.numHashes) (upper : filter.numHashes < 2 ^ 31) (rest : Bytes) :
    readFrom (filter.writeTo ++ rest) = some (filter, rest) := by
  have positive := sized.positive
  have covered := sized.covered
  have bounded := sized.bounded
  have numBits : (filter.numBits.toNat : Int) = filter.numBits := by omega
  have numHashes : (filter.numHashes.toNat : Int) = filter.numHashes := by omega
  simp only [writeTo, List.append_assoc, readFrom]
  rw [readLong_append (by omega)]
  simp only [Option.bind_eq_bind, Option.bind_some]
  rw [readInt_append (by omega)]
  simp only [Option.bind_some]
  rw [readInt_append bounded]
  simp only [Option.bind_some, Int.toNat_natCast]
  rw [if_neg (by omega), readWords_append]
  simp only [Option.bind_some, numBits, numHashes]

end BloomFilter

end FoundationsLab.Lsm
