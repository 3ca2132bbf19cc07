import FoundationsLab.Deflate.BitReader
import FoundationsLab.Foundation.BitStream

/-! # The bit writer

Bits go least significant first into a buffer of 32 bits, out of which whole bytes are
written while there is room. A shift by less than 0 or more than 31 is undefined. -/

namespace FoundationsLab.Deflate

open Foundation.BitStream

/-- The bytes written so far stand in `out`; the position is their number. -/
structure Bitwriter where
  out : List UInt8
  cap : Nat
  bitBuf : Nat
  bitCount : Int
  overflow : Bool

def bwInit (cap : Nat) : Bitwriter where
  out := []
  cap := cap
  bitBuf := 0
  bitCount := 0
  overflow := false

/-- `value << count` for a `uint32_t`; undefined unless the count is in 0..31. -/
def shiftLeft32 (value : Nat) (count : Int) : Option Nat :=
  if 0 ≤ count ∧ count < 32 then some (value <<< count.toNat % 2 ^ 32) else none

/-- `while (w->bit_count >= 8)` -/
def drain (w : Bitwriter) : Bitwriter :=
  if 8 ≤ w.bitCount then
    if w.cap ≤ w.out.length then { w with overflow := true }
    else drain { w with
      out := w.out ++ [.ofNat (w.bitBuf &&& 0xFF)]
      bitBuf := w.bitBuf >>> 8
      bitCount := w.bitCount - 8 }
  else w
termination_by w.bitCount.toNat

/-- `if (count < 32) value &= (1u << count) - 1u;` -/
def maskBits (value : Nat) (count : Int) : Option Nat :=
  if count < 32 then do
    let one ← shiftLeft32 1 count
    return value &&& (one - 1)
  else return value

def bwBits (w : Bitwriter) (value : Nat) (count : Int) : Option Bitwriter := do
  let value ← maskBits value count
  let shifted ← shiftLeft32 value w.bitCount
  return drain { w with bitBuf := w.bitBuf ||| shifted, bitCount := w.bitCount + count }

/-- `reversed = (reversed << 1) | ((code >> i) & 1u)` for each `i` from 0 on -/
def reverseFrom (code : Nat) : (i count reversed : Nat) → Nat
  | _, 0, reversed => reversed
  | i, count + 1, reversed =>
      reverseFrom code (i + 1) count (reversed <<< 1 % 2 ^ 32 ||| (code >>> i) &&& 1)

def bwCode (w : Bitwriter) (code count : Nat) : Option Bitwriter :=
  bwBits w (reverseFrom code 0 count 0) count

def bwAlign (w : Bitwriter) : Option Bitwriter :=
  if 0 < w.bitCount then bwBits w 0 (8 - w.bitCount) else some w

def bwFinish (w : Bitwriter) : Option (Nat × Bitwriter) := do
  let w ← bwAlign w
  return (w.out.length, w)

/-! ## What is in the writer -/

/-- The writer after these bits: what fits was written, and once a whole byte did not fit
the count of the waiting bits only grows. -/
structure Written (bits : List Bool) (w : Bitwriter) : Prop where
  out : w.out = packBytes (bits.take (8 * w.cap))
  count : w.bitCount = bits.length - 8 * w.out.length
  flag : w.overflow = decide (8 * w.cap + 8 ≤ bits.length)
  buffer : bits.length < 8 * w.cap + 8 → w.bitBuf = valueOf (bits.drop (8 * w.out.length))

section Writing

variable {bits : List Bool} {w w' : Bitwriter}

theorem Written.initial (cap : Nat) : Written [] (bwInit cap) where
  out := by rw [List.take_nil, packBytes_nil]; rfl
  count := rfl
  flag := by simp [bwInit]
  buffer _ := rfl

theorem Written.length_out (written : Written bits w) :
    w.out.length = min w.cap (bits.length / 8) := by
  rw [written.out, length_packBytes, List.length_take]
  omega

theorem drain_written (w : Bitwriter) {front waiting : List Bool} (out : w.out = packBytes front)
    (whole : front.length = 8 * w.out.length) (room : w.out.length ≤ w.cap)
    (count : w.bitCount = waiting.length) (buffer : w.bitBuf = valueOf waiting)
    (clear : w.overflow = false) :
    Written (front ++ waiting) (drain w) ∧ (drain w).cap = w.cap := by
  induction w using drain.induct generalizing front waiting with
  | case1 w long full =>
      rw [drain, if_pos long, if_pos full]
      refine ⟨⟨?_, ?_, ?_, ?_⟩, rfl⟩
      · dsimp only
        rw [List.take_left' (by omega)]
        exact out
      · dsimp only
        rw [List.length_append]
        omega
      · have beyond : 8 * w.cap + 8 ≤ (front ++ waiting).length := by
          rw [List.length_append]
          omega
        exact (decide_eq_true beyond).symm
      · intro fits
        dsimp only at fits
        rw [List.length_append] at fits
        omega
  | case2 w long free induction =>
      rw [drain, if_pos long, if_neg free]
      have eight : (waiting.take 8).length = 8 := by
        rw [List.length_take]
        omega
      have isByte : w.bitBuf &&& 0xFF = valueOf (waiting.take 8) := by
        rw [valueOf_take, buffer]
        exact Nat.and_two_pow_sub_one_eq_mod _ 8
      have out' : w.out ++ [.ofNat (w.bitBuf &&& 0xFF)] = packBytes (front ++ waiting.take 8) := by
        rw [packBytes_append _ (by omega), packBytes_eight eight, out, isByte]
      have whole' : (front ++ waiting.take 8).length =
          8 * (w.out ++ [UInt8.ofNat (w.bitBuf &&& 0xFF)]).length := by
        rw [List.length_append, List.length_append, whole, eight, List.length_singleton]
        omega
      have room' : (w.out ++ [UInt8.ofNat (w.bitBuf &&& 0xFF)]).length ≤ w.cap := by
        rw [List.length_append, List.length_singleton]
        omega
      have count' : w.bitCount - 8 = (waiting.drop 8).length := by
        rw [List.length_drop]
        omega
      have buffer' : w.bitBuf >>> 8 = valueOf (waiting.drop 8) := by
        rw [valueOf_drop, buffer, Nat.shiftRight_eq_div_pow]
      obtain ⟨written, sameCap⟩ := induction out' whole' room' count' buffer' clear
      rw [List.append_assoc, List.take_append_drop] at written
      exact ⟨written, sameCap⟩
  | case3 w short =>
      rw [drain, if_neg short]
      have few : waiting.length < 8 := by omega
      refine ⟨⟨?_, ?_, ?_, ?_⟩, rfl⟩
      · rcases Nat.lt_or_ge w.out.length w.cap with less | more
        · rw [List.take_of_length_le (by rw [List.length_append]; omega),
            packBytes_append _ (by omega), packBytes_short few, List.append_nil, out]
        · rw [List.take_left' (by omega), out]
      · rw [List.length_append]
        omega
      · rw [clear]
        symm
        apply decide_eq_false
        rw [List.length_append]
        omega
      · intro _
        rw [← whole, List.drop_left, buffer]

theorem maskBits_eq (value : Nat) {count : Nat} (small : count < 32) :
    maskBits value count = some (value % 2 ^ count) := by
  have fits : 1 <<< count < 2 ^ 32 := by
    rw [Nat.one_shiftLeft]
    exact Nat.pow_lt_pow_right (by omega) small
  rw [maskBits, if_pos (by omega), shiftLeft32, if_pos (by omega)]
  show some (value &&& (1 <<< count % 2 ^ 32 - 1)) = _
  rw [Nat.mod_eq_of_lt fits, Nat.one_shiftLeft, Nat.and_two_pow_sub_one_eq_mod]

theorem bwBits_eq (value : Nat) {count : Nat} (small : count < 32) (low : 0 ≤ w.bitCount)
    (high : w.bitCount < 32) : bwBits w value count = some (drain { w with
      bitBuf := w.bitBuf ||| (value % 2 ^ count) <<< w.bitCount.toNat % 2 ^ 32
      bitCount := w.bitCount + count }) := by
  simp only [bwBits, maskBits_eq value small, Option.bind_eq_bind, Option.bind_some, shiftLeft32,
    if_pos (And.intro low high)]
  rfl

/-- A field of up to 16 bits is added, unless the shift is undefined by now. -/
theorem Written.bwBits (written : Written bits w) (value : Nat) {count : Nat}
    (small : count ≤ 16) (defined : bits.length < 8 * w.cap + 32) :
    ∃ w', Deflate.bwBits w value count = some w' ∧ w'.cap = w.cap ∧
      Written (bits ++ bitsOf count value) w' := by
  have written' := written.length_out
  have isCount := written.count
  refine ⟨_, bwBits_eq value (by omega) (by omega) (by omega), ?_⟩
  by_cases fits : bits.length < 8 * w.cap + 8
  · -- Less than a byte waits, and it is joined by the field.
    have few : w.bitCount < 8 := by omega
    have clear : w.overflow = false := by
      rw [written.flag]
      exact decide_eq_false (by omega)
    have isLong : w.bitCount.toNat = (bits.drop (8 * w.out.length)).length := by
      rw [List.length_drop]
      omega
    have front : w.out = packBytes (bits.take (8 * w.out.length)) := by
      rcases Nat.lt_or_ge w.out.length w.cap with less | more
      · have whole : (bits.take (8 * w.out.length)).length % 8 = 0 := by
          rw [List.length_take]
          omega
        have rest : packBytes (bits.drop (8 * w.out.length)) = [] :=
          packBytes_short (by rw [List.length_drop]; omega)
        have split := packBytes_append (bits.drop (8 * w.out.length)) whole
        rw [List.take_append_drop, rest, List.append_nil] at split
        rw [← split, written.out, List.take_of_length_le (by omega)]
      · rw [show w.out.length = w.cap by omega]
        exact written.out
    have fieldFits : (value % 2 ^ count) <<< w.bitCount.toNat < 2 ^ 32 := by
      have isField := Nat.mod_lt value (Nat.two_pow_pos count)
      have larger := Nat.pow_le_pow_right Nat.two_pos (by omega : w.bitCount.toNat + count ≤ 32)
      rw [Nat.shiftLeft_eq]
      refine Nat.lt_of_lt_of_le ?_ larger
      rw [Nat.pow_add, Nat.mul_comm]
      exact Nat.mul_lt_mul_of_pos_left isField (Nat.two_pow_pos _)
    have waiting : w.bitBuf ||| (value % 2 ^ count) <<< w.bitCount.toNat % 2 ^ 32 =
        valueOf (bits.drop (8 * w.out.length) ++ bitsOf count value) := by
      have small' := valueOf_lt (bits.drop (8 * w.out.length))
      rw [Nat.mod_eq_of_lt fieldFits, written.buffer fits, isLong, or_shift_eq small', valueOf_append,
        valueOf_bitsOf]
    obtain ⟨joined, isJoined⟩ : ∃ joined : Bitwriter, joined = { w with
      bitBuf := w.bitBuf ||| (value % 2 ^ count) <<< w.bitCount.toNat % 2 ^ 32
      bitCount := w.bitCount + count } := ⟨_, rfl⟩
    have sameOut : joined.out = w.out := by rw [isJoined]
    have sameCap : joined.cap = w.cap := by rw [isJoined]
    have sameCount : joined.bitCount = w.bitCount + count := by rw [isJoined]
    have sameFlag : joined.overflow = w.overflow := by rw [isJoined]
    have sameBuf : joined.bitBuf = valueOf (bits.drop (8 * w.out.length) ++ bitsOf count value) := by
      rw [isJoined]
      exact waiting
    rw [← isJoined]
    obtain ⟨drained, drainedCap⟩ := drain_written joined (sameOut.trans front)
      (by rw [sameOut, List.length_take]; omega) (by rw [sameOut, sameCap]; omega)
      (by rw [sameCount, List.length_append, length_bitsOf, ← isLong]; omega) sameBuf
      (sameFlag.trans clear)
    rw [← List.append_assoc, List.take_append_drop] at drained
    exact ⟨drainedCap.trans sameCap, drained⟩
  · -- The buffer is full: the loop ends where it begins.
    rw [drain, if_pos (by dsimp only; omega), if_pos (by dsimp only; omega)]
    refine ⟨rfl, ⟨?_, ?_, ?_, ?_⟩⟩
    · dsimp only
      rw [List.take_append_of_le_length (by omega)]
      exact written.out
    · dsimp only
      rw [List.length_append, length_bitsOf]
      omega
    · symm
      apply decide_eq_true
      rw [List.length_append]
      dsimp only
      omega
    · intro fits'
      rw [List.length_append] at fits'
      dsimp only at fits'
      omega

/-- Once four bytes wait the next shift is undefined. -/
theorem bwBits_undefined (written : Written bits w) (value : Nat) {count : Nat}
    (small : count ≤ 16) (many : 8 * w.cap + 32 ≤ bits.length) :
    Deflate.bwBits w value count = none := by
  have isOut := written.length_out
  have isCount := written.count
  simp only [Deflate.bwBits, maskBits_eq value (by omega : count < 32), Option.bind_eq_bind,
    Option.bind_some, shiftLeft32]
  rw [if_neg (by omega)]
  rfl

end Writing

/-! ## Programs that write -/

/-- The program turns what was written into this. It is defined as long as no more than
one byte is left over. -/
structure Appends (program : Bitwriter → Option Bitwriter) (stream : List Bool → List Bool) :
    Prop where
  sound : ∀ {bits w w'}, Written bits w → program w = some w' →
    w'.cap = w.cap ∧ Written (stream bits) w'
  returns : ∀ {bits w}, Written bits w → (stream bits).length ≤ 8 * w.cap + 8 →
    ∃ w', program w = some w'
  grows : ∀ bits, bits.length ≤ (stream bits).length

theorem appends_nothing : Appends some id where
  sound written isSame := Option.some.inj isSame ▸ ⟨rfl, written⟩
  returns _ _ := ⟨_, rfl⟩
  grows _ := le_rfl

theorem Appends.bind {program program' : Bitwriter → Option Bitwriter}
    {stream stream' : List Bool → List Bool} (appends : Appends program stream)
    (appends' : Appends program' stream') :
    Appends (fun w => program w >>= program') (fun bits => stream' (stream bits)) where
  sound := by
    intro bits w w' written ran
    obtain ⟨middle, first, second⟩ := Option.bind_eq_some_iff.mp ran
    obtain ⟨sameCap, written'⟩ := appends.sound written first
    obtain ⟨sameCap', written''⟩ := appends'.sound written' second
    exact ⟨sameCap'.trans sameCap, written''⟩
  returns := by
    intro bits w written fits
    obtain ⟨middle, first⟩ := appends.returns written ((appends'.grows _).trans fits)
    obtain ⟨sameCap, written'⟩ := appends.sound written first
    obtain ⟨w', second⟩ := appends'.returns written' (by rwa [sameCap])
    exact ⟨w', Option.bind_eq_some_iff.mpr ⟨middle, first, second⟩⟩
  grows bits := (appends.grows bits).trans (appends'.grows _)

theorem Appends.foldlM {α : Type} {step : Bitwriter → α → Option Bitwriter} {field : α → List Bool}
    (items : List α)
    (each : ∀ item ∈ items, Appends (fun w => step w item) (fun bits => bits ++ field item)) :
    Appends (fun w => items.foldlM step w) (fun bits => bits ++ items.flatMap field) := by
  induction items with
  | nil =>
      have same : (fun bits : List Bool => bits ++ List.flatMap field []) = id := by
        funext bits
        simp
      rw [same]
      exact appends_nothing
  | cons item items induction =>
      have rest := induction fun other member => each other (.tail _ member)
      have both := (each item List.mem_cons_self).bind rest
      have same : (fun bits : List Bool => bits ++ field item ++ items.flatMap field) =
          fun bits => bits ++ (item :: items).flatMap field := by
        funext bits
        rw [List.flatMap_cons, List.append_assoc]
      rw [same] at both
      exact both

theorem appends_bwBits (value : Nat) {count : Nat} (small : count ≤ 16) :
    Appends (fun w => bwBits w value count) (fun bits => bits ++ bitsOf count value) where
  sound := by
    intro bits w w' written ran
    by_cases defined : bits.length < 8 * w.cap + 32
    · obtain ⟨result, returned, same⟩ := written.bwBits value small defined
      obtain rfl := Option.some.inj (ran.symm.trans returned)
      exact same
    · rw [bwBits_undefined written value small (by omega)] at ran
      exact nomatch ran
  returns := by
    intro bits w written fits
    rw [List.length_append] at fits
    obtain ⟨w', returned, -⟩ := written.bwBits value small (by omega)
    exact ⟨w', returned⟩
  grows bits := by
    rw [List.length_append]
    exact Nat.le_add_right _ _

theorem reverseFrom_eq (code i count : Nat) (small : i + count ≤ 32) :
    reverseFrom code i count (valueOf (wordOf code i)) = valueOf (wordOf code (i + count)) := by
  induction count generalizing i with
  | zero => rfl
  | succ count induction =>
      have less := valueOf_lt (wordOf code i)
      rw [length_wordOf] at less
      have larger := Nat.pow_le_pow_right Nat.two_pos (by omega : i + 1 ≤ 32)
      have fits : valueOf (wordOf code i) <<< 1 < 2 ^ 32 := by
        rw [Nat.shiftLeft_eq]
        omega
      have bit : (code >>> i) &&& 1 = (decide (code / 2 ^ i % 2 = 1)).toNat := by
        rw [Nat.shiftRight_eq_div_pow, Nat.and_one_is_mod]
        rcases Nat.mod_two_eq_zero_or_one (code / 2 ^ i) with isEven | isOdd
        · simp [isEven]
        · simp [isOdd]
      have next : valueOf (wordOf code i) <<< 1 % 2 ^ 32 ||| (code >>> i) &&& 1 =
          valueOf (wordOf code (i + 1)) := by
        have isBit : (code >>> i) &&& 1 < 2 ^ 1 := by
          rw [Nat.and_one_is_mod]
          exact Nat.mod_lt _ Nat.two_pos
        rw [Nat.mod_eq_of_lt fits, Nat.or_comm, or_shift_eq isBit, wordOf_succ, valueOf, bit,
          Nat.pow_one]
      rw [reverseFrom, next, induction (i + 1) (by omega), show i + 1 + count = i + (count + 1) by omega]

theorem appends_bwCode (code : Nat) {count : Nat} (small : count ≤ 16) :
    Appends (fun w => bwCode w code count) (fun bits => bits ++ wordOf code count) := by
  have isReversed : reverseFrom code 0 count 0 = valueOf (wordOf code count) := by
    have reversed := reverseFrom_eq code 0 count (by omega)
    rwa [Nat.zero_add] at reversed
  have same := bitsOf_valueOf (wordOf code count)
  rw [length_wordOf] at same
  have appends := appends_bwBits (valueOf (wordOf code count)) small
  rw [same] at appends
  simp only [bwCode, isReversed]
  exact appends

/-! ## Alignment -/

/-- The bits that are missing to the next byte. -/
def padding (length : Nat) : Nat := (8 - length % 8) % 8

def align (bits : List Bool) : List Bool := bits ++ List.replicate (padding bits.length) false

theorem length_align (bits : List Bool) : (align bits).length = 8 * ((bits.length + 7) / 8) := by
  rw [align, List.length_append, List.length_replicate, padding]
  omega

theorem bitsOf_zero (count : Nat) : bitsOf count 0 = List.replicate count false := by
  induction count with
  | zero => rfl
  | succ count induction => rw [bitsOf, Nat.zero_div, induction]; rfl

/-- Beyond one byte that is left over the alignment is undefined. -/
theorem bwAlign_undefined {bits : List Bool} {w : Bitwriter} (written : Written bits w)
    (many : 8 * w.cap + 8 < bits.length) : bwAlign w = none := by
  have isOut := written.length_out
  have isCount := written.count
  have negative : ¬ (0 ≤ 8 - w.bitCount ∧ 8 - w.bitCount < 32) := by omega
  rw [bwAlign, if_pos (by omega)]
  simp only [bwBits, maskBits, shiftLeft32, if_neg negative]
  rw [if_pos (by omega)]
  rfl

theorem Written.bwAlign {bits : List Bool} {w : Bitwriter} (written : Written bits w)
    (defined : bits.length ≤ 8 * w.cap + 8) :
    ∃ w', Deflate.bwAlign w = some w' ∧ w'.cap = w.cap ∧ Written (align bits) w' := by
  have isOut := written.length_out
  have isCount := written.count
  rw [Deflate.bwAlign]
  split
  · rename_i waiting
    have isPadding : 8 - w.bitCount = (padding bits.length : Nat) := by
      rw [padding]
      omega
    have few : padding bits.length ≤ 16 := by
      rw [padding]
      omega
    rw [isPadding]
    have field := written.bwBits 0 few (by omega)
    rwa [bitsOf_zero] at field
  · rename_i none
    have noPadding : padding bits.length = 0 := by
      rw [padding]
      omega
    rw [align, noPadding, List.replicate_zero, List.append_nil]
    exact ⟨w, rfl, rfl, written⟩

theorem appends_bwAlign : Appends bwAlign align where
  sound := by
    intro bits w w' written ran
    by_cases defined : bits.length ≤ 8 * w.cap + 8
    · obtain ⟨result, returned, same⟩ := written.bwAlign defined
      obtain rfl := Option.some.inj (ran.symm.trans returned)
      exact same
    · rw [bwAlign_undefined written (by omega)] at ran
      exact nomatch ran
  returns := by
    intro bits w written fits
    rw [length_align] at fits
    obtain ⟨w', returned, -⟩ := written.bwAlign (by omega)
    exact ⟨w', returned⟩
  grows bits := by
    rw [length_align]
    omega

/-- With room for all bits, finishing leaves the bytes that hold them. -/
theorem bwFinish_fits {bits : List Bool} {w : Bitwriter} (written : Written bits w)
    (fits : bits.length ≤ 8 * w.cap) : ∃ w', bwFinish w = some (w'.out.length, w') ∧
      w'.overflow = false ∧ bitsOfBytes w'.out = align bits := by
  obtain ⟨w', aligned, sameCap, written'⟩ := written.bwAlign (by omega)
  have isLong := length_align bits
  refine ⟨w', by rw [bwFinish, aligned]; rfl, ?_, ?_⟩
  · rw [written'.flag]
    exact decide_eq_false (by omega)
  · rw [written'.out, List.take_of_length_le (by omega), bitsOfBytes_packBytes,
      List.take_of_length_le (by omega)]

end FoundationsLab.Deflate
