import FoundationsLab.Deflate.BitDelivery
import FoundationsLab.Deflate.BitWriter
import Mathlib.Tactic.Ring

/-! # Fields that are written and read back

A sequence of calls of the writer stands for a list of bits. The reader takes the same
bits off the bytes that were written, call by call. -/

namespace FoundationsLab.Deflate

open Foundation.BitStream

/-! ## Calls of the writer -/

inductive BitField where
  | bits (value count : Nat)
  | code (word count : Nat)
  | align

/-- The counts that the calls are made with. -/
def BitField.Legal : BitField → Prop
  | .bits _ count => count ≤ 16
  | .code _ count => 1 ≤ count ∧ count ≤ 15
  | .align => True

def BitField.write (w : Bitwriter) : BitField → Option Bitwriter
  | .bits value count => bwBits w value count
  | .code word count => bwCode w word count
  | .align => bwAlign w

def writeFields (fields : List BitField) (w : Bitwriter) : Option Bitwriter :=
  fields.foldlM BitField.write w

/-! ## Calls of the reader -/

/-- A code is read by one call, or bit by bit as the decoder does. -/
inductive CodeReading where
  | whole
  | bitwise

/-- `code = code << 1 | br_bits(r, 1)`, as many times -/
def readCode : (count code : Nat) → Bitreader → Df (Nat × Bitreader)
  | 0, code, r => .ok (code, r)
  | count + 1, code, r => do
      let (bit, r) ← brBits r 1
      readCode count (code <<< 1 ||| bit) r

/-- The call that reads what a call of the writer wrote. -/
def BitField.read (reading : CodeReading) : BitField → Bitreader → Df (Option Nat × Bitreader)
  | .bits _ count, r => do
      let (value, r) ← brBits r count
      return (some value, r)
  | .code _ count, r => do
      let (value, r) ← match reading with
        | .whole => brBits r count
        | .bitwise => readCode count 0 r
      return (some value, r)
  | .align, r => do
      let r ← brAlign r
      return (none, r)

def readFields (reading : CodeReading) :
    List BitField → Bitreader → Df (List (Option Nat) × Bitreader)
  | [], r => .ok ([], r)
  | field :: fields, r => do
      let (value, r) ← field.read reading r
      let (values, r) ← readFields reading fields r
      return (value :: values, r)

/-- What reading returns: the low bits of the value. The most significant bit of a code
comes first, so that one call for all of it has them in the other order. -/
def BitField.value (reading : CodeReading) : BitField → Option Nat
  | .bits value count => some (value % 2 ^ count)
  | .code word count =>
      match reading with
      | .whole => some (valueOf (wordOf word count))
      | .bitwise => some (word % 2 ^ count)
  | .align => none

/-! ## The bits between them -/

/-- The bits of a field behind so many others. -/
def BitField.stream (length : Nat) : BitField → List Bool
  | .bits value count => bitsOf count value
  | .code word count => wordOf word count
  | .align => List.replicate (padding length) false

def streamFrom (length : Nat) : List BitField → List Bool
  | [] => []
  | field :: fields =>
      field.stream length ++ streamFrom (length + (field.stream length).length) fields

theorem streamFrom_append (length : Nat) (front back : List BitField) :
    streamFrom length (front ++ back) = streamFrom length front ++
      streamFrom (length + (streamFrom length front).length) back := by
  induction front generalizing length with
  | nil => rfl
  | cons field front induction =>
      rw [List.cons_append, streamFrom, streamFrom, induction, List.append_assoc,
        List.length_append, Nat.add_assoc]

/-! ## Writing -/

theorem BitField.appends (field : BitField) (legal : field.Legal) :
    Appends (fun w => field.write w) (fun bits => bits ++ field.stream bits.length) := by
  cases field with
  | bits value count => exact appends_bwBits value legal
  | code word count => exact appends_bwCode word (Nat.le_succ_of_le legal.2)
  | align => exact appends_bwAlign

theorem appends_writeFields {fields : List BitField} (legal : ∀ field ∈ fields, field.Legal) :
    Appends (writeFields fields) (fun bits => bits ++ streamFrom bits.length fields) := by
  induction fields with
  | nil =>
      have same : (fun bits : List Bool => bits ++ streamFrom bits.length []) = id := by
        funext bits
        exact List.append_nil bits
      rw [same]
      exact appends_nothing
  | cons field fields induction =>
      have first := field.appends (legal field List.mem_cons_self)
      have both := first.bind (induction fun other member => legal other (.tail _ member))
      have same : (fun bits : List Bool => bits ++ field.stream bits.length ++
          streamFrom (bits ++ field.stream bits.length).length fields) =
            fun bits => bits ++ streamFrom bits.length (field :: fields) := by
        funext bits
        rw [streamFrom, List.append_assoc, List.length_append]
      rw [same] at both
      exact both

/-- With room for its bits a sequence of calls is defined, and less than a byte waits. -/
theorem writeFields_fits {fields : List BitField} {cap : Nat}
    (legal : ∀ field ∈ fields, field.Legal) (enough : (streamFrom 0 fields).length ≤ 8 * cap) :
    ∃ w, writeFields fields (bwInit cap) = some w ∧ w.cap = cap ∧
      Written (streamFrom 0 fields) w ∧ 0 ≤ w.bitCount ∧ w.bitCount < 8 := by
  have appends := appends_writeFields legal
  obtain ⟨w, returned⟩ := appends.returns (Written.initial cap) (Nat.le_add_right_of_le enough)
  obtain ⟨sameCap, written⟩ := appends.sound (Written.initial cap) returned
  have written' : Written (streamFrom 0 fields) w := written
  have isOut := written'.length_out
  have isCount := written'.count
  have isCap : w.cap = cap := sameCap
  rw [isCap] at isOut
  exact ⟨w, returned, isCap, written', by omega, by omega⟩

/-! ## Reading -/

section Reading

variable {bytes : List UInt8} {r r' : Bitreader} {count value : Nat} {rest : List Bool}

/-- The reader of these bytes has few bits in its buffer, and none from behind the end. -/
structure Settled (bytes : List UInt8) (most : Nat) (r : Bitreader) : Prop where
  input : r.input = bytes
  inside : r.pos ≤ bytes.length
  small : r.bitCount < most

theorem settled_brInit (bytes : List UInt8) : Settled bytes 8 (brInit bytes) where
  input := rfl
  inside := Nat.zero_le _
  small := Nat.succ_pos 7

theorem fill_settled (filled : fill r count = .ok r') (settled : Settled bytes (count + 8) r) :
    Settled bytes (count + 8) r' := by
  have small := settled.small
  induction r using fill.induct count with
  | case1 r short atEnd induction =>
      rw [fill, if_pos short, if_pos atEnd] at filled
      have fewer : r.bitCount + 8 < count + 8 := by omega
      exact induction filled ⟨settled.input, settled.inside, fewer⟩ fewer
  | case2 r short inside induction =>
      have isByte : r.pos < r.input.length := by omega
      rw [fill, if_pos short, if_neg inside, Checked.get, List.getElem?_eq_getElem isByte] at filled
      have fewer : r.bitCount + 8 < count + 8 := by omega
      have inside' : r.pos + 1 ≤ bytes.length := by
        rw [← settled.input]
        exact isByte
      exact induction r.input[r.pos] filled ⟨settled.input, inside', fewer⟩ fewer
  | case3 r full =>
      rw [fill, if_neg full] at filled
      obtain rfl := Except.ok.inj filled
      exact settled

/-- Less than a byte stays in the buffer. -/
theorem brBits_settled (read : brBits r count = .ok (value, r')) (settled : Settled bytes 8 r) :
    Settled bytes 8 r' := by
  obtain ⟨filled, isFilled, isRead⟩ := Checked.bind_eq_ok.mp read
  obtain ⟨-, rfl⟩ := Prod.mk.inj (Except.ok.inj isRead)
  have few := settled.small
  have bound := fill_settled isFilled ⟨settled.input, settled.inside, by omega⟩
  have small := bound.small
  refine ⟨bound.input, bound.inside, ?_⟩
  dsimp only
  omega

theorem brAlign_settled (aligned : brAlign r = .ok r') (settled : Settled bytes 8 r) :
    Settled bytes 8 r' := by
  rw [brAlign] at aligned
  dsimp only at aligned
  split at aligned
  · obtain ⟨⟨value, last⟩, read, isLast⟩ := Checked.bind_eq_ok.mp aligned
    obtain rfl := Except.ok.inj isLast
    exact brBits_settled read settled
  · obtain rfl := Except.ok.inj aligned
    exact settled

theorem brBits_word (code : Nat) (delivers : Delivers r (wordOf code count ++ rest)) :
    ∃ r', brBits r count = .ok (valueOf (wordOf code count), r') ∧ Delivers r' rest := by
  have isField := bitsOf_valueOf (wordOf code count)
  rw [length_wordOf] at isField
  rw [← isField] at delivers
  obtain ⟨r', read, delivers'⟩ := brBits_field _ delivers
  have small := valueOf_lt (wordOf code count)
  rw [length_wordOf] at small
  rw [Nat.mod_eq_of_lt small] at read
  exact ⟨r', read, delivers'⟩

/-- Every bit that is read doubles what was read before it. -/
theorem readCode_delivers (code before : Nat) (settled : Settled bytes 8 r)
    (delivers : Delivers r (wordOf code count ++ rest)) :
    ∃ r', readCode count before r = .ok (before * 2 ^ count + code % 2 ^ count, r') ∧
      Delivers r' rest ∧ Settled bytes 8 r' := by
  induction count generalizing r before with
  | zero =>
      rw [Nat.pow_zero, Nat.mul_one, Nat.mod_one]
      exact ⟨r, rfl, delivers, settled⟩
  | succ count induction =>
      rw [wordOf_succ, List.cons_append] at delivers
      obtain ⟨r₁, read, delivers₁⟩ := brBits_bit delivers
      obtain ⟨r', reads, delivers', settled'⟩ :=
        induction (before <<< 1 ||| (decide (code / 2 ^ count % 2 = 1)).toNat)
          (brBits_settled read settled) delivers₁
      refine ⟨r', ?_, delivers', settled'⟩
      have bit : (decide (code / 2 ^ count % 2 = 1)).toNat = code / 2 ^ count % 2 := by
        rcases Nat.mod_two_eq_zero_or_one (code / 2 ^ count) with isEven | isOdd
        · simp [isEven]
        · simp [isOdd]
      have isBit : code / 2 ^ count % 2 < 2 ^ 1 := Nat.mod_lt _ Nat.two_pos
      have sum : before <<< 1 ||| code / 2 ^ count % 2 = code / 2 ^ count % 2 + 2 * before := by
        rw [Nat.or_comm, or_shift_eq isBit, Nat.pow_one]
      have split : code % 2 ^ (count + 1) = code % 2 ^ count + 2 ^ count * (code / 2 ^ count % 2) :=
        Nat.mod_pow_succ
      rw [readCode, read]
      show readCode count _ r₁ = _
      have total : (code / 2 ^ count % 2 + 2 * before) * 2 ^ count + code % 2 ^ count =
          before * 2 ^ (count + 1) + code % 2 ^ (count + 1) := by
        rw [split]
        ring
      rw [reads, bit, sum, total]

/-- A field is read where its bits are the next ones. -/
theorem BitField.read_delivers (reading : CodeReading) (field : BitField) {length : Nat}
    (settled : Settled bytes 8 r) (aligned : (length + (field.stream length ++ rest).length) % 8 = 0)
    (delivers : Delivers r (field.stream length ++ rest)) :
    ∃ r', field.read reading r = .ok (field.value reading, r') ∧ Delivers r' rest ∧
      Settled bytes 8 r' := by
  cases field with
  | bits value count =>
      obtain ⟨r', read, delivers'⟩ := brBits_field value delivers
      refine ⟨r', ?_, delivers', brBits_settled read settled⟩
      rw [BitField.read, read]
      rfl
  | code word count =>
      cases reading with
      | whole =>
          obtain ⟨r', read, delivers'⟩ := brBits_word word delivers
          refine ⟨r', ?_, delivers', brBits_settled read settled⟩
          rw [BitField.read, read]
          rfl
      | bitwise =>
          obtain ⟨r', read, delivers', settled'⟩ := readCode_delivers word 0 settled delivers
          rw [Nat.zero_mul, Nat.zero_add] at read
          refine ⟨r', ?_, delivers', settled'⟩
          rw [BitField.read, read]
          rfl
  | align =>
      obtain ⟨r', read, delivers'⟩ := brAlign_delivers delivers
      refine ⟨r', ?_, ?_, brAlign_settled read settled⟩
      · rw [BitField.read, read]
        rfl
      · have isDropped : (BitField.align.stream length ++ rest).length % 8 =
            (BitField.align.stream length).length := by
          have isLong : (BitField.align.stream length).length = padding length :=
            List.length_replicate
          rw [isLong, padding]
          omega
        rw [isDropped, List.drop_left] at delivers'
        exact delivers'

theorem readFields_delivers (reading : CodeReading) (fields : List BitField) {length : Nat}
    (settled : Settled bytes 8 r)
    (aligned : (length + (streamFrom length fields ++ rest).length) % 8 = 0)
    (delivers : Delivers r (streamFrom length fields ++ rest)) :
    ∃ r', readFields reading fields r = .ok (fields.map (BitField.value reading), r') ∧
      Delivers r' rest ∧ Settled bytes 8 r' := by
  induction fields generalizing length r with
  | nil => exact ⟨r, rfl, delivers, settled⟩
  | cons field fields induction =>
      rw [streamFrom, List.append_assoc] at aligned delivers
      obtain ⟨r₁, read, delivers₁, settled₁⟩ := field.read_delivers reading settled aligned delivers
      rw [List.length_append, ← Nat.add_assoc] at aligned
      obtain ⟨r', reads, delivers', settled'⟩ := induction settled₁ aligned delivers₁
      refine ⟨r', ?_, delivers', settled'⟩
      rw [readFields, read]
      show (readFields reading fields r₁ >>= _) = _
      rw [reads]
      rfl

end Reading

/-! ## The writer and the reader -/

/-- In a buffer with room for its bits every sequence of fields is written, and the reader
gets back each field and takes all the bytes. Before and after each call both of them
hold less than a byte. -/
theorem fields_are_read_back {fields : List BitField} {cap : Nat}
    (legal : ∀ field ∈ fields, field.Legal) (enough : (streamFrom 0 fields).length ≤ 8 * cap)
    (reading : CodeReading) :
    ∃ w w', writeFields fields (bwInit cap) = some w ∧ bwFinish w = some (w'.out.length, w') ∧
      w'.overflow = false ∧ w'.bitCount = 0 ∧
      (∃ r, readFields reading fields (brInit w'.out) =
          .ok (fields.map (BitField.value reading), r) ∧
        r.pos = w'.out.length ∧ r.underflow = false) ∧
      ∀ front, front <+: fields →
        (∃ v, writeFields front (bwInit cap) = some v ∧ 0 ≤ v.bitCount ∧ v.bitCount < 8) ∧
        ∃ s, readFields reading front (brInit w'.out) =
            .ok (front.map (BitField.value reading), s) ∧
          s.bitCount < 8 ∧ s.underflow = false := by
  obtain ⟨w, isWritten, isCap, written, -, -⟩ := writeFields_fits legal enough
  rw [← isCap] at enough
  obtain ⟨w', finished, clear, isOut⟩ := bwFinish_fits written enough
  have whole := length_align (streamFrom 0 fields)
  have readBack : ∀ front back, front ++ back = fields →
      ∃ r, readFields reading front (brInit w'.out) =
          .ok (front.map (BitField.value reading), r) ∧
        Delivers r (streamFrom (streamFrom 0 front).length back ++
          List.replicate (padding (streamFrom 0 fields).length) false) ∧
        Settled w'.out 8 r := by
    intro front back isFields
    have parts := streamFrom_append 0 front back
    rw [isFields, Nat.zero_add] at parts
    have isStream : align (streamFrom 0 fields) = streamFrom 0 front ++
        (streamFrom (streamFrom 0 front).length back ++
          List.replicate (padding (streamFrom 0 fields).length) false) :=
      (congrArg (· ++ List.replicate (padding (streamFrom 0 fields).length) false) parts).trans
        (List.append_assoc ..)
    have delivers := delivers_brInit w'.out
    rw [isOut, isStream] at delivers
    apply readFields_delivers reading front (settled_brInit w'.out) _ delivers
    rw [← isStream, whole]
    omega
  refine ⟨w, w', isWritten, finished, clear, ?_, ?_, ?_⟩
  · obtain ⟨last, aligned, -, writtenEnd⟩ := written.bwAlign (by omega)
    rw [bwFinish, aligned] at finished
    obtain ⟨-, rfl⟩ := Prod.mk.inj (Option.some.inj finished)
    have isCount := writtenEnd.count
    have isLong := length_bitsOfBytes last.out
    rw [isOut] at isLong
    omega
  · obtain ⟨r, reads, delivers, settled⟩ := readBack fields [] (List.append_nil fields)
    have isLong := delivers.length
    have inside := settled.inside
    rw [settled.input, streamFrom, List.nil_append, List.length_replicate, padding] at isLong
    exact ⟨r, reads, by omega, delivers.clear⟩
  · rintro front ⟨back, isFields⟩
    constructor
    · have shorter : (streamFrom 0 front).length ≤ 8 * w.cap := by
        rw [← isFields, streamFrom_append, List.length_append] at enough
        omega
      rw [isCap] at shorter
      obtain ⟨v, isWrittenFront, -, -, low, high⟩ := writeFields_fits
        (fun field member => legal field (isFields ▸ List.mem_append_left back member)) shorter
      exact ⟨v, isWrittenFront, low, high⟩
    · obtain ⟨s, reads, delivers, settled⟩ := readBack front back isFields
      exact ⟨s, reads, settled.small, delivers.clear⟩

/-- Three bits, a code, the rest of the byte, and a value that is cut to its low bits. -/
def mixedFields : List BitField := [.bits 5 3, .code 6 4, .align, .bits 1000 8]

theorem fields_are_read_back_mixed :
    ∃ w w', writeFields mixedFields (bwInit 2) = some w ∧ bwFinish w = some (w'.out.length, w') ∧
      w'.overflow = false ∧ w'.bitCount = 0 ∧
      (∃ r, readFields .bitwise mixedFields (brInit w'.out) =
          .ok ([some 5, some 6, none, some 232], r) ∧
        r.pos = w'.out.length ∧ r.underflow = false) ∧
      ∀ front, front <+: mixedFields →
        (∃ v, writeFields front (bwInit 2) = some v ∧ 0 ≤ v.bitCount ∧ v.bitCount < 8) ∧
        ∃ s, readFields .bitwise front (brInit w'.out) =
            .ok (front.map (BitField.value .bitwise), s) ∧
          s.bitCount < 8 ∧ s.underflow = false := by
  have legal : ∀ field ∈ mixedFields, field.Legal := by
    simp [mixedFields, BitField.Legal]
  exact fields_are_read_back legal (by decide) .bitwise

end FoundationsLab.Deflate
