import Mathlib.Data.List.Chain

/-! # Valid UTF-8

What of a UTF-8 text can be said byte by byte: it may be cut at an ASCII character, and it
never holds the encoding of a surrogate. -/

namespace FoundationsLab.Foundation.Utf8

/-- The encoding of some characters. -/
def Valid (bytes : List UInt8) : Prop := bytes.toByteArray.IsValidUTF8

theorem valid_iff {bytes : List UInt8} :
    Valid bytes ↔ ∃ chars : List Char, bytes = chars.flatMap String.utf8EncodeChar := by
  constructor
  · rintro ⟨chars, same⟩
    refine ⟨chars, ?_⟩
    have isData := congrArg ByteArray.data same
    rw [List.data_toByteArray, List.utf8Encode, List.data_toByteArray] at isData
    exact Array.toList_inj.mpr isData
  · rintro ⟨chars, rfl⟩
    exact ⟨chars, rfl⟩

theorem valid_nil : Valid [] := valid_iff.mpr ⟨[], rfl⟩

theorem valid_char (c : Char) : Valid (String.utf8EncodeChar c) :=
  valid_iff.mpr ⟨[c], (List.append_nil _).symm⟩

theorem Valid.append {front back : List UInt8} (validFront : Valid front) (validBack : Valid back) :
    Valid (front ++ back) := by
  obtain ⟨first, rfl⟩ := valid_iff.mp validFront
  obtain ⟨second, rfl⟩ := valid_iff.mp validBack
  exact valid_iff.mpr ⟨first ++ second, List.flatMap_append.symm⟩

/-! ## The encoding of one character -/

/-- A continuation byte. -/
def tail (n : Nat) : UInt8 := .ofNat (n % 64 + 0x80)

theorem toNat_tail (n : Nat) : (tail n).toNat = n % 64 + 0x80 := by
  rw [tail, UInt8.toNat_ofNat']
  omega

/-- By the length of the encoding. -/
inductive Encoding (code : Nat) : List UInt8 → Prop where
  | one (small : code < 0x80) : Encoding code [.ofNat code]
  | two (large : 0x80 ≤ code) (small : code < 0x800) :
      Encoding code [.ofNat (code / 64 + 0xC0), tail code]
  | three (large : 0x800 ≤ code) (small : code < 0x10000)
      (noSurrogate : code < 0xD800 ∨ 0xDFFF < code) :
      Encoding code [.ofNat (code / 4096 + 0xE0), tail (code / 64), tail code]
  | four (large : 0x10000 ≤ code) (small : code < 0x110000) :
      Encoding code [.ofNat (code / 262144 + 0xF0), tail (code / 4096), tail (code / 64), tail code]

theorem encoding_char (c : Char) : Encoding c.toNat (String.utf8EncodeChar c) := by
  have isValid : c.toNat < 0xD800 ∨ 0xDFFF < c.toNat ∧ c.toNat < 0x110000 := c.valid
  have isCode : c.val.toNat = c.toNat := rfl
  rw [String.utf8EncodeChar, isCode]
  generalize c.toNat = code at isValid
  split
  next small => exact .one (by omega)
  next notOne =>
    split
    next small =>
      rw [show code / 64 % 32 = code / 64 by omega]
      exact .two (by omega) (by omega)
    next notTwo =>
      split
      next small =>
        rw [show code / 4096 % 16 = code / 4096 by omega]
        exact .three (by omega) (by omega) (by omega)
      next notThree =>
        rw [show code / 262144 % 8 = code / 262144 by omega]
        exact .four (by omega) (by omega)

/-- A character has one encoding. -/
theorem Encoding.unique {code : Nat} {bytes other : List UInt8} (encoding : Encoding code bytes)
    (same : Encoding code other) : bytes = other := by
  cases encoding <;> cases same <;> first | rfl | omega

/-- A character of one byte is that byte. -/
theorem Encoding.code_of_byte {code : Nat} {byte : UInt8} (encoding : Encoding code [byte]) :
    code = byte.toNat := by
  cases encoding with
  | one small =>
      rw [UInt8.toNat_ofNat']
      omega

/-- An ASCII character is one byte, and any other character has no ASCII byte. -/
theorem Encoding.ascii {code : Nat} {bytes : List UInt8} (encoding : Encoding code bytes)
    {byte : UInt8} (member : byte ∈ bytes) (isAscii : byte < 0x80) : bytes = [byte] := by
  have less : byte.toNat < 128 := UInt8.lt_iff_toNat_lt.mp isAscii
  have notTail : ∀ n, byte ≠ tail n := by
    rintro n rfl
    rw [toNat_tail] at less
    omega
  have notLead : ∀ n, 0xC0 ≤ n → n < 0x100 → byte ≠ .ofNat n := by
    rintro n atLeast small rfl
    rw [UInt8.toNat_ofNat'] at less
    omega
  cases encoding with
  | one small => rw [List.mem_singleton.mp member]
  | two large small =>
      simp only [List.mem_cons, List.not_mem_nil, or_false] at member
      rcases member with same | same
      · exact absurd same (notLead _ (by omega) (by omega))
      · exact absurd same (notTail _)
  | three large small noSurrogate =>
      simp only [List.mem_cons, List.not_mem_nil, or_false] at member
      rcases member with same | same | same
      · exact absurd same (notLead _ (by omega) (by omega))
      · exact absurd same (notTail _)
      · exact absurd same (notTail _)
  | four large small =>
      simp only [List.mem_cons, List.not_mem_nil, or_false] at member
      rcases member with same | same | same | same
      · exact absurd same (notLead _ (by omega) (by omega))
      · exact absurd same (notTail _)
      · exact absurd same (notTail _)
      · exact absurd same (notTail _)

/-- A text can be cut at an ASCII character, by induction on the characters. -/
theorem Valid.split {front back : List UInt8} {byte : UInt8}
    (valid : Valid (front ++ byte :: back)) (isAscii : byte < 0x80) : Valid front ∧ Valid back := by
  obtain ⟨chars, same⟩ := valid_iff.mp valid
  clear valid
  induction chars generalizing front with
  | nil => exact absurd same (List.append_ne_nil_of_right_ne_nil front (List.cons_ne_nil byte back))
  | cons c chars induction =>
      have encoding := encoding_char c
      rw [List.flatMap_cons] at same
      rcases List.append_eq_append_iff.mp same with ⟨rest, isFirst, isRest⟩ | ⟨rest, rfl, isRest⟩
      · cases rest with
        | nil =>
            rw [List.append_nil] at isFirst
            rw [List.nil_append] at isRest
            obtain ⟨-, validBack⟩ := @induction [] isRest
            rw [← isFirst]
            exact ⟨valid_char c, validBack⟩
        | cons d rest =>
            obtain ⟨rfl, rfl⟩ := List.cons.inj isRest
            have member : byte ∈ String.utf8EncodeChar c := by
              rw [isFirst]
              exact List.mem_append_right front List.mem_cons_self
            rw [encoding.ascii member isAscii] at isFirst
            rcases List.append_eq_singleton_iff.mp isFirst.symm with ⟨rfl, isByte⟩ | ⟨-, isNil⟩
            · obtain ⟨-, rfl⟩ := List.cons.inj isByte
              exact ⟨valid_nil, valid_iff.mpr ⟨chars, rfl⟩⟩
            · cases isNil
      · obtain ⟨validRest, validBack⟩ := induction isRest.symm
        exact ⟨(valid_char c).append validRest, validBack⟩

/-- ASCII characters in front make no difference. -/
theorem Valid.of_ascii {front back : List UInt8} (valid : Valid (front ++ back))
    (ascii : ∀ byte ∈ front, byte < 0x80) : Valid back := by
  induction front with
  | nil => exact valid
  | cons byte front induction =>
      obtain ⟨isAscii, ascii⟩ := List.forall_mem_cons.mp ascii
      have validRest : Valid ([] ++ byte :: (front ++ back)) := valid
      exact induction (validRest.split isAscii).2 ascii

/-! ## Surrogates -/

/-- The second byte of a surrogate, behind its first one, is too large. -/
def Follows (first second : UInt8) : Prop := first = 0xED → second < 0xA0

theorem follows_of_ne {first second : UInt8} (other : first.toNat ≠ 0xED) :
    Follows first second := by
  rintro rfl
  exact absurd rfl other

theorem Encoding.follows {code : Nat} {bytes : List UInt8} (encoding : Encoding code bytes) :
    bytes.IsChain Follows ∧ ∀ last ∈ bytes.getLast?, last.toNat ≠ 0xED := by
  have notTail : ∀ n, (tail n).toNat ≠ 0xED := by
    intro n
    rw [toNat_tail]
    omega
  cases encoding with
  | one small =>
      refine ⟨.singleton _, ?_⟩
      rintro last same
      cases same
      show (UInt8.ofNat code).toNat ≠ 0xED
      rw [UInt8.toNat_ofNat']
      omega
  | two large small =>
      refine ⟨.cons_cons (follows_of_ne ?_) (.singleton _), ?_⟩
      · rw [UInt8.toNat_ofNat']
        omega
      · rintro last same
        cases same
        exact notTail _
  | three large small noSurrogate =>
      refine ⟨.cons_cons ?_ (.cons_cons (follows_of_ne (notTail _)) (.singleton _)), ?_⟩
      · intro isFirst
        have isLead := congrArg UInt8.toNat isFirst
        rw [UInt8.toNat_ofNat'] at isLead
        have value : (0xED : UInt8).toNat = 0xED := rfl
        rw [UInt8.lt_iff_toNat_lt, toNat_tail]
        show code / 64 % 64 + 0x80 < 0xA0
        omega
      · rintro last same
        cases same
        exact notTail _
  | four large small =>
      refine ⟨.cons_cons (follows_of_ne ?_) (.cons_cons (follows_of_ne (notTail _))
        (.cons_cons (follows_of_ne (notTail _)) (.singleton _))), ?_⟩
      · rw [UInt8.toNat_ofNat']
        omega
      · rintro last same
        cases same
        exact notTail _

theorem Valid.follows {bytes : List UInt8} (valid : Valid bytes) : bytes.IsChain Follows := by
  obtain ⟨chars, rfl⟩ := valid_iff.mp valid
  clear valid
  induction chars with
  | nil => exact .nil
  | cons c chars induction =>
      obtain ⟨inside, notLast⟩ := (encoding_char c).follows
      exact inside.append induction fun last isLast _ _ => follows_of_ne (notLast last isLast)

/-- No surrogate is encoded in a valid text. -/
theorem Valid.noSurrogate {front back : List UInt8} {second : UInt8}
    (valid : Valid (front ++ 0xED :: second :: back)) : second < 0xA0 :=
  (List.isChain_cons_cons.mp valid.follows.right_of_append).1 rfl

end FoundationsLab.Foundation.Utf8
