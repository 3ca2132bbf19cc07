import FoundationsLab.SimdJson.ValidStrings

/-! # The spellings of a string

A JSON string can write each of its characters in several ways: as it is, with a short
escape, or with the digits of one or two code units in either case. The parser takes every
spelling back to the UTF-8 encoding of the characters. -/

namespace FoundationsLab.SimdJson

open Foundation.Utf8

/-! ## Spellings -/

def lowerDigits : List Char :=
  ['0', '1', '2', '3', '4', '5', '6', '7', '8', '9', 'a', 'b', 'c', 'd', 'e', 'f']

def upperDigits : List Char :=
  ['0', '1', '2', '3', '4', '5', '6', '7', '8', '9', 'A', 'B', 'C', 'D', 'E', 'F']

/-- The byte is a digit of base 16 with that value. -/
def IsHexDigit (value : Nat) (c : UInt8) : Prop :=
  lowerDigits[value]?.map Char.toUInt8 = some c ∨ upperDigits[value]?.map Char.toUInt8 = some c

/-- Four digits, the most significant one first. -/
def IsHex4 (value : Nat) (digits : List UInt8) : Prop :=
  ∃ values, List.Forall₂ IsHexDigit values digits ∧ values.length = 4 ∧
    values.foldl (fun unit digit => unit * 16 + digit) 0 = value

/-- The characters with a short escape, each with its letter. -/
def shortEscapes : List (Char × Char) :=
  [('\"', '\"'), ('\\', '\\'), ('/', '/'), ('\x08', 'b'), ('\x0c', 'f'), ('\n', 'n'), ('\r', 'r'),
    ('\t', 't')]

/-- The ways to write one character between the quotes. -/
inductive Spelling (c : Char) : List UInt8 → Prop where
  | raw (printable : 0x20 ≤ c.toNat) (notQuote : c ≠ '\"') (notBackslash : c ≠ '\\') :
      Spelling c (String.utf8EncodeChar c)
  | short (letter : Char) (isShort : (c, letter) ∈ shortEscapes) :
      Spelling c [backslash, letter.toUInt8]
  | unicode (digits : List UInt8) (isHex : IsHex4 c.toNat digits) :
      Spelling c (backslash :: 'u'.toUInt8 :: digits)
  | pair (high low : List UInt8) (supplementary : 0x10000 ≤ c.toNat)
      (isHigh : IsHex4 (0xD800 + (c.toNat - 0x10000) / 0x400) high)
      (isLow : IsHex4 (0xDC00 + (c.toNat - 0x10000) % 0x400) low) :
      Spelling c ((backslash :: 'u'.toUInt8 :: high) ++ (backslash :: 'u'.toUInt8 :: low))

/-! ## Digits -/

theorem hexDigit_of_isHexDigit {value : Nat} {c : UInt8} (isDigit : IsHexDigit value c) :
    hexDigit c = some value := by
  have bound : value < 16 := by
    by_contra outside
    have noLower : lowerDigits[value]? = none := List.getElem?_eq_none (Nat.not_lt.mp outside)
    have noUpper : upperDigits[value]? = none := List.getElem?_eq_none (Nat.not_lt.mp outside)
    rcases isDigit with isLower | isUpper
    · rw [noLower] at isLower
      cases isLower
    · rw [noUpper] at isUpper
      cases isUpper
  have both : ∀ value < 16,
      lowerDigits[value]?.bind (fun digit => hexDigit digit.toUInt8) = some value ∧
        upperDigits[value]?.bind (fun digit => hexDigit digit.toUInt8) = some value := by
    decide
  obtain ⟨ofLower, ofUpper⟩ := both value bound
  rcases isDigit with isLower | isUpper
  · obtain ⟨digit, isListed, rfl⟩ := Option.map_eq_some_iff.mp isLower
    rw [isListed] at ofLower
    exact ofLower
  · obtain ⟨digit, isListed, rfl⟩ := Option.map_eq_some_iff.mp isUpper
    rw [isListed] at ofUpper
    exact ofUpper

theorem fold_isHexDigit {values : List Nat} {digits : List UInt8}
    (each : List.Forall₂ IsHexDigit values digits) :
    (∀ d ∈ digits, (hexDigit d).isSome) ∧
      ∀ start, digits.foldl (fun unit d => unit * 16 + (hexDigit d).getD 0) start =
        values.foldl (fun unit digit => unit * 16 + digit) start := by
  induction each with
  | nil => exact ⟨List.forall_mem_nil _, fun _ => rfl⟩
  | cons isDigit others induction =>
      have isSome := hexDigit_of_isHexDigit isDigit
      obtain ⟨areDigits, folds⟩ := induction
      constructor
      · intro d member
        rcases List.mem_cons.mp member with rfl | member
        · rw [isSome]
          rfl
        · exact areDigits d member
      · intro start
        rw [List.foldl_cons, List.foldl_cons, isSome]
        exact folds _

/-- Both cases are read alike. -/
theorem unit_of_isHex4 {value : Nat} {digits : List UInt8} (isHex : IsHex4 value digits) :
    Piece.Legal (.unicode digits) ∧ unit digits = value := by
  obtain ⟨values, each, isLength, rfl⟩ := isHex
  obtain ⟨areDigits, folds⟩ := fold_isHexDigit each
  constructor
  · constructor
    · rw [← each.length_eq, isLength]
    · exact List.all_eq_true.mpr areDigits
  · exact folds 0

/-! ## What the pieces of a spelling mean -/

theorem encodeUtf8_char (c : Char) : encodeUtf8 c.toNat = String.utf8EncodeChar c := by
  have isValid : c.toNat < 0xD800 ∨ 0xDFFF < c.toNat ∧ c.toNat < 0x110000 := c.valid
  have isScalar : c.toNat < 0xD800 ∨ 0xDFFF < c.toNat := by omega
  have bounded : c.toNat < 0x110000 := by omega
  have encoding := encodeUtf8_encoding isScalar bounded
  exact encoding.unique (encoding_char c)

theorem Means.append {front back : List Piece} {bytes others : List UInt8}
    (means : Means front bytes) (meansBack : Means back others) :
    Means (front ++ back) (bytes ++ others) := by
  intro rest
  rw [List.append_assoc, means, meansBack, Option.map_map]
  congr 1
  funext bytes'
  exact (List.append_assoc ..).symm

theorem means_raw (bytes : List UInt8) : Means (bytes.map .raw) bytes := by
  intro rest
  induction bytes with
  | nil => exact Option.map_id'.symm
  | cons c bytes induction =>
      rw [List.map_cons, List.cons_append, decode, induction, Option.map_map]
      rfl

/-- The bytes of a raw character are ordinary ones. -/
theorem raw_legal {c : Char} (notQuote : c ≠ '\"') (notBackslash : c ≠ '\\') :
    ∀ byte ∈ String.utf8EncodeChar c, byte ≠ quote ∧ byte ≠ backslash := by
  intro byte member
  have ordinary : ∀ special : Char, special.toUInt8 < 0x80 →
      special.toUInt8.toNat = special.toNat → c ≠ special → byte ≠ special.toUInt8 := by
    rintro special isAscii sameCode different rfl
    have encoding := encoding_char c
    rw [encoding.ascii member isAscii] at encoding
    exact different (Char.toNat_inj.mp ((encoding.code_of_byte).trans sameCode))
  exact ⟨ordinary '\"' (by decide) (by decide) notQuote,
    ordinary '\\' (by decide) (by decide) notBackslash⟩

theorem body_raw (bytes : List UInt8) : body (bytes.map .raw) = bytes := by
  induction bytes with
  | nil => rfl
  | cons c bytes induction => exact congrArg (c :: ·) induction

theorem means_short {c letter : Char} (isShort : (c, letter) ∈ shortEscapes) :
    Piece.Legal (.short letter.toUInt8) ∧
      Means [.short letter.toUInt8] (String.utf8EncodeChar c) := by
  have each : ∀ entry ∈ shortEscapes, Piece.Legal (.short entry.2.toUInt8) ∧
      (simpleEscape entry.2.toUInt8).toList = String.utf8EncodeChar entry.1 := by
    decide
  obtain ⟨legal, isByte⟩ := each (c, letter) isShort
  refine ⟨legal, fun rest => ?_⟩
  rw [← isByte]
  rfl

/-- Every spelling is a list of legal pieces that stands for the character. -/
theorem Spelling.pieces {c : Char} {text : List UInt8} (spelling : Spelling c text) :
    ∃ pieces, body pieces = text ∧ (∀ piece ∈ pieces, piece.Legal) ∧
      Means pieces (String.utf8EncodeChar c) := by
  cases spelling with
  | raw printable notQuote notBackslash =>
      refine ⟨(String.utf8EncodeChar c).map .raw, body_raw _, ?_, means_raw _⟩
      intro piece member
      obtain ⟨byte, inside, rfl⟩ := List.mem_map.mp member
      exact raw_legal notQuote notBackslash byte inside
  | short letter isShort =>
      obtain ⟨legal, means⟩ := means_short isShort
      exact ⟨[.short letter.toUInt8], rfl, List.forall_mem_singleton.mpr legal, means⟩
  | unicode digits isHex =>
      obtain ⟨legal, isUnit⟩ := unit_of_isHex4 isHex
      have isValid : c.toNat < 0xD800 ∨ 0xDFFF < c.toNat ∧ c.toNat < 0x110000 := c.valid
      have notHigh : SimdJson.isHigh (unit digits) = false := by
        rw [isUnit]
        exact decide_eq_false (by omega)
      have means := means_unicode notHigh
      rw [isUnit, encodeUtf8_char] at means
      exact ⟨[.unicode digits], List.append_nil _, List.forall_mem_singleton.mpr legal, means⟩
  | pair high low supplementary isHigh isLow =>
      obtain ⟨legalHigh, highUnit⟩ := unit_of_isHex4 isHigh
      obtain ⟨legalLow, lowUnit⟩ := unit_of_isHex4 isLow
      have isValid : c.toNat < 0xD800 ∨ 0xDFFF < c.toNat ∧ c.toNat < 0x110000 := c.valid
      have highRange : SimdJson.isHigh (unit high) = true := by
        rw [highUnit]
        exact decide_eq_true (by omega)
      have lowRange : SimdJson.isLow (unit low) = true := by
        rw [lowUnit]
        exact decide_eq_true (by omega)
      have isCode : combined (unit high) (unit low) = c.toNat := by
        rw [highUnit, lowUnit]
        unfold combined
        omega
      have means := means_pair highRange lowRange
      rw [isCode, encodeUtf8_char] at means
      refine ⟨[.unicode high, .unicode low], ?_, ?_, means⟩
      · exact congrArg ((backslash :: 'u'.toUInt8 :: high) ++ ·) (List.append_nil _)
      · exact List.forall_mem_cons.mpr ⟨legalHigh, List.forall_mem_singleton.mpr legalLow⟩

/-- The characters of a string, one spelling after the other. -/
theorem spelled_pieces {chars : List Char} {spellings : List (List UInt8)}
    (spelled : List.Forall₂ Spelling chars spellings) :
    ∃ pieces, body pieces = spellings.flatten ∧ (∀ piece ∈ pieces, piece.Legal) ∧
      Means pieces (chars.flatMap String.utf8EncodeChar) := by
  induction spelled with
  | nil => exact ⟨[], rfl, List.forall_mem_nil _, fun _ => Option.map_id'.symm⟩
  | cons spelling _ induction =>
      obtain ⟨front, isFront, legalFront, meansFront⟩ := spelling.pieces
      obtain ⟨back, isBack, legalBack, meansBack⟩ := induction
      refine ⟨front ++ back, ?_, ?_, ?_⟩
      · rw [List.flatten_cons, ← isFront, ← isBack]
        exact List.flatMap_append
      · exact List.forall_mem_append.mpr ⟨legalFront, legalBack⟩
      · exact meansFront.append meansBack

/-! ## Every spelling is read back -/

/-- However the characters of a string are spelled, parsing the quoted text returns their
UTF-8 encoding. -/
theorem parse_spelling {Double : Type} (fromChars : List UInt8 → Option (Nat × Double))
    (simd : Bool) (chars : List Char) (spellings : List (List UInt8))
    (spelled : List.Forall₂ Spelling chars spellings) :
    parse fromChars (quote :: (spellings.flatten ++ [quote])) simd =
      .ok (.string (chars.flatMap String.utf8EncodeChar)) := by
  obtain ⟨pieces, isText, legal, means⟩ := spelled_pieces spelled
  have decoded : decode pieces = some (chars.flatMap String.utf8EncodeChar) := by
    have whole := means []
    rw [List.append_nil] at whole
    rw [whole]
    exact congrArg some (List.append_nil _)
  rw [← isText]
  exact parse_string fromChars simd pieces legal decoded

/-- A letter as it is, a line feed with its short escape, a letter by its digits, and a
supplementary character by two code units in mixed case. -/
theorem parse_spelling_mixed :
    parse readDigits (quote :: ([String.utf8EncodeChar 'é', [backslash, 'n'.toUInt8],
        backslash :: 'u'.toUInt8 :: ascii ['0', '0', '4', 'b'],
        (backslash :: 'u'.toUInt8 :: ascii ['D', '8', '3', 'd']) ++
          (backslash :: 'u'.toUInt8 :: ascii ['d', 'E', '0', '0'])].flatten ++ [quote])) true =
      .ok (.string (['é', '\n', 'K', '😀'].flatMap String.utf8EncodeChar)) := by
  apply parse_spelling readDigits true ['é', '\n', 'K', '😀']
  have lower : ∀ value c, lowerDigits[value]?.map Char.toUInt8 = some c → IsHexDigit value c :=
    fun _ _ => .inl
  have upper : ∀ value c, upperDigits[value]?.map Char.toUInt8 = some c → IsHexDigit value c :=
    fun _ _ => .inr
  refine .cons ?_ (.cons ?_ (.cons ?_ (.cons ?_ .nil)))
  · exact .raw (by decide) (by decide) (by decide)
  · exact .short 'n' (by decide)
  · refine .unicode _ ⟨[0, 0, 4, 11], ?_, rfl, rfl⟩
    exact .cons (lower _ _ rfl) (.cons (lower _ _ rfl) (.cons (lower _ _ rfl)
      (.cons (lower _ _ rfl) .nil)))
  · apply Spelling.pair
    · decide
    · refine ⟨[13, 8, 3, 13], ?_, rfl, rfl⟩
      exact .cons (upper _ _ rfl) (.cons (lower _ _ rfl) (.cons (lower _ _ rfl)
        (.cons (lower _ _ rfl) .nil)))
    · refine ⟨[13, 14, 0, 0], ?_, rfl, rfl⟩
      exact .cons (lower _ _ rfl) (.cons (upper _ _ rfl) (.cons (lower _ _ rfl)
        (.cons (lower _ _ rfl) .nil)))

end FoundationsLab.SimdJson
