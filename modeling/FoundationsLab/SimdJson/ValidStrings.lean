import FoundationsLab.Foundation.Utf8
import FoundationsLab.SimdJson.Acceptance

/-! # Strings in UTF-8

From a text in UTF-8 every string comes out in UTF-8 as well, unless the text escapes a low
surrogate that does not follow the escape of a high one. -/

namespace FoundationsLab.SimdJson

open Foundation.Utf8

/-! ## The encoder -/

theorem or_lead {lead n i : Nat} (small : n < 2 ^ i) (shifted : 2 ^ i ∣ lead) :
    lead ||| n = n + lead := by
  obtain ⟨k, rfl⟩ := shifted
  rw [← Nat.two_pow_add_eq_or_of_lt small, Nat.add_comm]

theorem and_mask (n : Nat) : n &&& 0x3F = n % 64 := Nat.and_two_pow_sub_one_eq_mod n 6

theorem or_tail (n : Nat) : .ofNat (0x80 ||| n &&& 0x3F) = tail n := by
  rw [tail, and_mask, @or_lead 0x80 (n % 64) 6 (by omega) (by decide)]

/-- Code points are encoded as UTF-8 prescribes, the surrogates aside. -/
theorem encodeUtf8_encoding {cp : Nat} (isScalar : cp < 0xD800 ∨ 0xDFFF < cp)
    (bounded : cp < 0x110000) : Encoding cp (encodeUtf8 cp) := by
  rw [encodeUtf8, or_tail, or_tail, or_tail, Nat.shiftRight_eq_div_pow, Nat.shiftRight_eq_div_pow,
    Nat.shiftRight_eq_div_pow]
  split
  next small => exact .one (by omega)
  next notOne =>
    split
    next small =>
      rw [@or_lead 0xC0 (cp / 2 ^ 6) 5 (by omega) (by decide)]
      exact .two (by omega) (by omega)
    next notTwo =>
      split
      next small =>
        rw [@or_lead 0xE0 (cp / 2 ^ 12) 4 (by omega) (by decide)]
        exact .three (by omega) (by omega) isScalar
      next notThree =>
        rw [@or_lead 0xF0 (cp / 2 ^ 18) 3 (by omega) (by decide)]
        exact .four (by omega) (by omega)

theorem valid_encodeUtf8 {cp : Nat} (isScalar : cp < 0xD800 ∨ 0xDFFF < cp)
    (bounded : cp < 0x110000) : Valid (encodeUtf8 cp) := by
  have isValid : cp.isValidChar := by
    rcases isScalar with below | above
    · exact Or.inl below
    · exact Or.inr ⟨above, bounded⟩
  have isCode : (Char.ofNatAux cp isValid).toNat = cp := by
    show (UInt32.ofNatLT cp _).toNat = cp
    rfl
  have encoding := encoding_char (Char.ofNatAux cp isValid)
  rw [isCode] at encoding
  rw [(encodeUtf8_encoding isScalar bounded).unique encoding]
  exact valid_char _

/-- A low surrogate is encoded like any other code point of its size. -/
theorem encodeUtf8_low {cp : Nat} (low : isLow cp = true) :
    ∃ second last : UInt8, encodeUtf8 cp = [0xED, second, last] ∧ ¬ second < 0xA0 := by
  have range := of_decide_eq_true low
  have isLead : cp / 2 ^ 12 = 13 := by omega
  rw [encodeUtf8, if_neg (by omega), if_neg (by omega), if_pos (by omega), or_tail, or_tail,
    Nat.shiftRight_eq_div_pow, Nat.shiftRight_eq_div_pow, isLead]
  refine ⟨_, _, rfl, ?_⟩
  rw [UInt8.lt_iff_toNat_lt, toNat_tail]
  show ¬ cp / 64 % 64 + 0x80 < 0xA0
  omega

/-! ## One string -/

/-- A low surrogate is escaped, and not directly behind a high one. -/
def loneLow : (afterHigh : Bool) → List Piece → Bool
  | _, [] => false
  | afterHigh, .unicode digits :: rest =>
      (isLow (unit digits) && !afterHigh) || loneLow (isHigh (unit digits)) rest
  | _, .raw _ :: rest => loneLow false rest
  | _, .short _ :: rest => loneLow false rest

theorem unit_lt {digits : List UInt8} (legal : Piece.Legal (.unicode digits)) :
    unit digits < 0x10000 := by
  obtain ⟨isLength, areDigits⟩ := legal
  have bound : ∀ d : UInt8, (hexDigit d).getD 0 < 16 := by
    intro d
    cases isDigit : hexDigit d with
    | none => exact Nat.succ_pos 15
    | some digit => exact hexDigit_lt isDigit
  match digits, isLength with
  | [a, b, c, d], _ =>
      have boundA := bound a
      have boundB := bound b
      have boundC := bound c
      have boundD := bound d
      simp only [unit, List.foldl_cons, List.foldl_nil]
      omega

theorem combined_bounds {high low : Nat} (isHigh' : isHigh high = true)
    (isLow' : isLow low = true) : 0xDFFF < combined high low ∧ combined high low < 0x110000 := by
  have rangeHigh := of_decide_eq_true isHigh'
  have rangeLow := of_decide_eq_true isLow'
  unfold combined
  omega

theorem isLow_of_isHigh {unit : Nat} (high : isHigh unit = true) : isLow unit = false := by
  have range := of_decide_eq_true high
  exact decide_eq_false (by omega)

/-- The rest of an escape is ASCII. -/
theorem ascii_of_hexDigit {c : UInt8} (isDigit : (hexDigit c).isSome) : c < 0x80 := by
  obtain ⟨digit, isDigit⟩ := Option.isSome_iff_exists.mp isDigit
  have small : ∀ high : UInt8, high < 0x80 → c ≤ high → c < 0x80 :=
    fun high less le => UInt8.lt_of_le_of_lt le less
  rw [hexDigit] at isDigit
  split at isDigit
  next range => exact small _ (by decide) range.2
  next =>
    split at isDigit
    next range => exact small _ (by decide) range.2
    next =>
      split at isDigit
      next range => exact small _ (by decide) range.2
      next => cases isDigit

theorem ascii_unicode {digits : List UInt8} (legal : Piece.Legal (.unicode digits)) :
    ∀ byte ∈ 'u'.toUInt8 :: digits, byte < 0x80 :=
  List.forall_mem_cons.mpr ⟨by decide, fun d member => ascii_of_hexDigit (List.all_eq_true.mp legal.2 d member)⟩

theorem ascii_short {letter : UInt8} (legal : Piece.Legal (.short letter)) : letter < 0x80 := by
  have small : (['\"', '\\', '/', 'b', 'f', 'n', 'r', 't'].map Char.toUInt8).all (· < 0x80) = true := by
    decide
  exact of_decide_eq_true (List.all_eq_true.mp small letter legal)

/-- A short escape stands for an ASCII character. -/
theorem valid_simpleEscape (letter : UInt8) : Valid (simpleEscape letter).toList := by
  have valid : ∀ c : Char, String.utf8EncodeChar c = [c.toUInt8] → Valid [c.toUInt8] :=
    fun c same => same ▸ valid_char c
  rw [simpleEscape]
  split
  · exact valid '\"' (by decide)
  split
  · exact valid '\\' (by decide)
  split
  · exact valid '/' (by decide)
  split
  · exact valid '\x08' (by decide)
  split
  · exact valid '\x0C' (by decide)
  split
  · exact valid '\n' (by decide)
  split
  · exact valid '\r' (by decide)
  split
  · exact valid '\t' (by decide)
  · exact valid_nil

/-- Behind an escape the text goes on in UTF-8. -/
theorem valid_behind {done tail rest : List UInt8}
    (valid : Valid (done ++ (backslash :: (tail ++ rest)))) (ascii : ∀ byte ∈ tail, byte < 0x80) :
    Valid done ∧ Valid ([] ++ rest) := by
  obtain ⟨before, behind⟩ := valid.split (by decide)
  exact ⟨before, behind.of_ascii ascii⟩

/-- What a string stands for is in UTF-8, behind the characters that come before, by induction
on what it stands for. -/
theorem valid_decode (pieces : List Piece) {done bytes : List UInt8}
    (legal : ∀ piece ∈ pieces, piece.Legal) (valid : Valid (done ++ body pieces))
    (decoded : decode pieces = some bytes) (noLone : loneLow false pieces = false) :
    Valid (done ++ bytes) := by
  induction pieces using decode.induct generalizing done bytes with
  | case1 =>
      cases decoded
      exact valid
  | case2 c rest induction =>
      obtain ⟨-, legal⟩ := List.forall_mem_cons.mp legal
      rw [decode, Option.map_eq_some_iff] at decoded
      obtain ⟨others, decoded, rfl⟩ := decoded
      rw [loneLow] at noLone
      have validNext : Valid ((done ++ [c]) ++ body rest) := by
        rw [List.append_assoc]
        exact valid
      have validRest := induction legal validNext decoded noLone
      rw [List.append_assoc] at validRest
      exact validRest
  | case3 letter rest induction =>
      obtain ⟨legalLetter, legal⟩ := List.forall_mem_cons.mp legal
      rw [decode, Option.map_eq_some_iff] at decoded
      obtain ⟨others, decoded, rfl⟩ := decoded
      rw [loneLow] at noLone
      have validEscape : Valid (done ++ (backslash :: ([letter] ++ body rest))) := valid
      obtain ⟨validDone, validBehind⟩ := valid_behind validEscape
        (List.forall_mem_singleton.mpr (ascii_short legalLetter))
      have validRest := induction legal validBehind decoded noLone
      exact validDone.append ((valid_simpleEscape letter).append validRest)
  | case4 digits high low rest isLow' induction =>
      obtain ⟨legalHigh, legal⟩ := List.forall_mem_cons.mp legal
      obtain ⟨legalLow, legal⟩ := List.forall_mem_cons.mp legal
      rw [decode, if_pos high, if_pos isLow', Option.map_eq_some_iff] at decoded
      obtain ⟨others, decoded, rfl⟩ := decoded
      have noHigh : isHigh (unit low) = false := by
        rw [Bool.eq_false_iff]
        intro isHigh'
        rw [isLow_of_isHigh isHigh'] at isLow'
        cases isLow'
      rw [loneLow, loneLow, high, isLow_of_isHigh high, Bool.false_and, Bool.false_or, noHigh,
        Bool.not_true, Bool.and_false, Bool.false_or] at noLone
      have validEscape : Valid (done ++ (backslash :: (('u'.toUInt8 :: digits) ++
          (backslash :: (('u'.toUInt8 :: low) ++ body rest))))) := by
        rw [body, List.flatMap_cons, List.flatMap_cons] at valid
        exact valid
      obtain ⟨validDone, validSecond⟩ := valid_behind validEscape (ascii_unicode legalHigh)
      obtain ⟨-, validBehind⟩ := valid_behind validSecond (ascii_unicode legalLow)
      have validRest := induction legal validBehind decoded noLone
      obtain ⟨above, bounded⟩ := combined_bounds high isLow'
      exact validDone.append ((valid_encodeUtf8 (Or.inr above) bounded).append validRest)
  | case5 digits high low rest notLow =>
      rw [decode, if_pos high, if_neg notLow] at decoded
      cases decoded
  | case6 digits rest high notUnicode =>
      rw [decode.eq_def] at decoded
      dsimp only at decoded
      rw [if_pos high] at decoded
      split at decoded
      next low others => exact absurd rfl (notUnicode low others)
      next => cases decoded
  | case7 digits rest notHigh induction =>
      obtain ⟨legalUnit, legal⟩ := List.forall_mem_cons.mp legal
      have bounded := unit_lt legalUnit
      rw [decode.eq_def] at decoded
      dsimp only at decoded
      rw [if_neg notHigh, Option.map_eq_some_iff] at decoded
      obtain ⟨others, decoded, rfl⟩ := decoded
      have noHigh : isHigh (unit digits) = false := by simpa using notHigh
      rw [loneLow, noHigh, Bool.not_false, Bool.and_true, Bool.or_eq_false_iff] at noLone
      have isScalar : unit digits < 0xD800 ∨ 0xDFFF < unit digits := by
        have outsideHigh := of_decide_eq_false noHigh
        have outsideLow := of_decide_eq_false noLone.1
        omega
      have validEscape : Valid (done ++ (backslash :: (('u'.toUInt8 :: digits) ++ body rest))) := by
        rw [body, List.flatMap_cons] at valid
        exact valid
      obtain ⟨validDone, validBehind⟩ := valid_behind validEscape (ascii_unicode legalUnit)
      have validRest := induction legal validBehind decoded noLone.2
      exact validDone.append ((valid_encodeUtf8 isScalar (by omega)).append validRest)

/-- A surrogate on its own shows in the bytes. -/
theorem surrogate_of_loneLow (pieces : List Piece) {bytes : List UInt8}
    (decoded : decode pieces = some bytes) (isLone : loneLow false pieces = true) :
    ∃ front second back, bytes = front ++ 0xED :: second :: back ∧ ¬ second < 0xA0 := by
  induction pieces using decode.induct generalizing bytes with
  | case1 => cases isLone
  | case2 c rest induction =>
      rw [decode, Option.map_eq_some_iff] at decoded
      obtain ⟨others, decoded, rfl⟩ := decoded
      rw [loneLow] at isLone
      obtain ⟨front, second, back, rfl, large⟩ := induction decoded isLone
      exact ⟨c :: front, second, back, rfl, large⟩
  | case3 letter rest induction =>
      rw [decode, Option.map_eq_some_iff] at decoded
      obtain ⟨others, decoded, rfl⟩ := decoded
      rw [loneLow] at isLone
      obtain ⟨front, second, back, rfl, large⟩ := induction decoded isLone
      exact ⟨_ ++ front, second, back, (List.append_assoc ..).symm, large⟩
  | case4 digits high low rest isLow' induction =>
      rw [decode, if_pos high, if_pos isLow', Option.map_eq_some_iff] at decoded
      obtain ⟨others, decoded, rfl⟩ := decoded
      have noHigh : isHigh (unit low) = false := by
        rw [Bool.eq_false_iff]
        intro isHigh'
        rw [isLow_of_isHigh isHigh'] at isLow'
        cases isLow'
      rw [loneLow, loneLow, high, isLow_of_isHigh high, Bool.false_and, Bool.false_or, noHigh,
        Bool.not_true, Bool.and_false, Bool.false_or] at isLone
      obtain ⟨front, second, back, rfl, large⟩ := induction decoded isLone
      exact ⟨_ ++ front, second, back, (List.append_assoc ..).symm, large⟩
  | case5 digits high low rest notLow =>
      rw [decode, if_pos high, if_neg notLow] at decoded
      cases decoded
  | case6 digits rest high notUnicode =>
      rw [decode.eq_def] at decoded
      dsimp only at decoded
      rw [if_pos high] at decoded
      split at decoded
      next low others => exact absurd rfl (notUnicode low others)
      next => cases decoded
  | case7 digits rest notHigh induction =>
      rw [decode.eq_def] at decoded
      dsimp only at decoded
      rw [if_neg notHigh, Option.map_eq_some_iff] at decoded
      obtain ⟨others, decoded, rfl⟩ := decoded
      have noHigh : isHigh (unit digits) = false := by simpa using notHigh
      rw [loneLow, noHigh, Bool.not_false, Bool.and_true, Bool.or_eq_true] at isLone
      rcases isLone with low | isLone
      · obtain ⟨second, last, isEncoded, large⟩ := encodeUtf8_low low
        exact ⟨[], second, last :: others, by rw [isEncoded]; rfl, large⟩
      · obtain ⟨front, second, back, rfl, large⟩ := induction decoded isLone
        exact ⟨_ ++ front, second, back, (List.append_assoc ..).symm, large⟩

/-- A string comes out in UTF-8 exactly when it escapes no low surrogate on its own. -/
theorem valid_decode_iff {pieces : List Piece} {bytes : List UInt8}
    (legal : ∀ piece ∈ pieces, piece.Legal) (valid : Valid (body pieces))
    (decoded : decode pieces = some bytes) : Valid bytes ↔ loneLow false pieces = false := by
  constructor
  · intro validBytes
    rw [Bool.eq_false_iff]
    intro isLone
    obtain ⟨front, second, back, rfl, large⟩ := surrogate_of_loneLow pieces decoded isLone
    exact large validBytes.noSurrogate
  · intro noLone
    have validNothing : Valid ([] ++ body pieces) := valid
    exact valid_decode pieces legal validNothing decoded noLone

/-! ## All strings of a document -/

/-- The strings and the keys inside a value. -/
inductive HasString {Double : Type} : Value Double → List UInt8 → Prop where
  | string (string : List UInt8) : HasString (.string string) string
  | element {array : List (Value Double)} {v : Value Double} {string : List UInt8}
      (member : v ∈ array) (inside : HasString v string) : HasString (.array array) string
  | key {object : List (List UInt8 × Value Double)} {entry : List UInt8 × Value Double}
      (member : entry ∈ object) : HasString (.object object) entry.1
  | member {object : List (List UInt8 × Value Double)} {entry : List UInt8 × Value Double}
      {string : List UInt8} (member : entry ∈ object) (inside : HasString entry.2 string) :
      HasString (.object object) string

section Strings

variable {Double : Type} {fromChars : List UInt8 → Option (Nat × Double)}

variable {P : List UInt8 → Prop}

/-- Every string inside a value has the property. -/
def EachString (P : List UInt8 → Prop) (v : Value Double) : Prop := ∀ string, HasString v string → P string

theorem eachString_string {string : List UInt8} :
    EachString P (.string string : Value Double) ↔ P string := by
  constructor
  · exact fun each => each string (.string string)
  · rintro holds other ⟨⟩
    exact holds

theorem eachString_array {array : List (Value Double)} :
    EachString P (.array array) ↔ ∀ v ∈ array, EachString P v := by
  constructor
  · exact fun each v member string inside => each string (.element member inside)
  · intro each string inside
    cases inside with
    | element member inside => exact each _ member string inside

theorem eachString_object {object : List (List UInt8 × Value Double)} :
    EachString P (.object object) ↔ ∀ entry ∈ object, P entry.1 ∧ EachString P entry.2 := by
  constructor
  · intro each entry member
    exact ⟨each entry.1 (.key member), fun string inside => each string (.member member inside)⟩
  · intro each string inside
    cases inside with
    | key member => exact (each _ member).1
    | member member inside => exact (each _ member).2 string inside

/-- What a literal stands for has the property. -/
def Decodes (P : List UInt8 → Prop) (pieces : List Piece) : Prop :=
  ∃ bytes, decode pieces = some bytes ∧ P bytes

theorem decodes_iff {pieces : List Piece} {bytes : List UInt8} (decoded : decode pieces = some bytes) :
    Decodes P pieces ↔ P bytes := by
  constructor
  · rintro ⟨other, same, holds⟩
    rw [decoded] at same
    exact Option.some.inj same ▸ holds
  · exact fun holds => ⟨bytes, decoded, holds⟩

mutual

/-- The strings of a value are what the literals of its tree stand for. -/
theorem Node.eachString (node : Node) {v : Value Double} (isValue : node.value fromChars = some v) :
    EachString P v ↔ ∀ pieces ∈ node.literals, Decodes P pieces := by
  have plain : (∀ string, ¬ HasString v string) → node.literals = [] →
      (EachString P v ↔ ∀ pieces ∈ node.literals, Decodes P pieces) := by
    intro none' isNil
    rw [isNil]
    exact iff_of_true (fun string inside => absurd inside (none' string)) (List.forall_mem_nil _)
  cases node with
  | null =>
      cases isValue
      exact plain (by rintro string ⟨⟩) rfl
  | bool boolean =>
      cases isValue
      exact plain (by rintro string ⟨⟩) rfl
  | number token =>
      obtain ⟨number, rfl⟩ : ∃ number, v = .number number := by
        rw [Node.value, NumberToken.value] at isValue
        split at isValue
        next read number isNumber =>
          split at isValue
          next => exact ⟨number, (Option.some.inj isValue).symm⟩
          next => cases isValue
        next => cases isValue
      exact plain (by rintro string ⟨⟩) rfl
  | string literal =>
      rw [Node.value, Option.map_eq_some_iff] at isValue
      obtain ⟨string, decoded, rfl⟩ := isValue
      rw [eachString_string, Node.literals, List.forall_mem_singleton, decodes_iff decoded]
  | emptyArray inside =>
      cases isValue
      rw [eachString_array]
      exact iff_of_true (List.forall_mem_nil _) (List.forall_mem_nil _)
  | array elements =>
      rw [Node.value, Option.map_eq_some_iff] at isValue
      obtain ⟨vs, areValues, rfl⟩ := isValue
      rw [eachString_array]
      exact Elements.eachString elements areValues
  | emptyObject inside =>
      cases isValue
      rw [eachString_object]
      exact iff_of_true (List.forall_mem_nil _) (List.forall_mem_nil _)
  | object members =>
      rw [Node.value, Option.map_eq_some_iff] at isValue
      obtain ⟨vs, areValues, rfl⟩ := isValue
      rw [eachString_object]
      exact Members.eachString members areValues

theorem Elements.eachString (elements : Elements) {vs : List (Value Double)}
    (areValues : elements.values fromChars = some vs) :
    (∀ v ∈ vs, EachString P v) ↔ ∀ pieces ∈ elements.literals, Decodes P pieces := by
  cases elements with
  | last before node after =>
      rw [Elements.values, Option.map_eq_some_iff] at areValues
      obtain ⟨v, isValue, rfl⟩ := areValues
      rw [List.forall_mem_singleton]
      exact Node.eachString node isValue
  | more before node after others =>
      rw [Elements.values, Option.bind_eq_some_iff] at areValues
      obtain ⟨v, isValue, mapped⟩ := areValues
      obtain ⟨vs, areOthers, rfl⟩ := Option.map_eq_some_iff.mp mapped
      rw [List.forall_mem_cons, Elements.literals, List.forall_mem_append]
      exact and_congr (Node.eachString node isValue) (Elements.eachString others areOthers)

theorem Members.eachString (members : Members) {vs : List (List UInt8 × Value Double)}
    (areValues : members.values fromChars = some vs) :
    (∀ entry ∈ vs, P entry.1 ∧ EachString P entry.2) ↔
      ∀ pieces ∈ members.literals, Decodes P pieces := by
  cases members with
  | last before key afterKey beforeNode node after =>
      rw [Members.values, Option.bind_eq_some_iff] at areValues
      obtain ⟨string, decoded, mapped⟩ := areValues
      obtain ⟨v, isValue, rfl⟩ := Option.map_eq_some_iff.mp mapped
      rw [List.forall_mem_singleton, Members.literals, List.forall_mem_cons]
      exact and_congr (decodes_iff decoded).symm (Node.eachString node isValue)
  | more before key afterKey beforeNode node after others =>
      rw [Members.values, Option.bind_eq_some_iff] at areValues
      obtain ⟨string, decoded, bound⟩ := areValues
      obtain ⟨v, isValue, mapped⟩ := Option.bind_eq_some_iff.mp bound
      obtain ⟨vs, areOthers, rfl⟩ := Option.map_eq_some_iff.mp mapped
      rw [List.forall_mem_cons, Members.literals, List.forall_mem_cons, List.forall_mem_append,
        and_assoc]
      exact and_congr (decodes_iff decoded).symm (and_congr (Node.eachString node isValue)
        (Members.eachString others areOthers))

end

end Strings

/-! ## The literals lie in the text -/

mutual

theorem Node.infix_literal (node : Node) {pieces : List Piece} (member : pieces ∈ node.literals) :
    (∀ piece ∈ pieces, piece.Legal) ∧ quote :: (body pieces ++ [quote]) <:+: node.text := by
  cases node with
  | null => cases member
  | bool boolean => cases member
  | number token => cases member
  | string literal =>
      rw [List.mem_singleton.mp member]
      exact ⟨literal.legal, List.infix_rfl⟩
  | emptyArray inside => cases member
  | array elements =>
      obtain ⟨legal, inside⟩ := Elements.infix_literal elements member
      exact ⟨legal, inside.trans (List.infix_append' [_] elements.text [_])⟩
  | emptyObject inside => cases member
  | object members =>
      obtain ⟨legal, inside⟩ := Members.infix_literal members member
      exact ⟨legal, inside.trans (List.infix_append' [_] members.text [_])⟩

theorem Elements.infix_literal (elements : Elements) {pieces : List Piece}
    (member : pieces ∈ elements.literals) :
    (∀ piece ∈ pieces, piece.Legal) ∧ quote :: (body pieces ++ [quote]) <:+: elements.text := by
  cases elements with
  | last before node after =>
      obtain ⟨legal, inside⟩ := Node.infix_literal node member
      exact ⟨legal, inside.trans (List.infix_append' before.text node.text after.text)⟩
  | more before node after others =>
      rcases List.mem_append.mp member with member | member
      · obtain ⟨legal, inside⟩ := Node.infix_literal node member
        exact ⟨legal, inside.trans (List.infix_append' before.text node.text _)⟩
      · obtain ⟨legal, inside⟩ := Elements.infix_literal others member
        refine ⟨legal, inside.trans ?_⟩
        refine List.IsSuffix.isInfix ⟨before.text ++ (node.text ++ (after.text ++ [','.toUInt8])), ?_⟩
        simp only [Elements.text, List.append_assoc, List.singleton_append]

theorem Members.infix_literal (members : Members) {pieces : List Piece}
    (member : pieces ∈ members.literals) :
    (∀ piece ∈ pieces, piece.Legal) ∧ quote :: (body pieces ++ [quote]) <:+: members.text := by
  have ofKey : ∀ before (key : Literal) afterKey beforeNode rest,
      (∀ piece ∈ key.pieces, piece.Legal) ∧ quote :: (body key.pieces ++ [quote]) <:+:
        keyText before key afterKey beforeNode ++ rest := by
    intro before key afterKey beforeNode rest
    refine ⟨key.legal, before.text, afterKey.text ++ (':'.toUInt8 :: beforeNode.text) ++ rest, ?_⟩
    simp only [keyText, Literal.text, List.append_assoc, List.cons_append, List.nil_append]
  cases members with
  | last before key afterKey beforeNode node after =>
      rcases List.mem_cons.mp member with rfl | member
      · exact ofKey before key afterKey beforeNode _
      · obtain ⟨legal, inside⟩ := Node.infix_literal node member
        exact ⟨legal, inside.trans (List.infix_append' _ node.text after.text)⟩
  | more before key afterKey beforeNode node after others =>
      rcases List.mem_cons.mp member with rfl | member
      · exact ofKey before key afterKey beforeNode _
      rcases List.mem_append.mp member with member | member
      · obtain ⟨legal, inside⟩ := Node.infix_literal node member
        exact ⟨legal, inside.trans (List.infix_append' _ node.text _)⟩
      · obtain ⟨legal, inside⟩ := Members.infix_literal others member
        refine ⟨legal, inside.trans (List.IsSuffix.isInfix
          ⟨keyText before key afterKey beforeNode ++ (node.text ++ (after.text ++ [','.toUInt8])), ?_⟩)⟩
        simp only [Members.text, List.append_assoc, List.singleton_append]

end

/-- The characters of a literal are in UTF-8 when the text is. -/
theorem valid_literal {document : Document} {pieces : List Piece} (valid : Valid document.text)
    (member : pieces ∈ document.node.literals) :
    (∀ piece ∈ pieces, piece.Legal) ∧ Valid (body pieces) := by
  obtain ⟨legal, front, back, isText⟩ := document.node.infix_literal member
  have isWhole : document.text = (document.before.text ++ front) ++
      (quote :: (body pieces ++ (quote :: (back ++ document.after.text)))) := by
    rw [Document.text, ← isText]
    simp only [List.append_assoc, List.cons_append, List.nil_append]
  rw [isWhole] at valid
  obtain ⟨-, behind⟩ := valid.split (by decide)
  exact ⟨legal, (behind.split (by decide)).1⟩

/-! ## All strings of a text -/

/-- A `\u` escape of a low surrogate that does not directly follow one of a high surrogate. -/
def LoneLowEscape (input : List UInt8) : Prop :=
  ∃ pieces ∈ literals .outside input, loneLow false pieces = true

/-- From a text in UTF-8 all strings and keys come out in UTF-8 exactly when it escapes no low
surrogate on its own. -/
theorem strings_valid_iff {Double : Type} (fromChars : List UInt8 → Option (Nat × Double))
    (input : List UInt8) (simd : Bool) (v : Value Double) (valid : Valid input)
    (parsed : parse fromChars input simd = .ok v) :
    (∀ string, HasString v string → Valid string) ↔ ¬ LoneLowEscape input := by
  obtain ⟨document, rfl, isValue⟩ := (parse_ok input simd v).mp parsed
  have decodes : ∀ pieces ∈ document.node.literals, Decodes (fun _ => True) pieces :=
    (document.node.eachString isValue).mp fun _ _ => trivial
  have each : ∀ pieces ∈ document.node.literals,
      (Decodes Valid pieces ↔ loneLow false pieces = false) := by
    intro pieces member
    obtain ⟨bytes, decoded, -⟩ := decodes pieces member
    obtain ⟨legal, validBody⟩ := valid_literal valid member
    rw [decodes_iff decoded, valid_decode_iff legal validBody decoded]
  have whole : EachString Valid v ↔ ∀ pieces ∈ document.node.literals, Decodes Valid pieces :=
    document.node.eachString isValue
  rw [LoneLowEscape, document.literals_text]
  constructor
  · rintro allValid ⟨pieces, member, isLone⟩
    rw [(each pieces member).mp (whole.mp allValid pieces member)] at isLone
    cases isLone
  · intro noLone
    apply whole.mpr
    intro pieces member
    apply (each pieces member).mpr
    rw [Bool.eq_false_iff]
    exact fun isLone => noLone ⟨pieces, member, isLone⟩

/-- A document that holds one string. -/
theorem parse_string {Double : Type} (fromChars : List UInt8 → Option (Nat × Double)) (simd : Bool)
    (pieces : List Piece) (legal : ∀ piece ∈ pieces, piece.Legal) {bytes : List UInt8}
    (decoded : decode pieces = some bytes) :
    parse fromChars (quote :: (body pieces ++ [quote])) simd = .ok (.string bytes) := by
  apply (parse_ok _ simd _).mpr
  refine ⟨⟨⟨[], List.forall_mem_nil _⟩, .string ⟨pieces, legal⟩, ⟨[], List.forall_mem_nil _⟩⟩, ?_, ?_⟩
  · exact List.append_nil _
  · rw [Node.value, decoded]
    rfl

/-- `"\uD83D\uDE00"`, a surrogate pair. -/
def pairText : List UInt8 :=
  ascii ['\"', '\\', 'u', 'D', '8', '3', 'D', '\\', 'u', 'D', 'E', '0', '0', '\"']

/-- `"\uDC00"`, a low surrogate on its own. -/
def loneText : List UInt8 := ascii ['\"', '\\', 'u', 'D', 'C', '0', '0', '\"']

theorem strings_valid_pair :
    (∀ string, HasString (.string [0xF0, 0x9F, 0x98, 0x80] : Value Nat) string → Valid string) ↔
      ¬ LoneLowEscape pairText := by
  apply strings_valid_iff readDigits pairText true
  · exact valid_iff.mpr ⟨['\"', '\\', 'u', 'D', '8', '3', 'D', '\\', 'u', 'D', 'E', '0', '0', '\"'],
      by decide⟩
  · exact parse_string readDigits true [.unicode (ascii ['D', '8', '3', 'D']), .unicode (ascii ['D', 'E', '0', '0'])]
      (by decide) (by decide)

/-- The text is in UTF-8 and accepted, and its string is not in UTF-8. -/
theorem strings_invalid_lone :
    Valid loneText ∧ ∃ v, parse readDigits loneText true = .ok v ∧
      ¬ ∀ string, HasString v string → Valid string := by
  refine ⟨?_, .string [0xED, 0xB0, 0x80], ?_, ?_⟩
  · exact valid_iff.mpr ⟨['\"', '\\', 'u', 'D', 'C', '0', '0', '\"'], by decide⟩
  · exact parse_string readDigits true [.unicode (ascii ['D', 'C', '0', '0'])] (by decide) (by decide)
  · intro allValid
    have valid : Valid ([] ++ 0xED :: 0xB0 :: [0x80]) := allValid _ (.string _)
    exact absurd valid.noSurrogate (by decide)

end FoundationsLab.SimdJson
