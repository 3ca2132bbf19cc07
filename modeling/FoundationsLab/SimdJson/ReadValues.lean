import FoundationsLab.SimdJson.Agreement
import FoundationsLab.SimdJson.ReadStrings

/-! # Reading values

The recursive functions of the parser read exactly the trees of the grammar, and make of
each the value it stands for. -/

namespace FoundationsLab.SimdJson

variable {cursor reached : Cursor}

/-! ## Numbers -/

theorem skipDigits_reads (starts : peek cursor isDigit = true) :
    ∃ digits, Digits digits ∧ Reads cursor digits (skipDigits cursor) := by
  obtain ⟨digits, reads, runs, -⟩ := scanBytes_reads (fun c => !isDigit c) cursor
  obtain ⟨c, rest, isRest, isFirst⟩ := of_peek starts
  refine ⟨digits, ⟨?_, fun d member => by simpa using runs d member⟩, reads⟩
  rintro rfl
  have isNext : skipDigits cursor = scanBytes (fun c => !isDigit c) (cursor.advance 1) := by
    rw [skipDigits, scanBytes_cons _ isRest, isFirst]
    rfl
  have stays : cursor = skipDigits cursor := reads.advance_eq
  have further := length_scanBytes (fun c => !isDigit c) (cursor.advance 1)
  have less := cursor.length_advance 1
  rw [← isNext, ← stays, isRest, List.length_cons] at further
  rw [isRest, List.length_cons] at less
  omega

theorem skipDigits_of_reads {digits : List UInt8} (areDigits : ∀ d ∈ digits, isDigit d)
    (reads : Reads cursor digits reached) (stops : peek reached isDigit = false) :
    skipDigits cursor = reached := by
  apply scanBytes_of_reads reads
  · intro d member
    simpa using areDigits d member
  · simpa using stops

theorem peek_digits {digits : List UInt8} (areDigits : Digits digits)
    (reads : Reads cursor digits reached) : peek cursor isDigit = true := by
  cases digits with
  | nil => exact absurd rfl areDigits.1
  | cons d digits =>
      rw [peek_cons reads.head]
      exact areDigits.2 d List.mem_cons_self

theorem peekIs_cons {c : UInt8} {rest : List UInt8} (isRest : cursor.rest = c :: rest)
    (d : Char) : peekIs cursor d = (c == d.toUInt8) := peek_cons isRest _

/-- A character that may be there. -/
theorem ite_peekIs_reads (cursor : Cursor) (c : Char) :
    Reads cursor (if peekIs cursor c then [c.toUInt8] else [])
      (if peekIs cursor c then cursor.advance 1 else cursor) := by
  split
  next isThere => exact Reads.of_peekIs isThere
  next => exact .refl cursor

theorem of_integerPart (parsed : integerPart cursor = .ok reached) :
    ∃ minus whole, Reads cursor (sign minus ++ whole) reached ∧
      (whole = ['0'.toUInt8] ∨
        ∃ first others, whole = first :: others ∧ isNonzero first ∧ ∀ d ∈ others, isDigit d) := by
  have reads := ite_peekIs_reads cursor '-'
  rw [integerPart] at parsed
  generalize (if peekIs cursor '-' then cursor.advance 1 else cursor) = next at reads parsed
  refine ⟨peekIs cursor '-', ?_⟩
  split at parsed
  next isZero =>
    cases parsed
    exact ⟨['0'.toUInt8], reads.trans (.of_peekIs isZero), Or.inl rfl⟩
  next =>
    split at parsed
    next isFirst =>
      cases parsed
      obtain ⟨first, rest, isRest, nonzero⟩ := of_peek isFirst
      have starts : peek next isDigit = true := by
        have range := of_decide_eq_true nonzero
        rw [peek_cons isRest]
        exact decide_eq_true ⟨UInt8.le_trans (by decide) range.1, range.2⟩
      obtain ⟨digits, areDigits, readsDigits⟩ := skipDigits_reads starts
      refine ⟨digits, reads.trans readsDigits, Or.inr ?_⟩
      cases digits with
      | nil => exact absurd rfl areDigits.1
      | cons d others =>
          rw [readsDigits.head] at isRest
          cases isRest
          exact ⟨_, others, rfl, nonzero, fun e member =>
            areDigits.2 e (List.mem_cons_of_mem _ member)⟩
    next => cases parsed

theorem isDigit_of_isNonzero {c : UInt8} (nonzero : isNonzero c = true) :
    isDigit c = true ∧ c ≠ '0'.toUInt8 ∧ c ≠ '-'.toUInt8 := by
  have range := of_decide_eq_true nonzero
  refine ⟨decide_eq_true ⟨UInt8.le_trans (by decide) range.1, range.2⟩, ?_, ?_⟩
  · rintro rfl
    exact absurd range.1 (by decide)
  · rintro rfl
    exact absurd range.1 (by decide)

/-- The digits of a whole part, one at least, and no minus among them. -/
theorem whole_head (token : NumberToken) :
    ∃ first others, token.whole = first :: others ∧ isDigit first = true ∧
      first ≠ '-'.toUInt8 := by
  rcases token.isWhole with isZero | ⟨first, others, isWhole, nonzero, -⟩
  · exact ⟨_, [], isZero, by decide, by decide⟩
  · exact ⟨first, others, isWhole, (isDigit_of_isNonzero nonzero).1,
      (isDigit_of_isNonzero nonzero).2.2⟩

theorem integerPart_of_reads (token : NumberToken)
    (reads : Reads cursor (sign token.minus ++ token.whole) reached)
    (stops : peek reached isDigit = false) : integerPart cursor = .ok reached := by
  obtain ⟨middle, readsSign, readsWhole⟩ := reads.parts
  obtain ⟨first, others, isHead, -, notMinus⟩ := whole_head token
  have isNext : (if peekIs cursor '-' then cursor.advance 1 else cursor) = middle := by
    cases isMinus : token.minus with
    | true =>
        rw [isMinus] at readsSign
        have isSign : Reads cursor ['-'.toUInt8] middle := readsSign
        rw [peekIs_cons isSign.head, if_pos (beq_self_eq_true _), isSign.advance_one]
    | false =>
        rw [isMinus] at readsSign
        have same : cursor = middle := readsSign.advance_eq
        subst same
        rw [isHead] at readsWhole
        rw [peekIs_cons readsWhole.head, if_neg (by simpa using notMinus)]
  rw [integerPart, isNext]
  rcases token.isWhole with isZero | ⟨first, others, isWhole, nonzero, areDigits⟩
  · rw [isZero] at readsWhole
    rw [peekIs_cons readsWhole.head, if_pos (beq_self_eq_true _), readsWhole.advance_one]
  · obtain ⟨isFirst, notZero, -⟩ := isDigit_of_isNonzero nonzero
    rw [isWhole] at readsWhole
    rw [peekIs_cons readsWhole.head, if_neg (by simpa using notZero), peek_cons readsWhole.head,
      if_pos (by exact nonzero)]
    apply congrArg Except.ok
    exact skipDigits_of_reads (List.forall_mem_cons.mpr ⟨isFirst, areDigits⟩) readsWhole stops

theorem of_fractionPart (parsed : fractionPart cursor = .ok reached) :
    ∃ fraction, Reads cursor fraction reached ∧
      (fraction = [] ∨ ∃ digits, fraction = '.'.toUInt8 :: digits ∧ Digits digits) := by
  rw [fractionPart] at parsed
  split at parsed
  next isPoint =>
    dsimp only at parsed
    split at parsed
    next starts =>
      cases parsed
      obtain ⟨digits, areDigits, reads⟩ := skipDigits_reads starts
      exact ⟨_, (Reads.of_peekIs isPoint).trans reads, Or.inr ⟨digits, rfl, areDigits⟩⟩
    next => cases parsed
  next =>
    cases parsed
    exact ⟨[], .refl cursor, Or.inl rfl⟩

theorem fractionPart_of_reads (token : NumberToken) (reads : Reads cursor token.fraction reached)
    (stops : peek reached isDigit = false) (noPoint : peekIs reached '.' = false) :
    fractionPart cursor = .ok reached := by
  rw [fractionPart]
  rcases token.isFraction with isEmpty | ⟨digits, isFraction, areDigits⟩
  · rw [isEmpty] at reads
    have same : cursor = reached := reads.advance_eq
    rw [same, noPoint, if_neg Bool.false_ne_true]
  · rw [isFraction] at reads
    rw [peekIs_cons reads.head, if_pos (beq_self_eq_true _)]
    dsimp only
    rw [peek_digits areDigits reads.cons, if_pos rfl,
      skipDigits_of_reads areDigits.2 reads.cons stops]

theorem sign_reads (cursor : Cursor) :
    ∃ sign, Reads cursor sign
        (if peekIs cursor '+' || peekIs cursor '-' then cursor.advance 1 else cursor) ∧
      sign ∈ [[], ['+'.toUInt8], ['-'.toUInt8]] := by
  split
  next isThere =>
    rcases Bool.or_eq_true_iff.mp isThere with isPlus | isMinus
    · exact ⟨_, .of_peekIs isPlus, by decide⟩
    · exact ⟨_, .of_peekIs isMinus, by decide⟩
  next => exact ⟨[], .refl _, by decide⟩

theorem of_exponentPart (parsed : exponentPart cursor = .ok reached) :
    ∃ exponent, Reads cursor exponent reached ∧
      (exponent = [] ∨ ∃ marker sign digits, exponent = marker :: (sign ++ digits) ∧
        marker ∈ ['e', 'E'].map Char.toUInt8 ∧ sign ∈ [[], ['+'.toUInt8], ['-'.toUInt8]] ∧
        Digits digits) := by
  rw [exponentPart] at parsed
  split at parsed
  next isMarker =>
    obtain ⟨marker, rest, isRest, isOne⟩ : ∃ marker rest, cursor.rest = marker :: rest ∧
        marker ∈ ['e', 'E'].map Char.toUInt8 := by
      rcases Bool.or_eq_true_iff.mp isMarker with isE | isE
      · obtain ⟨rest, isRest⟩ := of_peekIs isE
        exact ⟨_, rest, isRest, by decide⟩
      · obtain ⟨rest, isRest⟩ := of_peekIs isE
        exact ⟨_, rest, isRest, by decide⟩
    obtain ⟨sign, readsSign, isSign⟩ := sign_reads (cursor.advance 1)
    dsimp only at parsed
    generalize (if peekIs (cursor.advance 1) '+' || peekIs (cursor.advance 1) '-' then
      (cursor.advance 1).advance 1 else cursor.advance 1) = next at readsSign parsed
    split at parsed
    next starts =>
      cases parsed
      obtain ⟨digits, areDigits, reads⟩ := skipDigits_reads starts
      exact ⟨_, (Reads.byte isRest).trans (readsSign.trans reads),
        Or.inr ⟨marker, sign, digits, rfl, isOne, isSign, areDigits⟩⟩
    next => cases parsed
  next =>
    cases parsed
    exact ⟨[], .refl cursor, Or.inl rfl⟩

theorem not_sign_of_isDigit {c : UInt8} (digit : isDigit c = true) :
    c ≠ '+'.toUInt8 ∧ c ≠ '-'.toUInt8 := by
  have range := of_decide_eq_true digit
  constructor
  · rintro rfl
    exact absurd range.1 (by decide)
  · rintro rfl
    exact absurd range.1 (by decide)

theorem exponentPart_of_reads (token : NumberToken) (reads : Reads cursor token.exponent reached)
    (stops : peek reached isDigit = false)
    (noMarker : (peekIs reached 'e' || peekIs reached 'E') = false) :
    exponentPart cursor = .ok reached := by
  rw [exponentPart]
  rcases token.isExponent with isEmpty | ⟨marker, sign, digits, isExponent, isMarker, isSign, areDigits⟩
  · rw [isEmpty] at reads
    have same : cursor = reached := reads.advance_eq
    rw [same, noMarker, if_neg Bool.false_ne_true]
  · rw [isExponent] at reads
    have seen : (peekIs cursor 'e' || peekIs cursor 'E') = true := by
      rw [peekIs_cons reads.head, peekIs_cons reads.head, Bool.or_eq_true, beq_iff_eq, beq_iff_eq]
      simpa using isMarker
    obtain ⟨middle, readsSign, readsDigits⟩ := reads.cons.parts
    have isNext : (if peekIs (cursor.advance 1) '+' || peekIs (cursor.advance 1) '-' then
        (cursor.advance 1).advance 1 else cursor.advance 1) = middle := by
      have signed : ∀ c : Char, Reads (cursor.advance 1) [c.toUInt8] middle →
          peekIs (cursor.advance 1) c = true := by
        intro c readsChar
        rw [peekIs_cons readsChar.head]
        exact beq_self_eq_true _
      simp only [List.mem_cons, List.not_mem_nil, or_false] at isSign
      rcases isSign with rfl | rfl | rfl
      · have same : cursor.advance 1 = middle := readsSign.advance_eq
        obtain ⟨d, rest, isRest, digit⟩ := of_peek (peek_digits areDigits readsDigits)
        obtain ⟨notPlus, notMinus⟩ := not_sign_of_isDigit digit
        rw [same, peekIs_cons isRest, peekIs_cons isRest, beq_false_of_ne notPlus,
          beq_false_of_ne notMinus]
        rfl
      · rw [signed '+' readsSign, Bool.true_or, if_pos rfl, readsSign.advance_one]
      · rw [signed '-' readsSign, Bool.or_true, if_pos rfl, readsSign.advance_one]
    rw [if_pos seen]
    dsimp only
    rw [isNext, peek_digits areDigits readsDigits, if_pos rfl,
      skipDigits_of_reads areDigits.2 readsDigits stops]

/-- The bytes that could continue a number. -/
def continues (c : UInt8) : Bool :=
  isDigit c || c == '.'.toUInt8 || c == 'e'.toUInt8 || c == 'E'.toUInt8

theorem peek_of_continues (stops : peek reached continues = false) :
    peek reached isDigit = false ∧ peekIs reached '.' = false ∧
      (peekIs reached 'e' || peekIs reached 'E') = false := by
  cases isRest : reached.rest with
  | nil =>
      rw [peekIs, peekIs, peekIs, peek_nil isRest, peek_nil isRest, peek_nil isRest,
        peek_nil isRest]
      exact ⟨rfl, rfl, rfl⟩
  | cons c rest =>
      rw [peek_cons isRest, continues] at stops
      rw [peek_cons isRest, peekIs_cons isRest, peekIs_cons isRest, peekIs_cons isRest]
      simp only [Bool.or_eq_false_iff] at stops ⊢
      exact ⟨stops.1.1.1, stops.1.1.2, stops.1.2, stops.2⟩

/-- Where the exponent begins there is neither a digit nor a point. -/
theorem peek_exponent (token : NumberToken) (reads : Reads cursor token.exponent reached)
    (stops : peek reached continues = false) :
    peek cursor isDigit = false ∧ peekIs cursor '.' = false := by
  rcases token.isExponent with isEmpty | ⟨marker, sign, digits, isExponent, isMarker, -, -⟩
  · rw [isEmpty] at reads
    have same : cursor = reached := reads.advance_eq
    rw [same]
    exact ⟨(peek_of_continues stops).1, (peek_of_continues stops).2.1⟩
  · rw [isExponent] at reads
    rw [peek_cons reads.head, peekIs_cons reads.head]
    simp only [List.map_cons, List.map_nil, List.mem_cons, List.not_mem_nil, or_false] at isMarker
    rcases isMarker with rfl | rfl
    · exact ⟨by decide, by decide⟩
    · exact ⟨by decide, by decide⟩

theorem peek_fraction {middle : Cursor} (token : NumberToken)
    (reads : Reads cursor token.fraction middle)
    (stops : peek middle isDigit = false) : peek cursor isDigit = false := by
  rcases token.isFraction with isEmpty | ⟨digits, isFraction, -⟩
  · rw [isEmpty] at reads
    have same : cursor = middle := reads.advance_eq
    rw [same, stops]
  · rw [isFraction] at reads
    rw [peek_cons reads.head]
    decide

theorem Reads.take {text : List UInt8} (reads : Reads cursor text reached) :
    cursor.rest.take (reached.position - cursor.position) = text := by
  rw [reads.2, Nat.add_sub_cancel_left, reads.1, List.take_left]

/-- What follows the opening byte is read as it stands there. -/
theorem parseLiteral_ok {α : Type} {v w : α} {lit : List Char} :
    parseLiteral v lit cursor = .ok (w, reached) ↔ w = v ∧ Reads cursor (ascii lit) reached := by
  induction lit generalizing cursor with
  | nil =>
      rw [parseLiteral]
      constructor
      · intro same
        cases same
        exact ⟨rfl, .refl _⟩
      · rintro ⟨rfl, reads⟩
        exact congrArg (fun reached => Except.ok (w, reached)) reads.advance_eq
  | cons l lit induction =>
      rw [parseLiteral]
      constructor
      · intro parsed
        split at parsed
        next isThere =>
          obtain ⟨same, reads⟩ := induction.mp parsed
          exact ⟨same, (Reads.of_peekIs isThere).trans reads⟩
        next => cases parsed
      · rintro ⟨same, reads⟩
        have readsWord : Reads cursor (l.toUInt8 :: ascii lit) reached := reads
        rw [peekIs_cons readsWord.head, if_pos (beq_self_eq_true _)]
        exact induction.mpr ⟨same, readsWord.cons⟩

section Values

variable {Double : Type} {fromChars : List UInt8 → Option (Nat × Double)} {v : Value Double}

theorem of_parseNumber (parsed : parseNumber fromChars cursor = .ok (v, reached)) :
    ∃ token : NumberToken, Reads cursor token.text reached ∧ token.value fromChars = some v := by
  rw [parseNumber] at parsed
  obtain ⟨afterWhole, isInteger, parsed⟩ := bind_eq_ok.mp parsed
  obtain ⟨afterFraction, isFraction, parsed⟩ := bind_eq_ok.mp parsed
  obtain ⟨afterExponent, isExponent, parsed⟩ := bind_eq_ok.mp parsed
  obtain ⟨minus, whole, readsWhole, whole'⟩ := of_integerPart isInteger
  obtain ⟨fraction, readsFraction, fraction'⟩ := of_fractionPart isFraction
  obtain ⟨exponent, readsExponent, exponent'⟩ := of_exponentPart isExponent
  obtain ⟨token, reads⟩ : ∃ token : NumberToken, Reads cursor token.text afterExponent := by
    refine ⟨⟨minus, whole, fraction, exponent, whole', fraction', exponent'⟩, ?_⟩
    rw [NumberToken.text, ← List.append_assoc]
    exact readsWhole.trans (readsFraction.trans readsExponent)
  refine ⟨token, ?_⟩
  rw [NumberToken.value]
  dsimp only at parsed
  rw [reads.take] at parsed
  generalize fromChars token.text = result at parsed ⊢
  cases result with
  | none => cases parsed
  | some pair =>
      obtain ⟨read, number⟩ := pair
      dsimp only at parsed ⊢
      split at parsed
      next isWhole =>
        cases parsed
        exact ⟨reads, if_pos isWhole⟩
      next => cases parsed

theorem parseNumber_of_reads (token : NumberToken) (reads : Reads cursor token.text reached)
    (isValue : token.value fromChars = some v) (stops : peek reached continues = false) :
    parseNumber fromChars cursor = .ok (v, reached) := by
  have isText := reads.take
  rw [NumberToken.text, ← List.append_assoc] at reads
  obtain ⟨afterWhole, readsWhole, readsRest⟩ := reads.parts
  obtain ⟨afterFraction, readsFraction, readsExponent⟩ := readsRest.parts
  obtain ⟨noDigit, noPoint⟩ := peek_exponent token readsExponent stops
  obtain ⟨lastDigit, -, noMarker⟩ := peek_of_continues stops
  rw [parseNumber,
    integerPart_of_reads token readsWhole (peek_fraction token readsFraction noDigit), ok_bind,
    fractionPart_of_reads token readsFraction noDigit noPoint, ok_bind,
    exponentPart_of_reads token readsExponent lastDigit noMarker, ok_bind]
  dsimp only
  rw [isText]
  rw [NumberToken.value] at isValue
  generalize fromChars token.text = result at isValue ⊢
  cases result with
  | none => cases isValue
  | some pair =>
      obtain ⟨read, number⟩ := pair
      dsimp only at isValue ⊢
      split at isValue
      next isWhole =>
        cases isValue
        exact if_pos isWhole
      next => cases isValue

/-! ## White space in front

A container skips the white space before its first entry on its own. -/

def Blank.append (front back : Blank) : Blank where
  text := front.text ++ back.text
  isBlank := List.forall_mem_append.mpr ⟨front.isBlank, back.isBlank⟩

def Elements.behind (blank : Blank) : Elements → Elements
  | .last before node after => .last (blank.append before) node after
  | .more before node after others => .more (blank.append before) node after others

def Members.behind (blank : Blank) : Members → Members
  | .last before key afterKey beforeNode node after =>
      .last (blank.append before) key afterKey beforeNode node after
  | .more before key afterKey beforeNode node after others =>
      .more (blank.append before) key afterKey beforeNode node after others

theorem Elements.text_behind (blank : Blank) (elements : Elements) :
    (elements.behind blank).text = blank.text ++ elements.text := by
  cases elements with
  | last => exact List.append_assoc ..
  | more => exact List.append_assoc ..

theorem Elements.values_behind (blank : Blank) (elements : Elements) :
    (elements.behind blank).values fromChars = elements.values fromChars := by
  cases elements with
  | last => rfl
  | more => rfl

theorem Members.text_behind (blank : Blank) (members : Members) :
    (members.behind blank).text = blank.text ++ members.text := by
  cases members with
  | last => simp only [behind, text, keyText, Blank.append, List.append_assoc]
  | more => simp only [behind, text, keyText, Blank.append, List.append_assoc]

theorem Members.values_behind (blank : Blank) (members : Members) :
    (members.behind blank).values fromChars = members.values fromChars := by
  cases members with
  | last => rfl
  | more => rfl

/-! ## What is read is a tree -/

/-- Every function of the recursion, by induction on the nesting: what was taken from the
text is a tree, and its value is what was returned. -/
theorem values_sound (simd : Bool) (fuel : Nat) :
    (∀ cursor reached v, parseValue fromChars simd fuel cursor = .ok (v, reached) →
        ∃ node : Node, Reads cursor node.text reached ∧ node.value fromChars = some v) ∧
      (∀ cursor reached v, peekIs cursor '\x7b' = true →
        parseObject fromChars simd fuel cursor = .ok (v, reached) →
        ∃ node : Node, Reads cursor node.text reached ∧ node.value fromChars = some v) ∧
      (∀ done cursor reached v, objectLoop fromChars simd fuel done cursor = .ok (v, reached) →
        ∃ (members : Members) (new : List (List UInt8 × Value Double)),
          Reads cursor (members.text ++ ['\x7d'.toUInt8]) reached ∧
          members.values fromChars = some new ∧ v = .object (done ++ new)) ∧
      (∀ cursor reached v, peekIs cursor '[' = true →
        parseArray fromChars simd fuel cursor = .ok (v, reached) →
        ∃ node : Node, Reads cursor node.text reached ∧ node.value fromChars = some v) ∧
      (∀ done cursor reached v, arrayLoop fromChars simd fuel done cursor = .ok (v, reached) →
        ∃ (elements : Elements) (new : List (Value Double)),
          Reads cursor (elements.text ++ [']'.toUInt8]) reached ∧
          elements.values fromChars = some new ∧ v = .array (done ++ new)) := by
  induction fuel with
  | zero =>
      refine ⟨?_, ?_, ?_, ?_, ?_⟩
      · intro cursor reached v parsed
        cases parsed
      · intro cursor reached v _ parsed
        cases parsed
      · intro done cursor reached v parsed
        cases parsed
      · intro cursor reached v _ parsed
        cases parsed
      · intro done cursor reached v parsed
        cases parsed
  | succ fuel induction =>
      obtain ⟨value, object, members, array, elements⟩ := induction
      refine ⟨?_, ?_, ?_, ?_, ?_⟩
      · intro cursor reached v parsed
        rw [parseValue] at parsed
        split at parsed
        next => cases parsed
        split at parsed
        next starts => exact object cursor reached v starts parsed
        split at parsed
        next starts => exact array cursor reached v starts parsed
        split at parsed
        next starts =>
          obtain ⟨⟨string, after⟩, isString, parsed⟩ := bind_eq_ok.mp parsed
          cases parsed
          obtain ⟨literal, reads, decoded⟩ := (parseString_ok starts).mp isString
          exact ⟨.string literal, reads, by rw [Node.value, decoded]; rfl⟩
        split at parsed
        next =>
          obtain ⟨rfl, reads⟩ := parseLiteral_ok.mp parsed
          exact ⟨.bool true, reads, rfl⟩
        split at parsed
        next =>
          obtain ⟨rfl, reads⟩ := parseLiteral_ok.mp parsed
          exact ⟨.bool false, reads, rfl⟩
        split at parsed
        next =>
          obtain ⟨rfl, reads⟩ := parseLiteral_ok.mp parsed
          exact ⟨.null, reads, rfl⟩
        next =>
          obtain ⟨token, reads, isValue⟩ := of_parseNumber parsed
          exact ⟨.number token, reads, isValue⟩
      · intro cursor reached v starts parsed
        have readsBrace := Reads.of_peekIs starts
        rw [parseObject] at parsed
        obtain ⟨blank, readsBlank, -⟩ := skipWs_reads simd (cursor.advance 1)
        split at parsed
        next isEnd =>
          cases parsed
          exact ⟨.emptyObject blank, readsBrace.trans (readsBlank.trans (.of_peekIs isEnd)), rfl⟩
        next =>
          obtain ⟨read, new, readsMembers, areValues, rfl⟩ := members _ _ _ _ parsed
          refine ⟨.object (read.behind blank), ?_, ?_⟩
          · rw [Node.text, Members.text_behind, List.append_assoc]
            exact readsBrace.trans (readsBlank.trans readsMembers)
          · rw [Node.value, Members.values_behind, areValues]
            rfl
      · intro done cursor reached v parsed
        rw [objectLoop] at parsed
        obtain ⟨before, readsBefore, -⟩ := skipWs_reads simd cursor
        split at parsed
        next => cases parsed
        next isQuote =>
          have starts : peekIs (skipWs simd cursor) '\"' = true := by simpa using isQuote
          obtain ⟨⟨string, atKey⟩, isKey, parsed⟩ := bind_eq_ok.mp parsed
          obtain ⟨key, readsKey, decoded⟩ := (parseString_ok starts).mp isKey
          obtain ⟨afterKey, readsAfterKey, -⟩ := skipWs_reads simd atKey
          dsimp only at parsed
          split at parsed
          next => cases parsed
          next isColon =>
            have isColon : peekIs (skipWs simd atKey) ':' = true := by simpa using isColon
            obtain ⟨beforeNode, readsBeforeNode, -⟩ :=
              skipWs_reads simd ((skipWs simd atKey).advance 1)
            obtain ⟨⟨w, atNode⟩, isNode, parsed⟩ := bind_eq_ok.mp parsed
            obtain ⟨node, readsNode, isValue⟩ := value _ _ _ isNode
            obtain ⟨after, readsAfter, -⟩ := skipWs_reads simd atNode
            have readsMember : Reads cursor (keyText before key afterKey beforeNode ++
                (node.text ++ after.text)) (skipWs simd atNode) :=
              (readsBefore.trans (readsKey.trans (readsAfterKey.trans
                ((Reads.of_peekIs isColon).trans readsBeforeNode)))).trans
                (readsNode.trans readsAfter)
            dsimp only at parsed
            split at parsed
            next => cases parsed
            split at parsed
            next isComma =>
              obtain ⟨others, new, readsOthers, areValues, rfl⟩ := members _ _ _ _ parsed
              refine ⟨.more before key afterKey beforeNode node after others, (string, w) :: new,
                ?_, ?_, ?_⟩
              · have reads := readsMember.trans ((Reads.of_peekIs isComma).trans readsOthers)
                simpa only [Members.text, List.append_assoc, List.cons_append,
                  List.nil_append] using reads
              · rw [Members.values, decoded, isValue, areValues]
                rfl
              · rw [List.append_assoc, List.singleton_append]
            split at parsed
            next isEnd =>
              cases parsed
              refine ⟨.last before key afterKey beforeNode node after, [(string, w)],
                readsMember.trans (.of_peekIs isEnd), ?_, rfl⟩
              rw [Members.values, decoded, isValue]
              rfl
            next => cases parsed
      · intro cursor reached v starts parsed
        have readsBracket := Reads.of_peekIs starts
        rw [parseArray] at parsed
        obtain ⟨blank, readsBlank, -⟩ := skipWs_reads simd (cursor.advance 1)
        split at parsed
        next isEnd =>
          cases parsed
          exact ⟨.emptyArray blank, readsBracket.trans (readsBlank.trans (.of_peekIs isEnd)), rfl⟩
        next =>
          obtain ⟨read, new, readsElements, areValues, rfl⟩ := elements _ _ _ _ parsed
          refine ⟨.array (read.behind blank), ?_, ?_⟩
          · rw [Node.text, Elements.text_behind, List.append_assoc]
            exact readsBracket.trans (readsBlank.trans readsElements)
          · rw [Node.value, Elements.values_behind, areValues]
            rfl
      · intro done cursor reached v parsed
        rw [arrayLoop] at parsed
        obtain ⟨before, readsBefore, -⟩ := skipWs_reads simd cursor
        obtain ⟨⟨w, atNode⟩, isNode, parsed⟩ := bind_eq_ok.mp parsed
        obtain ⟨node, readsNode, isValue⟩ := value _ _ _ isNode
        obtain ⟨after, readsAfter, -⟩ := skipWs_reads simd atNode
        have readsElement := readsBefore.trans (readsNode.trans readsAfter)
        dsimp only at parsed
        split at parsed
        next => cases parsed
        split at parsed
        next isComma =>
          obtain ⟨others, new, readsOthers, areValues, rfl⟩ := elements _ _ _ _ parsed
          refine ⟨.more before node after others, w :: new, ?_, ?_, ?_⟩
          · have reads := readsElement.trans ((Reads.of_peekIs isComma).trans readsOthers)
            simpa only [Elements.text, List.append_assoc, List.cons_append,
              List.nil_append] using reads
          · rw [Elements.values, isValue, areValues]
            rfl
          · rw [List.append_assoc, List.singleton_append]
        split at parsed
        next isEnd =>
          cases parsed
          refine ⟨.last before node after, [w], readsElement.trans (.of_peekIs isEnd), ?_, rfl⟩
          rw [Elements.values, isValue]
          rfl
        next => cases parsed

/-! ## Every tree is read -/

/-- The first byte of a value, which is no white space and closes nothing. -/
def Starts (c : UInt8) : Prop :=
  isWs c = false ∧ c ≠ ']'.toUInt8 ∧ c ≠ '\x7d'.toUInt8

theorem starts_of_isDigit {c : UInt8} (digit : isDigit c = true) :
    Starts c ∧ ∀ d ∈ ['\x7b', '[', '\"', 't', 'f', 'n'], c ≠ d.toUInt8 := by
  have range := of_decide_eq_true digit
  have low : 48 ≤ c.toNat := UInt8.le_iff_toNat_le.mp range.1
  have high : c.toNat ≤ 57 := UInt8.le_iff_toNat_le.mp range.2
  have differs : ∀ d : UInt8, d.toNat < 48 ∨ 57 < d.toNat → c ≠ d := by
    rintro d outside rfl
    omega
  refine ⟨⟨?_, differs _ (by decide), differs _ (by decide)⟩, fun d member => ?_⟩
  · rw [isWs, decide_eq_false (differs _ (by decide)), decide_eq_false (differs _ (by decide)),
      decide_eq_false (differs _ (by decide)), decide_eq_false (differs _ (by decide))]
    rfl
  · have outside : ['\x7b', '[', '\"', 't', 'f', 'n'].all
        (fun d => d.toUInt8.toNat < 48 || 57 < d.toUInt8.toNat) = true := by decide
    apply differs
    simpa using List.all_eq_true.mp outside d member

theorem NumberToken.head (token : NumberToken) :
    ∃ c rest, token.text = c :: rest ∧ Starts c ∧
      ∀ d ∈ ['\x7b', '[', '\"', 't', 'f', 'n'], c ≠ d.toUInt8 := by
  rw [text]
  cases token.minus with
  | true =>
      have others : ['\x7b', '[', '\"', 't', 'f', 'n'].all (fun d => '-'.toUInt8 != d.toUInt8) = true := by
        decide
      exact ⟨'-'.toUInt8, _, rfl, ⟨by decide, by decide, by decide⟩, fun d member =>
        bne_iff_ne.mp (List.all_eq_true.mp others d member)⟩
  | false =>
      obtain ⟨first, others, isHead, digit, -⟩ := whole_head token
      rw [isHead]
      exact ⟨first, _, rfl, starts_of_isDigit digit⟩

theorem Node.head (node : Node) : ∃ c rest, node.text = c :: rest ∧ Starts c := by
  cases node with
  | null => exact ⟨_, _, rfl, by decide, by decide, by decide⟩
  | bool boolean =>
      cases boolean with
      | true => exact ⟨_, _, rfl, by decide, by decide, by decide⟩
      | false => exact ⟨_, _, rfl, by decide, by decide, by decide⟩
  | number token =>
      obtain ⟨c, rest, isText, starts, -⟩ := token.head
      exact ⟨c, rest, isText, starts⟩
  | string literal => exact ⟨_, _, rfl, by decide, by decide, by decide⟩
  | emptyArray inside => exact ⟨_, _, rfl, by decide, by decide, by decide⟩
  | array elements => exact ⟨_, _, rfl, by decide, by decide, by decide⟩
  | emptyObject inside => exact ⟨_, _, rfl, by decide, by decide, by decide⟩
  | object members => exact ⟨_, _, rfl, by decide, by decide, by decide⟩

/-- What a byte of white space is not. -/
theorem continues_of_isWs {c : UInt8} (blank : isWs c = true) : continues c = false := by
  rw [isWs] at blank
  simp only [Bool.or_eq_true, decide_eq_true_eq] at blank
  rcases blank with ((rfl | rfl) | rfl) | rfl
  · decide
  · decide
  · decide
  · decide

theorem peek_blank {blank : Blank} {holds : UInt8 → Bool} (reads : Reads cursor blank.text reached)
    (notBlank : ∀ c, isWs c = true → holds c = false) (stops : peek reached holds = false) :
    peek cursor holds = false := by
  obtain ⟨text, isBlank⟩ := blank
  cases text with
  | nil =>
      have same : cursor = reached := reads.advance_eq
      rw [same, stops]
  | cons c text =>
      rw [peek_cons reads.head]
      exact notBlank c (isBlank c List.mem_cons_self)

theorem Reads.peek_eq {c : UInt8} {text : List UInt8} (reads : Reads cursor (c :: text) reached)
    (holds : UInt8 → Bool) : peek cursor holds = holds c := peek_cons reads.head holds

/-- White space and then this byte: the white space is skipped. -/
theorem skipWs_then {simd : Bool} {blank : Blank} {c : UInt8} {text : List UInt8}
    (reads : Reads cursor (blank.text ++ (c :: text)) reached) (notBlank : isWs c = false) :
    Reads (skipWs simd cursor) (c :: text) reached := by
  obtain ⟨middle, readsBlank, readsRest⟩ := reads.parts
  have stops : peek middle isWs = false := by rw [readsRest.peek_eq, notBlank]
  rw [skipWs_of_reads simd readsBlank stops]
  exact readsRest

/-- White space before a value. -/
theorem skipWs_node {simd : Bool} {blank : Blank} {node : Node} {text : List UInt8}
    (reads : Reads cursor (blank.text ++ (node.text ++ text)) reached) :
    Reads (skipWs simd cursor) (node.text ++ text) reached := by
  obtain ⟨c, rest, isText, starts⟩ := node.head
  rw [isText, List.cons_append] at reads ⊢
  exact skipWs_then reads starts.1

/-- White space and a separator after a value end a number. -/
theorem stops_before {blank : Blank} {c : UInt8} {text : List UInt8}
    (reads : Reads cursor (blank.text ++ (c :: text)) reached) (notNumber : continues c = false) :
    peek cursor continues = false := by
  obtain ⟨middle, readsBlank, readsRest⟩ := reads.parts
  apply peek_blank readsBlank fun _ => continues_of_isWs
  rw [readsRest.peek_eq, notNumber]

variable {simd : Bool} {fuel : Nat}

/-- One turn of the loop over the elements, after the value. -/
theorem arrayLoop_turn (done : List (Value Double)) {c : UInt8} {text : List UInt8} {middle : Cursor}
    {after : Blank} (parsed : parseValue fromChars simd fuel (skipWs simd cursor) = .ok (v, middle))
    (reads : Reads middle (after.text ++ (c :: text)) reached) (notBlank : isWs c = false) :
    ∃ next, Reads next text reached ∧ arrayLoop fromChars simd (fuel + 1) done cursor =
      if c == ','.toUInt8 then arrayLoop fromChars simd fuel (done ++ [v]) next
      else if c == ']'.toUInt8 then .ok (.array (done ++ [v]), next)
      else fail "expected ',' or ']'" (skipWs simd middle) := by
  have readsRest : Reads (skipWs simd middle) (c :: text) reached := skipWs_then reads notBlank
  refine ⟨_, readsRest.cons, ?_⟩
  rw [arrayLoop, parsed]
  change (if (skipWs simd middle).rest = [] then _ else _) = _
  rw [if_neg (by rw [readsRest.head]; exact List.cons_ne_nil _ _), peekIs_cons readsRest.head,
    peekIs_cons readsRest.head]
  rfl

/-- One turn of the loop over the members: the key, and what is done after the value. -/
theorem objectLoop_turn (done : List (List UInt8 × Value Double)) {before afterKey beforeNode : Blank}
    {key : Literal} {string : List UInt8} {node : Node} {tail : List UInt8}
    (decoded : decode key.pieces = some string)
    (reads : Reads cursor (keyText before key afterKey beforeNode ++ (node.text ++ tail)) reached) :
    ∃ start, Reads start (node.text ++ tail) reached ∧ start.rest.length < cursor.rest.length ∧
      ∀ v middle (after : Blank) c text, parseValue fromChars simd fuel start = .ok (v, middle) →
        Reads middle (after.text ++ (c :: text)) reached → isWs c = false →
        ∃ next, Reads next text reached ∧ objectLoop fromChars simd (fuel + 1) done cursor =
          if c == ','.toUInt8 then objectLoop fromChars simd fuel (done ++ [(string, v)]) next
          else if c == '\x7d'.toUInt8 then .ok (.object (done ++ [(string, v)]), next)
          else fail "expected ',' or '\x7d'" (skipWs simd middle) := by
  have readsBefore : Reads cursor (before.text ++ (quote :: (body key.pieces ++ (quote ::
      (afterKey.text ++ (':'.toUInt8 :: (beforeNode.text ++ (node.text ++ tail)))))))) reached := by
    simpa only [keyText, Literal.text, List.append_assoc, List.cons_append, List.nil_append]
      using reads
  have shorter := readsBefore.length
  simp only [List.length_append, List.length_cons] at shorter
  have readsQuote : Reads (skipWs simd cursor) _ reached := skipWs_then readsBefore (by decide)
  have starts : peekIs (skipWs simd cursor) '\"' = true := by
    rw [peekIs_cons readsQuote.head]
    exact beq_self_eq_true _
  obtain ⟨atKey, readsKey, readsAfterKey⟩ : ∃ atKey,
      Reads (skipWs simd cursor) key.text atKey ∧
        Reads atKey (afterKey.text ++ (':'.toUInt8 :: (beforeNode.text ++ (node.text ++ tail))))
          reached := by
    apply Reads.parts
    simpa only [Literal.text, List.append_assoc, List.cons_append, List.nil_append] using readsQuote
  have isKey : parseString simd (skipWs simd cursor) = .ok (string, atKey) :=
    (parseString_ok starts).mpr ⟨key, readsKey, decoded⟩
  have readsColon : Reads (skipWs simd atKey) _ reached := skipWs_then readsAfterKey (by decide)
  have readsNode : Reads (skipWs simd ((skipWs simd atKey).advance 1)) _ reached :=
    skipWs_node readsColon.cons
  have isShorter := readsNode.length
  rw [List.length_append] at isShorter
  refine ⟨_, readsNode, by omega, fun v middle after c text parsed readsAfter notBlank => ?_⟩
  have readsRest : Reads (skipWs simd middle) (c :: text) reached :=
    skipWs_then readsAfter notBlank
  refine ⟨_, readsRest.cons, ?_⟩
  have isColon : (!peekIs (skipWs simd atKey) ':') = false := by
    rw [peekIs_cons readsColon.head]
    decide
  rw [objectLoop]
  dsimp only
  rw [starts, Bool.not_true, if_neg Bool.false_ne_true, isKey]
  change (if !peekIs (skipWs simd atKey) ':' then _ else _) = _
  rw [isColon, if_neg Bool.false_ne_true, parsed]
  change (if (skipWs simd middle).rest = [] then _ else _) = _
  rw [if_neg (by rw [readsRest.head]; exact List.cons_ne_nil _ _), peekIs_cons readsRest.head,
    peekIs_cons readsRest.head]
  rfl

theorem Elements.text_head (elements : Elements) :
    ∃ (blank : Blank) (c : UInt8) (rest : List UInt8),
      elements.text = blank.text ++ (c :: rest) ∧ Starts c := by
  cases elements with
  | last before node after =>
      obtain ⟨c, rest, isText, starts⟩ := node.head
      exact ⟨before, c, _, by rw [text, isText]; rfl, starts⟩
  | more before node after others =>
      obtain ⟨c, rest, isText, starts⟩ := node.head
      exact ⟨before, c, _, by rw [text, isText]; rfl, starts⟩

theorem Members.text_head (members : Members) :
    ∃ (blank : Blank) (rest : List UInt8), members.text = blank.text ++ (quote :: rest) := by
  cases members with
  | last before key afterKey beforeNode node after =>
      exact ⟨before, _, by rw [text, keyText, Literal.text, List.append_assoc]; rfl⟩
  | more before key afterKey beforeNode node after others =>
      exact ⟨before, _, by rw [text, keyText, Literal.text, List.append_assoc]; rfl⟩

theorem skipWs_skipWs (simd : Bool) (cursor : Cursor) :
    skipWs simd (skipWs simd cursor) = skipWs simd cursor := by
  obtain ⟨-, -, stops⟩ := skipWs_reads simd cursor
  have reads : Reads (skipWs simd cursor) (Blank.text ⟨[], List.forall_mem_nil _⟩) _ := .refl _
  exact skipWs_of_reads simd reads stops

theorem arrayLoop_skipWs (done : List (Value Double)) :
    arrayLoop fromChars simd fuel done (skipWs simd cursor) =
      arrayLoop fromChars simd fuel done cursor := by
  cases fuel with
  | zero => rfl
  | succ fuel => rw [arrayLoop, arrayLoop, skipWs_skipWs]

theorem objectLoop_skipWs (done : List (List UInt8 × Value Double)) :
    objectLoop fromChars simd fuel done (skipWs simd cursor) =
      objectLoop fromChars simd fuel done cursor := by
  cases fuel with
  | zero => rfl
  | succ fuel => rw [objectLoop, objectLoop, skipWs_skipWs]

theorem parseArray_empty {inside : Blank}
    (reads : Reads cursor ('['.toUInt8 :: (inside.text ++ [']'.toUInt8])) reached) :
    parseArray fromChars simd (fuel + 1) cursor = .ok (.array [], reached) := by
  have readsEnd : Reads (skipWs simd (cursor.advance 1)) [']'.toUInt8] reached :=
    skipWs_then reads.cons (by decide)
  rw [parseArray]
  rw [peekIs_cons readsEnd.head, if_pos (beq_self_eq_true _), readsEnd.advance_one]

theorem parseObject_empty {inside : Blank}
    (reads : Reads cursor ('\x7b'.toUInt8 :: (inside.text ++ ['\x7d'.toUInt8])) reached) :
    parseObject fromChars simd (fuel + 1) cursor = .ok (.object [], reached) := by
  have readsEnd : Reads (skipWs simd (cursor.advance 1)) ['\x7d'.toUInt8] reached :=
    skipWs_then reads.cons (by decide)
  rw [parseObject]
  rw [peekIs_cons readsEnd.head, if_pos (beq_self_eq_true _), readsEnd.advance_one]

theorem parseArray_elements {elements : Elements}
    (reads : Reads cursor ('['.toUInt8 :: (elements.text ++ [']'.toUInt8])) reached) :
    parseArray fromChars simd (fuel + 1) cursor =
      arrayLoop fromChars simd fuel [] (cursor.advance 1) := by
  obtain ⟨blank, c, rest, isText, notBlank, notEnd, -⟩ := elements.text_head
  rw [isText, List.append_assoc, List.cons_append] at reads
  have readsFirst : Reads (skipWs simd (cursor.advance 1)) _ reached :=
    skipWs_then reads.cons notBlank
  rw [parseArray]
  rw [peekIs_cons readsFirst.head, beq_false_of_ne notEnd, if_neg Bool.false_ne_true,
    arrayLoop_skipWs]

theorem parseObject_members {members : Members}
    (reads : Reads cursor ('\x7b'.toUInt8 :: (members.text ++ ['\x7d'.toUInt8])) reached) :
    parseObject fromChars simd (fuel + 1) cursor =
      objectLoop fromChars simd fuel [] (cursor.advance 1) := by
  obtain ⟨blank, rest, isText⟩ := members.text_head
  rw [isText, List.append_assoc, List.cons_append] at reads
  have readsFirst : Reads (skipWs simd (cursor.advance 1)) _ reached :=
    skipWs_then reads.cons (by decide)
  rw [parseObject]
  rw [peekIs_cons readsFirst.head, beq_false_of_ne (by decide), if_neg Bool.false_ne_true,
    objectLoop_skipWs]

mutual

theorem parseValue_of_reads (node : Node) (simd : Bool) (fuel : Nat) (cursor reached : Cursor)
    (v : Value Double) (reads : Reads cursor node.text reached)
    (isValue : node.value fromChars = some v) (stops : peek reached continues = false)
    (enough : 3 * cursor.rest.length + 1 ≤ fuel) :
    parseValue fromChars simd fuel cursor = .ok (v, reached) := by
  obtain ⟨fuel, rfl⟩ : ∃ less, fuel = less + 1 := ⟨fuel - 1, by omega⟩
  obtain ⟨c, rest, isText, -⟩ := node.head
  have isRest : cursor.rest = c :: (rest ++ reached.rest) := by rw [reads.1, isText]; rfl
  have notEmpty : cursor.rest ≠ [] := by rw [isRest]; exact List.cons_ne_nil _ _
  have some' : 1 ≤ cursor.rest.length := List.length_pos_iff.mpr notEmpty
  rw [parseValue, if_neg notEmpty]
  simp only [peekIs_cons isRest]
  cases node with
  | null =>
      cases isText
      cases isValue
      exact parseLiteral_ok.mpr ⟨rfl, reads⟩
  | bool boolean =>
      cases isValue
      cases boolean with
      | true =>
          cases isText
          exact parseLiteral_ok.mpr ⟨rfl, reads⟩
      | false =>
          cases isText
          exact parseLiteral_ok.mpr ⟨rfl, reads⟩
  | number token =>
      obtain ⟨d, others, isToken, -, differs⟩ := token.head
      cases isToken.symm.trans isText
      have isOther : ∀ e ∈ ['\x7b', '[', '\"', 't', 'f', 'n'], (c == e.toUInt8) = false :=
        fun e member => beq_false_of_ne (differs e member)
      rw [isOther '\x7b' (by decide), isOther '[' (by decide), isOther '\"' (by decide),
        isOther 't' (by decide), isOther 'f' (by decide), isOther 'n' (by decide)]
      exact parseNumber_of_reads token reads isValue stops
  | string literal =>
      cases isText
      rw [Node.value, Option.map_eq_some_iff] at isValue
      obtain ⟨string, decoded, rfl⟩ := isValue
      have starts : peekIs cursor '\"' = true := by
        rw [peekIs_cons isRest]
        exact beq_self_eq_true _
      have isString : parseString simd cursor = .ok (string, reached) :=
        (parseString_ok starts).mpr ⟨literal, reads, decoded⟩
      change (parseString simd cursor >>= _) = _
      rw [isString]
      rfl
  | emptyArray inside =>
      cases isText
      cases isValue
      obtain ⟨fuel, rfl⟩ : ∃ less, fuel = less + 1 := ⟨fuel - 1, by omega⟩
      exact parseArray_empty reads
  | array elements =>
      cases isText
      rw [Node.value, Option.map_eq_some_iff] at isValue
      obtain ⟨vs, areValues, rfl⟩ := isValue
      obtain ⟨fuel, rfl⟩ : ∃ less, fuel = less + 1 := ⟨fuel - 1, by omega⟩
      have less := cursor.length_advance 1
      have loop := arrayLoop_of_reads elements simd fuel (cursor.advance 1) reached [] vs
        (Reads.cons reads) areValues (by omega)
      exact (parseArray_elements reads).trans loop
  | emptyObject inside =>
      cases isText
      cases isValue
      obtain ⟨fuel, rfl⟩ : ∃ less, fuel = less + 1 := ⟨fuel - 1, by omega⟩
      exact parseObject_empty reads
  | object members =>
      cases isText
      rw [Node.value, Option.map_eq_some_iff] at isValue
      obtain ⟨vs, areValues, rfl⟩ := isValue
      obtain ⟨fuel, rfl⟩ : ∃ less, fuel = less + 1 := ⟨fuel - 1, by omega⟩
      have less := cursor.length_advance 1
      have loop := objectLoop_of_reads members simd fuel (cursor.advance 1) reached [] vs
        (Reads.cons reads) areValues (by omega)
      exact (parseObject_members reads).trans loop

theorem arrayLoop_of_reads (elements : Elements) (simd : Bool) (fuel : Nat)
    (cursor reached : Cursor) (done vs : List (Value Double))
    (reads : Reads cursor (elements.text ++ [']'.toUInt8]) reached)
    (areValues : elements.values fromChars = some vs) (enough : 3 * cursor.rest.length + 2 ≤ fuel) :
    arrayLoop fromChars simd fuel done cursor = .ok (.array (done ++ vs), reached) := by
  obtain ⟨fuel, rfl⟩ : ∃ less, fuel = less + 1 := ⟨fuel - 1, by omega⟩
  have further := length_skipWs simd cursor
  cases elements with
  | last before node after =>
      rw [Elements.values, Option.map_eq_some_iff] at areValues
      obtain ⟨v, isValue, rfl⟩ := areValues
      rw [Elements.text, List.append_assoc, List.append_assoc] at reads
      have readsStart : Reads (skipWs simd cursor) _ reached := skipWs_node reads
      obtain ⟨middle, readsNode, readsEnd⟩ := readsStart.parts
      have parsed := parseValue_of_reads node simd fuel _ _ v readsNode isValue
        (stops_before readsEnd (by decide)) (by omega)
      obtain ⟨next, readsNothing, turn⟩ := arrayLoop_turn done parsed readsEnd (by decide)
      have same : next = reached := readsNothing.advance_eq
      rw [turn, same]
      rfl
  | more before node after others =>
      rw [Elements.values, Option.bind_eq_some_iff] at areValues
      obtain ⟨v, isValue, mapped⟩ := areValues
      obtain ⟨vs, areOthers, rfl⟩ := Option.map_eq_some_iff.mp mapped
      rw [Elements.text, List.append_assoc, List.append_assoc, List.append_assoc,
        List.cons_append] at reads
      have readsStart : Reads (skipWs simd cursor) _ reached := skipWs_node reads
      have shorter := readsStart.length
      simp only [List.length_append, List.length_cons, List.length_nil] at shorter
      obtain ⟨middle, readsNode, readsComma⟩ := readsStart.parts
      have parsed := parseValue_of_reads node simd fuel _ _ v readsNode isValue
        (stops_before readsComma (by decide)) (by omega)
      obtain ⟨next, readsOthers, turn⟩ := arrayLoop_turn done parsed readsComma (by decide)
      have isShorter := readsOthers.length
      simp only [List.length_append, List.length_cons, List.length_nil] at isShorter
      have loop := arrayLoop_of_reads others simd fuel next reached (done ++ [v]) vs readsOthers
        areOthers (by omega)
      rw [turn, if_pos (beq_self_eq_true _), loop, List.append_assoc, List.singleton_append]

theorem objectLoop_of_reads (members : Members) (simd : Bool) (fuel : Nat)
    (cursor reached : Cursor) (done vs : List (List UInt8 × Value Double))
    (reads : Reads cursor (members.text ++ ['\x7d'.toUInt8]) reached)
    (areValues : members.values fromChars = some vs) (enough : 3 * cursor.rest.length + 2 ≤ fuel) :
    objectLoop fromChars simd fuel done cursor = .ok (.object (done ++ vs), reached) := by
  obtain ⟨fuel, rfl⟩ : ∃ less, fuel = less + 1 := ⟨fuel - 1, by omega⟩
  cases members with
  | last before key afterKey beforeNode node after =>
      rw [Members.values, Option.bind_eq_some_iff] at areValues
      obtain ⟨string, decoded, areValues⟩ := areValues
      obtain ⟨v, isValue, rfl⟩ := Option.map_eq_some_iff.mp areValues
      rw [Members.text, List.append_assoc, List.append_assoc] at reads
      obtain ⟨start, readsStart, shorter, turn⟩ := objectLoop_turn done decoded reads
      obtain ⟨middle, readsNode, readsEnd⟩ := readsStart.parts
      have parsed := parseValue_of_reads node simd fuel _ _ v readsNode isValue
        (stops_before readsEnd (by decide)) (by omega)
      obtain ⟨next, readsNothing, turn⟩ := turn v middle after _ _ parsed readsEnd (by decide)
      have same : next = reached := readsNothing.advance_eq
      rw [turn, same]
      rfl
  | more before key afterKey beforeNode node after others =>
      rw [Members.values, Option.bind_eq_some_iff] at areValues
      obtain ⟨string, decoded, areValues⟩ := areValues
      obtain ⟨v, isValue, mapped⟩ := Option.bind_eq_some_iff.mp areValues
      obtain ⟨vs, areOthers, rfl⟩ := Option.map_eq_some_iff.mp mapped
      rw [Members.text, List.append_assoc, List.append_assoc, List.append_assoc,
        List.cons_append] at reads
      obtain ⟨start, readsStart, shorter, turn⟩ := objectLoop_turn done decoded reads
      have isShorter := readsStart.length
      simp only [List.length_append, List.length_cons, List.length_nil] at isShorter
      obtain ⟨middle, readsNode, readsComma⟩ := readsStart.parts
      have parsed := parseValue_of_reads node simd fuel _ _ v readsNode isValue
        (stops_before readsComma (by decide)) (by omega)
      obtain ⟨next, readsOthers, turn⟩ := turn v middle after _ _ parsed readsComma (by decide)
      have shortest := readsOthers.length
      simp only [List.length_append, List.length_cons, List.length_nil] at shortest
      have loop := objectLoop_of_reads others simd fuel next reached (done ++ [(string, v)]) vs
        readsOthers areOthers (by omega)
      rw [turn, if_pos (beq_self_eq_true _), loop, List.append_assoc, List.singleton_append]

end

/-! ## The whole text -/

/-- The parser accepts a text as a value exactly when a document written so stands for the
value. -/
theorem parse_ok (input : List UInt8) (simd : Bool) (v : Value Double) :
    parse fromChars input simd = .ok v ↔
      ∃ document : Document, document.text = input ∧ document.node.value fromChars = some v := by
  rw [parse]
  constructor
  · intro parsed
    obtain ⟨before, readsBefore, -⟩ := skipWs_reads simd ⟨input, 0⟩
    obtain ⟨⟨w, afterNode⟩, isNode, parsed⟩ := bind_eq_ok.mp parsed
    obtain ⟨node, readsNode, isValue⟩ := (values_sound simd _).1 _ _ _ isNode
    obtain ⟨after, readsAfter, -⟩ := skipWs_reads simd afterNode
    dsimp only at parsed
    split at parsed
    next atEnd =>
      cases parsed
      refine ⟨⟨before, node, after⟩, ?_, isValue⟩
      have reads := readsBefore.trans (readsNode.trans readsAfter)
      have isInput := reads.1
      rw [atEnd, List.append_nil] at isInput
      exact isInput.symm
    next => cases parsed
  · rintro ⟨⟨before, node, after⟩, rfl, isValue⟩
    have reads : Reads ⟨before.text ++ (node.text ++ after.text), 0⟩
        (before.text ++ (node.text ++ after.text))
        ⟨[], (before.text ++ (node.text ++ after.text)).length⟩ :=
      ⟨(List.append_nil _).symm, (Nat.zero_add _).symm⟩
    have readsStart : Reads (skipWs simd _) _ _ := skipWs_node reads
    obtain ⟨middle, readsNode, readsAfter⟩ := readsStart.parts
    have further := length_skipWs simd ⟨before.text ++ (node.text ++ after.text), 0⟩
    have atEnd := skipWs_of_reads simd readsAfter (peek_nil rfl _)
    have stops : peek middle continues = false :=
      peek_blank readsAfter (fun _ => continues_of_isWs) (peek_nil rfl _)
    have parsed := parseValue_of_reads node simd
      (3 * (before.text ++ (node.text ++ after.text)).length + 1) _ _ v readsNode isValue stops
      (by dsimp only at further; omega)
    rw [Document.text]
    dsimp only
    rw [parsed]
    change (if (skipWs simd middle).rest = [] then _ else _) = _
    rw [atEnd]
    rfl

end Values

end FoundationsLab.SimdJson
