import FoundationsLab.SimdJson.ReadValues

/-! # Which texts are accepted

The string literals of a text can be found without its grammar, by a scan that only keeps
track of quotes and backslashes. In terms of them the parser accepts the texts of RFC 8259
and no others, but for control characters that stand in a string as they are. -/

namespace FoundationsLab.SimdJson

/-! ## String literals -/

/-- One more piece in front of the first literal. -/
def push (piece : Piece) : List (List Piece) → List (List Piece)
  | [] => [[piece]]
  | pieces :: others => (piece :: pieces) :: others

/-- Outside of a string, or inside with some bytes of an escape to pass over. -/
inductive Place where
  | outside
  | inside (skip : Nat)

def fourHex (digits : List UInt8) : Bool :=
  digits.length = 4 && digits.all fun d => (hexDigit d).isSome

/-- The literals of a text, each with its pieces. -/
def literals : Place → List UInt8 → List (List Piece)
  | .outside, [] => []
  | .inside _, [] => [[]]
  | .outside, c :: rest =>
      if c = quote then literals (.inside 0) rest else literals .outside rest
  | .inside (skip + 1), _ :: rest => literals (.inside skip) rest
  | .inside 0, c :: rest =>
      if c = quote then [] :: literals .outside rest
      else if c = backslash then
        match rest with
        | [] => [[]]
        | e :: rest =>
            if e = 'u'.toUInt8 && fourHex (rest.take 4) then
              push (.unicode (rest.take 4)) (literals (.inside 4) rest)
            else push (.short e) (literals (.inside 0) rest)
      else push (.raw c) (literals (.inside 0) rest)

/-- A `\u` escape of a surrogate. -/
def SurrogateEscape (input : List UInt8) : Prop :=
  ∃ pieces ∈ literals .outside input, ∃ digits, .unicode digits ∈ pieces ∧
    (isHigh (unit digits) ∨ isLow (unit digits))

/-- A control character that is not escaped. -/
def RawControl (input : List UInt8) : Prop :=
  ∃ pieces ∈ literals .outside input, ∃ piece ∈ pieces, ¬ piece.Printable

theorem literals_skip (digits rest : List UInt8) :
    literals (.inside digits.length) (digits ++ rest) = literals (.inside 0) rest := by
  induction digits with
  | nil => rfl
  | cons d digits induction => exact induction

theorem literals_piece {piece : Piece} (legal : piece.Legal) (rest : List UInt8) :
    literals (.inside 0) (piece.text ++ rest) = push piece (literals (.inside 0) rest) := by
  cases piece with
  | raw c =>
      show literals (.inside 0) (c :: rest) = _
      rw [literals.eq_def]
      dsimp only
      rw [if_neg legal.1, if_neg legal.2]
  | short letter =>
      have notU : letter ≠ 'u'.toUInt8 := by
        rintro rfl
        exact absurd legal (by rw [Piece.Legal]; decide)
      show literals (.inside 0) (backslash :: letter :: rest) = _
      rw [literals, if_neg (by decide), if_pos rfl]
      rw [decide_eq_false notU, Bool.false_and, if_neg Bool.false_ne_true]
  | unicode digits =>
      obtain ⟨isLength, areDigits⟩ := legal
      have isTake : (digits ++ rest).take 4 = digits := by rw [← isLength, List.take_left]
      have isHex : fourHex digits = true := by
        rw [fourHex, decide_eq_true isLength, Bool.true_and]
        exact areDigits
      have skipped := literals_skip digits rest
      rw [isLength] at skipped
      show literals (.inside 0) (backslash :: 'u'.toUInt8 :: (digits ++ rest)) = _
      rw [literals, if_neg (by decide), if_pos rfl]
      rw [isTake, isHex, decide_eq_true rfl, Bool.true_and, if_pos rfl, skipped]

theorem literals_body {pieces : List Piece} (legal : ∀ piece ∈ pieces, piece.Legal)
    (rest : List UInt8) :
    literals (.inside 0) (body pieces ++ quote :: rest) = pieces :: literals .outside rest := by
  induction pieces with
  | nil =>
      show literals (.inside 0) (quote :: rest) = _
      rw [literals.eq_def]
      exact if_pos rfl
  | cons piece pieces induction =>
      obtain ⟨legalPiece, legal⟩ := List.forall_mem_cons.mp legal
      rw [body, List.flatMap_cons, List.append_assoc, literals_piece legalPiece]
      exact congrArg (push piece) (induction legal)

theorem literals_literal (literal : Literal) (rest : List UInt8) :
    literals .outside (literal.text ++ rest) = literal.pieces :: literals .outside rest := by
  rw [Literal.text, List.cons_append, List.append_assoc, literals, if_pos rfl]
  exact literals_body literal.legal rest

/-- Nothing but a quote begins a literal. -/
theorem literals_outside {text : List UInt8} (noQuote : quote ∉ text) (rest : List UInt8) :
    literals .outside (text ++ rest) = literals .outside rest := by
  induction text with
  | nil => rfl
  | cons c text induction =>
      rw [List.mem_cons, not_or] at noQuote
      obtain ⟨notQuote, noQuote⟩ := noQuote
      rw [List.cons_append, literals, if_neg (Ne.symm notQuote), induction noQuote]

/-! ## The literals of a tree -/

theorem Blank.literals (blank : Blank) (rest : List UInt8) :
    SimdJson.literals .outside (blank.text ++ rest) = SimdJson.literals .outside rest := by
  apply literals_outside
  intro member
  exact absurd (blank.isBlank quote member) (by decide)

theorem noQuote_of_isDigit {digits : List UInt8} (areDigits : ∀ d ∈ digits, isDigit d) :
    quote ∉ digits :=
  fun member => absurd (areDigits quote member) (by decide)

theorem NumberToken.literals (token : NumberToken) (rest : List UInt8) :
    SimdJson.literals .outside (token.text ++ rest) = SimdJson.literals .outside rest := by
  apply literals_outside
  rw [text, List.mem_append, List.mem_append, List.mem_append, not_or, not_or, not_or]
  refine ⟨?_, ?_, ?_, ?_⟩
  · cases token.minus
    · decide
    · decide
  · rcases token.isWhole with isZero | ⟨first, others, isWhole, nonzero, areDigits⟩
    · rw [isZero]
      decide
    · rw [isWhole]
      exact noQuote_of_isDigit
        (List.forall_mem_cons.mpr ⟨(isDigit_of_isNonzero nonzero).1, areDigits⟩)
  · rcases token.isFraction with isEmpty | ⟨digits, isFraction, areDigits⟩
    · rw [isEmpty]
      exact List.not_mem_nil
    · rw [isFraction, List.mem_cons, not_or]
      exact ⟨by decide, noQuote_of_isDigit areDigits.2⟩
  · rcases token.isExponent with
      isEmpty | ⟨marker, sign, digits, isExponent, isMarker, isSign, areDigits⟩
    · rw [isEmpty]
      exact List.not_mem_nil
    · rw [isExponent, List.mem_cons, List.mem_append, not_or, not_or]
      refine ⟨?_, ?_, noQuote_of_isDigit areDigits.2⟩
      · rintro rfl
        exact absurd isMarker (by decide)
      · simp only [List.mem_cons, List.not_mem_nil, or_false] at isSign
        rcases isSign with rfl | rfl | rfl
        · exact List.not_mem_nil
        · decide
        · decide

theorem literals_byte {c : UInt8} (notQuote : c ≠ quote) (rest : List UInt8) :
    literals .outside (c :: rest) = literals .outside rest :=
  literals_outside (fun member => notQuote (List.mem_singleton.mp member).symm) rest

theorem literals_key (before : Blank) (key : Literal) (afterKey beforeNode : Blank)
    (rest : List UInt8) :
    literals .outside (keyText before key afterKey beforeNode ++ rest) =
      key.pieces :: literals .outside rest := by
  rw [keyText, List.append_assoc, before.literals, List.append_assoc, literals_literal,
    List.append_assoc, afterKey.literals, List.cons_append, literals_byte (by decide),
    beforeNode.literals]

mutual

theorem Node.literals_text (node : Node) (rest : List UInt8) :
    SimdJson.literals .outside (node.text ++ rest) = node.literals ++ SimdJson.literals .outside rest := by
  cases node with
  | null => exact literals_outside (by decide) rest
  | bool boolean =>
      cases boolean with
      | true => exact literals_outside (by decide) rest
      | false => exact literals_outside (by decide) rest
  | number token => exact token.literals rest
  | string literal => exact literals_literal literal rest
  | emptyArray inside =>
      rw [Node.text, List.cons_append, literals_byte (by decide), List.append_assoc,
        inside.literals, List.singleton_append, literals_byte (by decide)]
      rfl
  | array elements =>
      rw [Node.text, List.cons_append, literals_byte (by decide), List.append_assoc,
        Elements.literals_text elements, List.singleton_append, literals_byte (by decide)]
      rfl
  | emptyObject inside =>
      rw [Node.text, List.cons_append, literals_byte (by decide), List.append_assoc,
        inside.literals, List.singleton_append, literals_byte (by decide)]
      rfl
  | object members =>
      rw [Node.text, List.cons_append, literals_byte (by decide), List.append_assoc,
        Members.literals_text members, List.singleton_append, literals_byte (by decide)]
      rfl

theorem Elements.literals_text (elements : Elements) (rest : List UInt8) :
    SimdJson.literals .outside (elements.text ++ rest) =
      elements.literals ++ SimdJson.literals .outside rest := by
  cases elements with
  | last before node after =>
      rw [Elements.text, List.append_assoc, before.literals, List.append_assoc,
        Node.literals_text node, after.literals]
      rfl
  | more before node after others =>
      rw [Elements.text, List.append_assoc, before.literals, List.append_assoc,
        Node.literals_text node, List.append_assoc, after.literals, List.cons_append,
        literals_byte (by decide), Elements.literals_text others, ← List.append_assoc]
      rfl

theorem Members.literals_text (members : Members) (rest : List UInt8) :
    SimdJson.literals .outside (members.text ++ rest) =
      members.literals ++ SimdJson.literals .outside rest := by
  cases members with
  | last before key afterKey beforeNode node after =>
      rw [Members.text, List.append_assoc, literals_key, List.append_assoc,
        Node.literals_text node, after.literals]
      rfl
  | more before key afterKey beforeNode node after others =>
      rw [Members.text, List.append_assoc, literals_key, List.append_assoc,
        Node.literals_text node, List.append_assoc, after.literals, List.cons_append,
        literals_byte (by decide), Members.literals_text others, ← List.append_assoc]
      rfl

end

/-- The scan finds the strings and the keys of a document. -/
theorem Document.literals_text (document : Document) :
    literals .outside document.text = document.node.literals := by
  have atEnd := document.after.literals []
  rw [List.append_nil] at atEnd
  rw [text, document.before.literals, document.node.literals_text, atEnd, literals,
    List.append_nil]

/-! ## Acceptance -/

/-- Only a high surrogate can fail to be decoded. -/
theorem decode_isSome {pieces : List Piece}
    (noHigh : ∀ digits, .unicode digits ∈ pieces → isHigh (unit digits) = false) :
    (decode pieces).isSome := by
  induction pieces with
  | nil => rfl
  | cons piece pieces induction =>
      have rest := induction fun digits member => noHigh digits (List.mem_cons_of_mem piece member)
      cases piece with
      | raw c => rw [decode, Option.isSome_map, rest]
      | short letter => rw [decode, Option.isSome_map, rest]
      | unicode digits =>
          rw [decode.eq_def]
          dsimp only
          rw [noHigh digits List.mem_cons_self, if_neg Bool.false_ne_true, Option.isSome_map, rest]

section Acceptance

variable {Double : Type} {fromChars : List UInt8 → Option (Nat × Double)}

/-- A token of the number grammar is converted as a whole. -/
def Converts (fromChars : List UInt8 → Option (Nat × Double)) : Prop :=
  ∀ token : NumberToken, ∃ number, fromChars token.text = some (token.text.length, number)

theorem NumberToken.value_isSome (converts : Converts fromChars) (token : NumberToken) :
    (token.value fromChars).isSome := by
  obtain ⟨number, isNumber⟩ := converts token
  rw [value, isNumber]
  dsimp only
  rw [if_pos rfl]
  rfl

mutual

theorem Node.value_isSome (converts : Converts fromChars) (node : Node)
    (decodes : ∀ pieces ∈ node.literals, (decode pieces).isSome) :
    (node.value fromChars).isSome := by
  cases node with
  | null => rfl
  | bool boolean => rfl
  | number token => exact token.value_isSome converts
  | string literal =>
      rw [Node.value, Option.isSome_map]
      exact decodes literal.pieces List.mem_cons_self
  | emptyArray inside => rfl
  | array elements =>
      rw [Node.value, Option.isSome_map]
      exact Elements.values_isSome converts elements decodes
  | emptyObject inside => rfl
  | object members =>
      rw [Node.value, Option.isSome_map]
      exact Members.values_isSome converts members decodes

theorem Elements.values_isSome (converts : Converts fromChars) (elements : Elements)
    (decodes : ∀ pieces ∈ elements.literals, (decode pieces).isSome) :
    (elements.values fromChars).isSome := by
  cases elements with
  | last before node after =>
      rw [Elements.values, Option.isSome_map]
      exact Node.value_isSome converts node decodes
  | more before node after others =>
      obtain ⟨ofNode, ofOthers⟩ := List.forall_mem_append.mp decodes
      obtain ⟨v, isValue⟩ :=
        Option.isSome_iff_exists.mp (Node.value_isSome converts node ofNode)
      rw [Elements.values, isValue, Option.bind_some, Option.isSome_map]
      exact Elements.values_isSome converts others ofOthers

theorem Members.values_isSome (converts : Converts fromChars) (members : Members)
    (decodes : ∀ pieces ∈ members.literals, (decode pieces).isSome) :
    (members.values fromChars).isSome := by
  cases members with
  | last before key afterKey beforeNode node after =>
      obtain ⟨ofKey, ofNode⟩ := List.forall_mem_cons.mp decodes
      obtain ⟨string, decoded⟩ := Option.isSome_iff_exists.mp ofKey
      rw [Members.values, decoded, Option.bind_some, Option.isSome_map]
      exact Node.value_isSome converts node ofNode
  | more before key afterKey beforeNode node after others =>
      obtain ⟨ofKey, ofRest⟩ := List.forall_mem_cons.mp decodes
      obtain ⟨ofNode, ofOthers⟩ := List.forall_mem_append.mp ofRest
      obtain ⟨string, decoded⟩ := Option.isSome_iff_exists.mp ofKey
      obtain ⟨v, isValue⟩ :=
        Option.isSome_iff_exists.mp (Node.value_isSome converts node ofNode)
      rw [Members.values, decoded, Option.bind_some, isValue, Option.bind_some, Option.isSome_map]
      exact Members.values_isSome converts others ofOthers

end

/-- Some document is written so, with whatever characters in its strings. -/
def IsDocument (input : List UInt8) : Prop := ∃ document : Document, document.text = input

theorem accepted_iff (converts : Converts fromChars) {input : List UInt8} (simd : Bool)
    (noSurrogate : ¬ SurrogateEscape input) :
    (∃ v, parse fromChars input simd = .ok v) ↔ IsDocument input := by
  constructor
  · rintro ⟨v, parsed⟩
    obtain ⟨document, isText, -⟩ := (parse_ok input simd v).mp parsed
    exact ⟨document, isText⟩
  · rintro ⟨document, rfl⟩
    have decodes : ∀ pieces ∈ document.node.literals, (decode pieces).isSome := by
      intro pieces member
      apply decode_isSome
      intro digits isUnicode
      rw [Bool.eq_false_iff]
      intro high
      apply noSurrogate
      refine ⟨pieces, ?_, digits, isUnicode, Or.inl high⟩
      rw [document.literals_text]
      exact member
    obtain ⟨v, isValue⟩ :=
      Option.isSome_iff_exists.mp (document.node.value_isSome converts decodes)
    exact ⟨v, (parse_ok _ simd v).mpr ⟨document, rfl, isValue⟩⟩

theorem isJsonText_iff (input : List UInt8) :
    IsJsonText input ↔ IsDocument input ∧ ¬ RawControl input := by
  constructor
  · rintro ⟨document, rfl, printable⟩
    refine ⟨⟨document, rfl⟩, ?_⟩
    rintro ⟨pieces, member, piece, isPiece, notPrintable⟩
    rw [document.literals_text] at member
    exact notPrintable (printable pieces member piece isPiece)
  · rintro ⟨⟨document, rfl⟩, noControl⟩
    refine ⟨document, rfl, fun pieces member piece isPiece => ?_⟩
    by_contra notPrintable
    apply noControl
    refine ⟨pieces, ?_, piece, isPiece, notPrintable⟩
    rw [document.literals_text]
    exact member

/-- On texts without escapes of surrogates the parser accepts the JSON texts of RFC 8259 and
no others, exactly when it is not given a text with a raw control character in one of its
strings that is well formed but for that. -/
theorem accepts_rfc8259_iff (converts : Converts fromChars) (input : List UInt8) (simd : Bool)
    (noSurrogate : ¬ SurrogateEscape input) :
    ((∃ v, parse fromChars input simd = .ok v) ↔ IsJsonText input) ↔
      ¬ (IsDocument input ∧ RawControl input) := by
  rw [accepted_iff converts simd noSurrogate, isJsonText_iff]
  constructor
  · rintro same ⟨isDocument, control⟩
    exact (same.mp isDocument).2 control
  · intro notBoth
    constructor
    · exact fun isDocument => ⟨isDocument, fun control => notBoth ⟨isDocument, control⟩⟩
    · exact fun isJson => isJson.1

end Acceptance

/-- A conversion that reads every token to its end, right for whole numbers. -/
def readDigits (token : List UInt8) : Option (Nat × Nat) :=
  some (token.length, token.foldl (fun number d => number * 10 + (d.toNat - '0'.toNat)) 0)

theorem readDigits_converts : Converts readDigits := fun _ => ⟨_, rfl⟩

/-- `[1]` -/
theorem accepts_rfc8259_array :
    ((∃ v, parse readDigits [0x5B, 0x31, 0x5D] true = .ok v) ↔ IsJsonText [0x5B, 0x31, 0x5D]) ↔
      ¬ (IsDocument [0x5B, 0x31, 0x5D] ∧ RawControl [0x5B, 0x31, 0x5D]) := by
  apply accepts_rfc8259_iff readDigits_converts
  rintro ⟨pieces, member, -⟩
  cases member

/-- A string that holds a line feed as it is: the text is accepted, and no JSON text. -/
theorem accepts_raw_lineFeed :
    ¬ SurrogateEscape [0x22, 0x0A, 0x22] ∧
      ¬ ((∃ v, parse readDigits [0x22, 0x0A, 0x22] true = .ok v) ↔
        IsJsonText [0x22, 0x0A, 0x22]) := by
  have isLiteral : literals .outside [0x22, 0x0A, 0x22] = [[.raw 0x0A]] := by decide
  constructor
  · rintro ⟨pieces, member, digits, isUnicode, -⟩
    rw [isLiteral, List.mem_singleton] at member
    subst member
    cases List.mem_singleton.mp isUnicode
  · intro same
    have isJson := same.mp ⟨.string [0x0A], (parse_ok _ _ _).mpr
      ⟨⟨⟨[], List.forall_mem_nil _⟩, .string ⟨[.raw 0x0A], by
        intro piece member
        rw [List.mem_singleton.mp member]
        exact ⟨by decide, by decide⟩⟩, ⟨[], List.forall_mem_nil _⟩⟩, rfl, rfl⟩⟩
    apply ((isJsonText_iff _).mp isJson).2
    refine ⟨[.raw 0x0A], ?_, .raw 0x0A, List.mem_cons_self, by decide⟩
    rw [isLiteral]
    exact List.mem_cons_self

end FoundationsLab.SimdJson
