import FoundationsLab.SimdJson.Grammar

/-! # Reading white space and strings

What each scanning function of the parser takes from the text, in the words of the
grammar: it stops after some piece of syntax, and after that piece only. -/

namespace FoundationsLab.SimdJson

/-! ## From one cursor to another -/

/-- Between the cursors there are these bytes. -/
def Reads (cursor : Cursor) (text : List UInt8) (reached : Cursor) : Prop :=
  cursor.rest = text ++ reached.rest ∧ reached.position = cursor.position + text.length

namespace Reads

variable {cursor middle reached : Cursor} {text front : List UInt8} {c : UInt8}

theorem refl (cursor : Cursor) : Reads cursor [] cursor := ⟨rfl, rfl⟩

theorem trans (first : Reads cursor front middle) (second : Reads middle text reached) :
    Reads cursor (front ++ text) reached := by
  constructor
  · rw [first.1, second.1, List.append_assoc]
  · rw [second.2, first.2, List.length_append, Nat.add_assoc]

theorem advance {n : Nat} {rest : List UInt8} (isRest : cursor.rest = text ++ rest)
    (isLength : text.length = n) : Reads cursor text (cursor.advance n) := by
  rw [← isLength]
  constructor
  · show cursor.rest = text ++ cursor.rest.drop text.length
    rw [isRest, List.drop_left]
  · rfl

theorem byte {rest : List UInt8} (isRest : cursor.rest = c :: rest) :
    Reads cursor [c] (cursor.advance 1) :=
  advance (show cursor.rest = [c] ++ rest from isRest) rfl

theorem advance_eq (reads : Reads cursor text reached) :
    cursor.advance text.length = reached := by
  show Cursor.mk (cursor.rest.drop text.length) (cursor.position + text.length) = reached
  rw [reads.1, List.drop_left, ← reads.2]

theorem advance_one (reads : Reads cursor [c] reached) : cursor.advance 1 = reached :=
  reads.advance_eq

/-- The bytes can be read in two parts. -/
theorem split (front : List UInt8) (reads : Reads cursor (front ++ text) reached) :
    Reads cursor front (cursor.advance front.length) ∧
      Reads (cursor.advance front.length) text reached := by
  have isRest : cursor.rest = front ++ (text ++ reached.rest) := by
    rw [reads.1, List.append_assoc]
  constructor
  · exact advance isRest rfl
  · constructor
    · show cursor.rest.drop front.length = _
      rw [isRest, List.drop_left]
    · show reached.position = cursor.position + front.length + text.length
      rw [reads.2, List.length_append, Nat.add_assoc]

theorem parts (reads : Reads cursor (front ++ text) reached) :
    ∃ middle, Reads cursor front middle ∧ Reads middle text reached :=
  ⟨_, split front reads⟩

theorem cons (reads : Reads cursor (c :: text) reached) : Reads (cursor.advance 1) text reached :=
  (split [c] reads).2

theorem head (reads : Reads cursor (c :: text) reached) :
    cursor.rest = c :: (text ++ reached.rest) := reads.1

theorem length (reads : Reads cursor text reached) :
    cursor.rest.length = text.length + reached.rest.length := by
  rw [reads.1, List.length_append]

end Reads

variable {α β : Type} {cursor reached : Cursor}

theorem peek_cons {c : UInt8} {rest : List UInt8} (isRest : cursor.rest = c :: rest)
    (holds : UInt8 → Bool) : peek cursor holds = holds c := by
  rw [peek, isRest]

theorem peek_nil (isRest : cursor.rest = []) (holds : UInt8 → Bool) :
    peek cursor holds = false := by
  rw [peek, isRest]

theorem of_peek {holds : UInt8 → Bool} (seen : peek cursor holds = true) :
    ∃ c rest, cursor.rest = c :: rest ∧ holds c = true := by
  rw [peek] at seen
  split at seen
  next c rest isRest => exact ⟨c, rest, isRest, seen⟩
  next => cases seen

theorem of_peekIs {c : Char} (seen : peekIs cursor c = true) :
    ∃ rest, cursor.rest = c.toUInt8 :: rest := by
  obtain ⟨d, rest, isRest, same⟩ := of_peek seen
  rw [eq_of_beq same] at isRest
  exact ⟨rest, isRest⟩

theorem Reads.of_peekIs {c : Char} (seen : peekIs cursor c = true) :
    Reads cursor [c.toUInt8] (cursor.advance 1) := by
  obtain ⟨rest, isRest⟩ := SimdJson.of_peekIs seen
  exact Reads.byte isRest

theorem bind_eq_ok {result : Parse α} {next : α → Parse β} {final : β} :
    (result >>= next) = .ok final ↔ ∃ value, result = .ok value ∧ next value = .ok final := by
  cases result with
  | error stop =>
      constructor
      · intro same
        cases same
      · rintro ⟨_, same, _⟩
        cases same
  | ok value =>
      constructor
      · exact fun same => ⟨value, rfl, same⟩
      · rintro ⟨_, isValue, same⟩
        cases isValue
        exact same

theorem ok_bind (value : α) (next : α → Parse β) : ((.ok value : Parse α) >>= next) = next value := rfl

theorem fail_ne_ok {msg : String} {value : α} : (fail msg cursor : Parse α) ≠ .ok value :=
  fun same => by cases same

/-! ## Loops -/

theorem scanBytes_nil (stop : UInt8 → Bool) (isRest : cursor.rest = []) :
    scanBytes stop cursor = cursor := by
  obtain ⟨rest, position⟩ := cursor
  subst isRest
  rfl

theorem scanBytes_cons (stop : UInt8 → Bool) {c : UInt8} {rest : List UInt8}
    (isRest : cursor.rest = c :: rest) :
    scanBytes stop cursor =
      if stop c then cursor else scanBytes stop (cursor.advance 1) := by
  obtain ⟨rest', position⟩ := cursor
  subst isRest
  rfl

/-- The loop goes on to the first stop. -/
theorem scanBytes_reads (stop : UInt8 → Bool) (cursor : Cursor) :
    ∃ text, Reads cursor text (scanBytes stop cursor) ∧ (∀ c ∈ text, stop c = false) ∧
      peek (scanBytes stop cursor) (fun c => !stop c) = false := by
  obtain ⟨rest, position⟩ := cursor
  induction rest generalizing position with
  | nil => exact ⟨[], .refl _, List.forall_mem_nil _, rfl⟩
  | cons c rest induction =>
      rw [scanBytes_cons stop rfl]
      cases isStop : stop c with
      | true =>
          refine ⟨[], .refl _, List.forall_mem_nil _, ?_⟩
          rw [if_pos rfl, peek_cons rfl, isStop]
          rfl
      | false =>
          rw [if_neg Bool.false_ne_true]
          obtain ⟨text, reads, runs, stops⟩ := induction (position + 1)
          refine ⟨c :: text, ?_, ?_, stops⟩
          · have readsByte : Reads ⟨c :: rest, position⟩ [c] ⟨rest, position + 1⟩ := Reads.byte rfl
            exact readsByte.trans reads
          · intro d member
            rcases List.mem_cons.mp member with rfl | member
            · exact isStop
            · exact runs d member

/-- And it goes there over anything that does not stop it. -/
theorem scanBytes_of_reads {stop : UInt8 → Bool} {text : List UInt8}
    (reads : Reads cursor text reached) (runs : ∀ c ∈ text, stop c = false)
    (stops : peek reached (fun c => !stop c) = false) : scanBytes stop cursor = reached := by
  induction text generalizing cursor with
  | nil =>
      have same : cursor = reached := reads.advance_eq
      subst same
      cases isRest : cursor.rest with
      | nil => exact scanBytes_nil stop isRest
      | cons c rest =>
          rw [peek_cons isRest] at stops
          rw [scanBytes_cons stop isRest, if_pos (by simpa using stops)]
  | cons c text induction =>
      rw [scanBytes_cons stop reads.head, runs c List.mem_cons_self, if_neg Bool.false_ne_true]
      exact induction reads.cons fun d member => runs d (List.mem_cons_of_mem c member)

theorem skipWs_reads (simd : Bool) (cursor : Cursor) :
    ∃ blank : Blank, Reads cursor blank.text (skipWs simd cursor) ∧
      peek (skipWs simd cursor) isWs = false := by
  obtain ⟨text, reads, runs, stops⟩ := scanBytes_reads (fun c => !isWs c) cursor
  rw [skipWs_eq]
  refine ⟨⟨text, fun c member => ?_⟩, reads, ?_⟩
  · simpa using runs c member
  · simpa using stops

theorem skipWs_of_reads (simd : Bool) {blank : Blank} (reads : Reads cursor blank.text reached)
    (stops : peek reached isWs = false) : skipWs simd cursor = reached := by
  rw [skipWs_eq]
  apply scanBytes_of_reads reads
  · intro c member
    simpa using blank.isBlank c member
  · simpa using stops

/-! ## Escapes -/

theorem hexDigit_lt {c : UInt8} {digit : Nat} (isDigit : hexDigit c = some digit) : digit < 16 := by
  rw [hexDigit] at isDigit
  have bound : ∀ low high : UInt8, c ≤ high → c.toNat - low.toNat ≤ high.toNat - low.toNat :=
    fun low high le => Nat.sub_le_sub_right (UInt8.le_iff_toNat_le.mp le) _
  split at isDigit
  next range =>
    have less := bound '0'.toUInt8 '9'.toUInt8 range.2
    cases isDigit
    exact Nat.lt_of_le_of_lt less (by decide)
  next =>
    split at isDigit
    next range =>
      have less := bound 'a'.toUInt8 'f'.toUInt8 range.2
      cases isDigit
      exact Nat.lt_of_le_of_lt (Nat.add_le_add_right less 10) (by decide)
    next =>
      split at isDigit
      next range =>
        have less := bound 'A'.toUInt8 'F'.toUInt8 range.2
        cases isDigit
        exact Nat.lt_of_le_of_lt (Nat.add_le_add_right less 10) (by decide)
      next => cases isDigit

/-- The digits are read off in base 16. -/
theorem readHexDigits_ok {count cp value : Nat} :
    readHexDigits count cp cursor = .ok (value, reached) ↔
      ∃ digits : List UInt8, Reads cursor digits reached ∧ digits.length = count ∧
        (∀ d ∈ digits, (hexDigit d).isSome) ∧
        value = digits.foldl (fun unit d => unit * 16 + (hexDigit d).getD 0) cp := by
  induction count generalizing cp cursor with
  | zero =>
      rw [readHexDigits]
      constructor
      · intro same
        cases same
        exact ⟨[], .refl _, rfl, List.forall_mem_nil _, rfl⟩
      · rintro ⟨digits, reads, isLength, _, rfl⟩
        rw [List.eq_nil_of_length_eq_zero isLength] at reads ⊢
        exact congrArg (fun reached => Except.ok (cp, reached)) reads.advance_eq
  | succ count induction =>
      have shifted : ∀ {d : UInt8} {digit : Nat}, hexDigit d = some digit →
          cp <<< 4 ||| digit = cp * 16 + (hexDigit d).getD 0 := by
        intro d digit isDigit
        rw [← Nat.shiftLeft_add_eq_or_of_lt (hexDigit_lt isDigit), isDigit, Nat.shiftLeft_eq]
        rfl
      rw [readHexDigits]
      constructor
      · intro same
        split at same
        next digit isDigit =>
          obtain ⟨digits, reads, isLength, areDigits, isValue⟩ := induction.mp same
          cases isRest : cursor.rest with
          | nil =>
              rw [isRest] at isDigit
              cases isDigit
          | cons d rest =>
              rw [isRest, List.headD_cons] at isDigit
              refine ⟨d :: digits, (Reads.byte isRest).trans reads, congrArg Nat.succ isLength,
                ?_, ?_⟩
              · intro e member
                rcases List.mem_cons.mp member with rfl | member
                · exact Option.isSome_iff_exists.mpr ⟨digit, isDigit⟩
                · exact areDigits e member
              · rw [List.foldl_cons, ← shifted isDigit]
                exact isValue
        next => cases same
      · rintro ⟨digits, reads, isLength, areDigits, isValue⟩
        cases digits with
        | nil => cases isLength
        | cons d digits =>
            obtain ⟨digit, isDigit⟩ :=
              Option.isSome_iff_exists.mp (areDigits d List.mem_cons_self)
            rw [reads.head, List.headD_cons, isDigit]
            apply induction.mpr
            refine ⟨digits, reads.cons, Nat.succ.inj isLength,
              fun e member => areDigits e (List.mem_cons_of_mem d member), ?_⟩
            rw [shifted isDigit]
            exact isValue

theorem readHex4_ok {value : Nat} :
    readHex4 cursor = .ok (value, reached) ↔
      ∃ digits, Reads cursor digits reached ∧ Piece.Legal (.unicode digits) ∧
        value = unit digits := by
  rw [readHex4]
  constructor
  · intro same
    split at same
    next => cases same
    next =>
      obtain ⟨digits, reads, isLength, areDigits, isValue⟩ := readHexDigits_ok.mp same
      exact ⟨digits, reads, ⟨isLength, List.all_eq_true.mpr areDigits⟩, isValue⟩
  · rintro ⟨digits, reads, ⟨isLength, areDigits⟩, isValue⟩
    rw [if_neg (by rw [reads.length]; omega)]
    exact readHexDigits_ok.mpr ⟨digits, reads, isLength, List.all_eq_true.mp areDigits, isValue⟩

/-- One code unit, or two that make a surrogate pair. -/
theorem appendUnicode_ok {out final : List UInt8} :
    appendUnicode out cursor = .ok (final, reached) ↔
      (∃ digits, Piece.Legal (.unicode digits) ∧ Reads cursor digits reached ∧
        isHigh (unit digits) = false ∧ final = out ++ encodeUtf8 (unit digits)) ∨
      ∃ digits low, Piece.Legal (.unicode digits) ∧ Piece.Legal (.unicode low) ∧
        Reads cursor (digits ++ Piece.text (.unicode low)) reached ∧
        isHigh (unit digits) = true ∧ isLow (unit low) = true ∧
        final = out ++ encodeUtf8 (combined (unit digits) (unit low)) := by
  have pair : ∀ high low : Nat,
      0x10000 + (high - 0xD800) <<< 10 + (low - 0xDC00) = combined high low := by
    intro high low
    rw [Nat.shiftLeft_eq]
    rfl
  rw [appendUnicode, bind_eq_ok]
  constructor
  · rintro ⟨⟨cp, middle⟩, isCp, same⟩
    obtain ⟨digits, reads, legal, rfl⟩ := readHex4_ok.mp isCp
    dsimp only at same
    split at same
    next high =>
      split at same
      next isEscape =>
        obtain ⟨⟨lo, after⟩, isLo, same⟩ := bind_eq_ok.mp same
        obtain ⟨low, readsLow, legalLow, rfl⟩ := readHex4_ok.mp isLo
        dsimp only at same
        split at same
        next isLow =>
          cases same
          have readsEscape : Reads middle ['\\'.toUInt8, 'u'.toUInt8] (middle.advance 2) := by
            have isRest := List.take_append_drop 2 middle.rest
            rw [isEscape] at isRest
            exact Reads.advance isRest.symm rfl
          refine Or.inr ⟨digits, low, legal, legalLow, ?_, decide_eq_true high,
            decide_eq_true isLow, ?_⟩
          · exact reads.trans (readsEscape.trans readsLow)
          · rw [pair]
        next => cases same
      next => cases same
    next notHigh =>
      cases same
      exact Or.inl ⟨digits, legal, reads, decide_eq_false notHigh, rfl⟩
  · rintro (⟨digits, legal, reads, notHigh, rfl⟩ |
      ⟨digits, low, legal, legalLow, reads, high, isLow, rfl⟩)
    · refine ⟨(unit digits, reached), readHex4_ok.mpr ⟨digits, reads, legal, rfl⟩, ?_⟩
      dsimp only
      rw [if_neg (of_decide_eq_false notHigh)]
      rfl
    · obtain ⟨readsHigh, readsLow⟩ := reads.split digits
      refine ⟨(unit digits, _), readHex4_ok.mpr ⟨digits, readsHigh, legal, rfl⟩, ?_⟩
      have isEscape : (cursor.advance digits.length).rest.take 2 =
          ['\\'.toUInt8, 'u'.toUInt8] := by
        rw [readsLow.head]
        rfl
      have readsUnit := (Reads.split ['\\'.toUInt8, 'u'.toUInt8] readsLow).2
      dsimp only
      rw [if_pos (of_decide_eq_true high), if_pos isEscape, bind_eq_ok]
      refine ⟨(unit low, reached), readHex4_ok.mpr ⟨low, readsUnit, legalLow, rfl⟩, ?_⟩
      dsimp only
      rw [if_pos (of_decide_eq_true isLow), pair]
      rfl

theorem simpleEscape_isSome (letter : UInt8) :
    (simpleEscape letter).isSome ↔ Piece.Legal (.short letter) := by
  rw [Piece.Legal, simpleEscape]
  simp only [List.map_cons, List.map_nil, List.mem_cons, List.not_mem_nil, or_false]
  grind

theorem simpleEscape_u : simpleEscape 'u'.toUInt8 = none := by decide

/-! ## The loop -/

/-- What comes first in a string, whatever follows. -/
def Means (front : List Piece) (bytes : List UInt8) : Prop :=
  ∀ rest, decode (front ++ rest) = (decode rest).map (bytes ++ ·)

theorem means_unicode {digits : List UInt8} (notHigh : isHigh (unit digits) = false) :
    Means [.unicode digits] (encodeUtf8 (unit digits)) := by
  intro rest
  rw [List.cons_append, decode.eq_def]
  dsimp only
  rw [notHigh, if_neg Bool.false_ne_true]
  rfl

theorem means_pair {high low : List UInt8} (isHigh' : isHigh (unit high) = true)
    (isLow' : isLow (unit low) = true) :
    Means [.unicode high, .unicode low] (encodeUtf8 (combined (unit high) (unit low))) := by
  intro rest
  rw [List.cons_append, decode.eq_def]
  dsimp only
  rw [isHigh', if_pos rfl, List.cons_append]
  dsimp only
  rw [isLow', if_pos rfl]
  rfl

theorem parseEscape_short {letter : UInt8} (legal : Piece.Legal (.short letter))
    (reads : Reads cursor [letter] reached) (out : List UInt8) :
    parseEscape out cursor = .ok (out ++ (simpleEscape letter).toList, reached) := by
  obtain ⟨c, isEscape⟩ := Option.isSome_iff_exists.mp ((simpleEscape_isSome letter).mpr legal)
  rw [parseEscape, reads.head]
  dsimp only
  rw [isEscape, reads.advance_one]
  rfl

theorem parseEscape_u {text : List UInt8} (reads : Reads cursor ('u'.toUInt8 :: text) reached)
    (out : List UInt8) : parseEscape out cursor = appendUnicode out (cursor.advance 1) := by
  rw [parseEscape, reads.head]
  dsimp only
  rw [simpleEscape_u]
  exact if_pos rfl

/-- An escape is one or two pieces, after the backslash of the first. -/
theorem of_parseEscape {out final : List UInt8}
    (parsed : parseEscape out cursor = .ok (final, reached)) :
    ∃ front bytes text, body front = backslash :: text ∧ Reads cursor text reached ∧
      (∀ piece ∈ front, piece.Legal) ∧ Means front bytes ∧ final = out ++ bytes := by
  rw [parseEscape] at parsed
  split at parsed
  next => cases parsed
  next e rest isRest =>
    have readsLetter : Reads cursor [e] (cursor.advance 1) := Reads.byte isRest
    dsimp only at parsed
    split at parsed
    next c isEscape =>
      cases parsed
      have legal : Piece.Legal (.short e) := (simpleEscape_isSome e).mp (by rw [isEscape]; rfl)
      refine ⟨[.short e], [c], [e], rfl, readsLetter, ?_, ?_, rfl⟩
      · exact List.forall_mem_singleton.mpr legal
      · intro rest
        rw [List.cons_append, decode, isEscape]
        rfl
    next =>
      split at parsed
      next isU =>
        subst isU
        rcases appendUnicode_ok.mp parsed with
          ⟨digits, legal, reads, notHigh, rfl⟩ |
          ⟨digits, low, legal, legalLow, reads, high, isLow, rfl⟩
        · refine ⟨[.unicode digits], encodeUtf8 (unit digits), 'u'.toUInt8 :: digits,
            List.append_nil _, readsLetter.trans reads, ?_, ?_, rfl⟩
          · exact List.forall_mem_singleton.mpr legal
          · exact means_unicode notHigh
        · refine ⟨[.unicode digits, .unicode low],
            encodeUtf8 (combined (unit digits) (unit low)),
            'u'.toUInt8 :: (digits ++ Piece.text (.unicode low)),
            congrArg (fun text => backslash :: 'u'.toUInt8 :: (digits ++ text))
              (List.append_nil (Piece.text (.unicode low))),
            readsLetter.trans reads, ?_, ?_, rfl⟩
          · exact List.forall_mem_cons.mpr ⟨legal, List.forall_mem_singleton.mpr legalLow⟩
          · exact means_pair high isLow
      next => cases parsed

section StringLoop

variable {simd : Bool} {fuel : Nat} {out final : List UInt8} {start : Cursor}

theorem stringLoop_nil (isRest : start.rest = []) :
    stringLoop simd (fuel + 1) out start ≠ .ok (final, reached) := by
  rw [stringLoop, scanToStringSpecial_eq, scanBytes_nil isSpecial isRest, isRest]
  exact fail_ne_ok

/-- At a quote or a backslash the scan does not move. -/
theorem scan_special (simd : Bool) {c : UInt8} {rest : List UInt8} (isRest : start.rest = c :: rest)
    (special : isSpecial c = true) :
    scanToStringSpecial simd start = (c, start) ∧
      start.rest.take (start.position - start.position) = [] := by
  rw [scanToStringSpecial_eq, scanBytes_cons isSpecial isRest, special, if_pos rfl, isRest,
    Nat.sub_self]
  exact ⟨rfl, rfl⟩

theorem stringLoop_quote {rest : List UInt8} (isRest : start.rest = quote :: rest) :
    stringLoop simd (fuel + 1) out start = .ok (out, start.advance 1) := by
  obtain ⟨stays, none'⟩ := scan_special simd isRest rfl
  rw [stringLoop, stays]
  dsimp only
  rw [none', List.append_nil]
  rfl

theorem stringLoop_backslash {rest : List UInt8} (isRest : start.rest = backslash :: rest) :
    stringLoop simd (fuel + 1) out start =
      (parseEscape out (start.advance 1) >>= fun result => stringLoop simd fuel result.1 result.2) := by
  obtain ⟨stays, none'⟩ := scan_special simd isRest rfl
  rw [stringLoop, stays]
  dsimp only
  rw [none', List.append_nil, if_neg (by decide), if_neg (by decide)]

/-- Any other byte is copied. -/
theorem stringLoop_raw {c : UInt8} {rest : List UInt8} (isRest : start.rest = c :: rest)
    (ordinary : isSpecial c = false) :
    stringLoop simd (fuel + 1) out start =
      stringLoop simd (fuel + 1) (out ++ [c]) (start.advance 1) := by
  have further : scanBytes isSpecial start = scanBytes isSpecial (start.advance 1) := by
    rw [scanBytes_cons isSpecial isRest, ordinary, if_neg Bool.false_ne_true]
  obtain ⟨text, reads, -⟩ := scanBytes_reads isSpecial (start.advance 1)
  have isPosition := reads.2
  have position : (start.advance 1).position = start.position + 1 := rfl
  have taken : start.rest.take
        ((scanBytes isSpecial (start.advance 1)).position - start.position) =
      c :: (start.advance 1).rest.take
        ((scanBytes isSpecial (start.advance 1)).position - (start.advance 1).position) := by
    have isNext : (start.advance 1).rest = rest := by
      show start.rest.drop 1 = rest
      rw [isRest]
      rfl
    rw [isRest, isNext, show (scanBytes isSpecial (start.advance 1)).position - start.position =
      (scanBytes isSpecial (start.advance 1)).position - (start.advance 1).position + 1 by omega,
      List.take_succ_cons]
  rw [stringLoop, stringLoop, scanToStringSpecial_eq, scanToStringSpecial_eq, further]
  dsimp only
  rw [taken, List.append_assoc, List.singleton_append]

theorem of_stringLoop (parsed : stringLoop simd fuel out start = .ok (final, reached)) :
    ∃ pieces bytes, (∀ piece ∈ pieces, piece.Legal) ∧
      Reads start (body pieces ++ [quote]) reached ∧ decode pieces = some bytes ∧
      final = out ++ bytes := by
  generalize isLength : start.rest.length = n
  induction n using Nat.strongRecOn generalizing fuel out start with
  | ind n induction =>
      subst isLength
      cases fuel with
      | zero => cases parsed
      | succ fuel =>
          cases isRest : start.rest with
          | nil => exact absurd parsed (stringLoop_nil isRest)
          | cons c rest =>
              have shorter : (start.advance 1).rest.length < start.rest.length := by
                rw [Cursor.length_advance, isRest]
                exact Nat.lt_succ_self _
              have readsByte : Reads start [c] (start.advance 1) := Reads.byte isRest
              by_cases isQuote : c = quote
              · subst isQuote
                rw [stringLoop_quote isRest] at parsed
                cases parsed
                exact ⟨[], [], List.forall_mem_nil _, readsByte, rfl, (List.append_nil _).symm⟩
              by_cases isBackslash : c = backslash
              · subst isBackslash
                rw [stringLoop_backslash isRest] at parsed
                obtain ⟨⟨middleOut, middle⟩, isEscape, parsed⟩ := bind_eq_ok.mp parsed
                obtain ⟨front, bytes, text, isBody, reads, legal, means, rfl⟩ :=
                  of_parseEscape isEscape
                have isShorter : (start.advance 1).rest.length = text.length + middle.rest.length :=
                  reads.length
                obtain ⟨pieces, others, legalOthers, readsOthers, decoded, rfl⟩ :=
                  induction middle.rest.length (by omega) parsed rfl
                refine ⟨front ++ pieces, bytes ++ others, ?_, ?_, ?_, ?_⟩
                · exact List.forall_mem_append.mpr ⟨legal, legalOthers⟩
                · rw [body, List.flatMap_append, List.append_assoc]
                  rw [body] at isBody
                  rw [isBody]
                  exact (readsByte.trans reads).trans readsOthers
                · rw [means pieces, decoded]
                  rfl
                · rw [List.append_assoc]
              · have ordinary : isSpecial c = false := by
                  rw [isSpecial, Bool.or_eq_false_iff]
                  exact ⟨decide_eq_false isQuote, decide_eq_false isBackslash⟩
                rw [stringLoop_raw isRest ordinary] at parsed
                obtain ⟨pieces, bytes, legal, reads, decoded, rfl⟩ :=
                  induction _ shorter parsed rfl
                refine ⟨.raw c :: pieces, c :: bytes, ?_, readsByte.trans reads, ?_, ?_⟩
                · exact List.forall_mem_cons.mpr ⟨⟨isQuote, isBackslash⟩, legal⟩
                · rw [decode, decoded]
                  rfl
                · rw [List.append_assoc, List.singleton_append]

/-- A turn of the loop at a backslash. -/
theorem stringLoop_escape {text bytes : List UInt8} {middle : Cursor}
    (reads : Reads start (backslash :: text) middle)
    (isEscape : parseEscape out (start.advance 1) = .ok (out ++ bytes, middle)) :
    stringLoop simd (fuel + 1) out start = stringLoop simd fuel (out ++ bytes) middle := by
  rw [stringLoop_backslash reads.head, isEscape]
  rfl

/-- By induction on what the string means: a character, an escape or a surrogate pair comes
first. -/
theorem stringLoop_of_reads (pieces : List Piece) {bytes : List UInt8}
    (legal : ∀ piece ∈ pieces, piece.Legal)
    (reads : Reads start (body pieces ++ [quote]) reached) (decoded : decode pieces = some bytes)
    (enough : start.rest.length ≤ fuel) :
    stringLoop simd (fuel + 1) out start = .ok (out ++ bytes, reached) := by
  induction pieces using decode.induct generalizing fuel out start bytes with
  | case1 =>
      cases decoded
      rw [stringLoop_quote reads.head, reads.advance_one, List.append_nil]
  | case2 c rest induction =>
      obtain ⟨⟨notQuote, notBackslash⟩, legal⟩ := List.forall_mem_cons.mp legal
      rw [decode, Option.map_eq_some_iff] at decoded
      obtain ⟨others, decoded, rfl⟩ := decoded
      have readsRest : Reads start (c :: (body rest ++ [quote])) reached := reads
      have ordinary : isSpecial c = false := by
        rw [isSpecial, Bool.or_eq_false_iff]
        exact ⟨decide_eq_false notQuote, decide_eq_false notBackslash⟩
      have shorter := start.length_advance 1
      rw [stringLoop_raw readsRest.head ordinary,
        induction legal readsRest.cons decoded (by omega), List.append_assoc,
        List.singleton_append]
  | case3 letter rest induction =>
      obtain ⟨legalLetter, legal⟩ := List.forall_mem_cons.mp legal
      rw [decode, Option.map_eq_some_iff] at decoded
      obtain ⟨others, decoded, rfl⟩ := decoded
      have readsRest : Reads start ([backslash, letter] ++ (body rest ++ [quote])) reached := reads
      obtain ⟨middle, readsEscape, readsOthers⟩ := readsRest.parts
      have shorter := readsEscape.length
      have some' : 1 ≤ [backslash, letter].length := Nat.succ_pos _
      obtain ⟨less, rfl⟩ : ∃ less, fuel = less + 1 := ⟨fuel - 1, by omega⟩
      rw [stringLoop_escape readsEscape (parseEscape_short legalLetter readsEscape.cons out),
        induction legal readsOthers decoded (by omega), List.append_assoc]
  | case4 digits high low rest isLow induction =>
      obtain ⟨legalHigh, legal⟩ := List.forall_mem_cons.mp legal
      obtain ⟨legalLow, legal⟩ := List.forall_mem_cons.mp legal
      rw [decode, if_pos high, if_pos isLow, Option.map_eq_some_iff] at decoded
      obtain ⟨others, decoded, rfl⟩ := decoded
      have readsRest : Reads start ((Piece.text (.unicode digits) ++ Piece.text (.unicode low)) ++
          (body rest ++ [quote])) reached := by
        rw [body, List.flatMap_cons, List.flatMap_cons] at reads
        rw [body]
        simpa only [List.append_assoc] using reads
      obtain ⟨middle, readsEscape, readsOthers⟩ := readsRest.parts
      have shorter := readsEscape.length
      have some' : 1 ≤ (Piece.text (.unicode digits) ++ Piece.text (.unicode low)).length :=
        Nat.succ_pos _
      obtain ⟨less, rfl⟩ : ∃ less, fuel = less + 1 := ⟨fuel - 1, by omega⟩
      have isEscape : parseEscape out (start.advance 1) =
          .ok (out ++ encodeUtf8 (combined (unit digits) (unit low)), middle) := by
        rw [parseEscape_u readsEscape.cons]
        exact appendUnicode_ok.mpr (Or.inr
          ⟨digits, low, legalHigh, legalLow, readsEscape.cons.cons, high, isLow, rfl⟩)
      rw [stringLoop_escape readsEscape isEscape, induction legal readsOthers decoded (by omega),
        List.append_assoc]
  | case5 digits high low rest notLow =>
      rw [decode, if_pos high, if_neg notLow] at decoded
      cases decoded
  | case6 digits rest high notUnicode =>
      rw [decode.eq_def] at decoded
      dsimp only at decoded
      rw [if_pos high] at decoded
      split at decoded
      next low others => exact absurd rfl (notUnicode low others)
      next => cases decoded
  | case7 digits rest notHigh induction =>
      obtain ⟨legalUnit, legal⟩ := List.forall_mem_cons.mp legal
      rw [decode.eq_def] at decoded
      dsimp only at decoded
      rw [if_neg notHigh, Option.map_eq_some_iff] at decoded
      obtain ⟨others, decoded, rfl⟩ := decoded
      have readsRest : Reads start (Piece.text (.unicode digits) ++ (body rest ++ [quote])) reached := by
        rw [body, List.flatMap_cons, List.append_assoc] at reads
        exact reads
      obtain ⟨middle, readsEscape, readsOthers⟩ := readsRest.parts
      have shorter := readsEscape.length
      have some' : 1 ≤ (Piece.text (.unicode digits)).length := Nat.succ_pos _
      obtain ⟨less, rfl⟩ : ∃ less, fuel = less + 1 := ⟨fuel - 1, by omega⟩
      have isEscape : parseEscape out (start.advance 1) =
          .ok (out ++ encodeUtf8 (unit digits), middle) := by
        rw [parseEscape_u readsEscape.cons]
        exact appendUnicode_ok.mpr (Or.inl
          ⟨digits, legalUnit, readsEscape.cons.cons, by simpa using notHigh, rfl⟩)
      rw [stringLoop_escape readsEscape isEscape, induction legal readsOthers decoded (by omega),
        List.append_assoc]

end StringLoop

/-- A string is read exactly as the grammar has it. -/
theorem parseString_ok {simd : Bool} {bytes : List UInt8} (starts : peekIs cursor '\"' = true) :
    parseString simd cursor = .ok (bytes, reached) ↔
      ∃ literal : Literal, Reads cursor literal.text reached ∧ decode literal.pieces = some bytes := by
  have readsQuote := Reads.of_peekIs starts
  rw [parseString]
  constructor
  · intro parsed
    obtain ⟨pieces, others, legal, reads, decoded, rfl⟩ := of_stringLoop parsed
    exact ⟨⟨pieces, legal⟩, readsQuote.trans reads, decoded⟩
  · rintro ⟨literal, reads, decoded⟩
    have shorter := cursor.length_advance 1
    exact stringLoop_of_reads literal.pieces literal.legal reads.cons decoded (by omega)

end FoundationsLab.SimdJson
