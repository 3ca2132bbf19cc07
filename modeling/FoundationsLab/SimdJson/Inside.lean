import FoundationsLab.SimdJson.Agreement
import FoundationsLab.SimdJson.Pointers
import FoundationsLab.SimdJson.ReadValues

/-! # The parser stays inside its input

The parser on pointers follows the one on cursors step by step. It has no fault on the way:
no read at or past the end, and no move of `p_` backwards or past the end. -/

namespace FoundationsLab.SimdJson.Pointers

open Lanes

/-! ## One parser follows the other -/

/-- The cursor at an offset of the input. -/
def cursorAt (input : List UInt8) (p : Nat) : Cursor := ⟨input.drop p, p⟩

/-- The runs end alike: with related values, with an error inside the input, or without an end. -/
inductive Follows (input : List UInt8) {α β : Type} (related : α → β → Prop) :
    Run α → Parse β → Prop
  | ok {value : α} {value' : β} (same : related value value') : Follows input related (.ok value) (.ok value')
  | error (error : ParseError) (inside : error.position ≤ input.length) :
      Follows input related (.error (.error error)) (.error (.error error))
  | endless : Follows input related (.error (.fault .endless)) (.error .fuel)

/-- From offset `p` on, `p_` has come to `q`, which is where the cursor is. -/
structure Reached (input : List UInt8) (p q : Nat) (cursor : Cursor) : Prop where
  same : cursor = cursorAt input q
  forward : p ≤ q
  inside : q ≤ input.length

/-- A value, and how far `p_` has come. -/
structure ReachedWith {α : Type} (input : List UInt8) (p : Nat) (result : α × Nat)
    (result' : α × Cursor) : Prop where
  value : result'.1 = result.1
  reached : Reached input p result.2 result'.2

variable {input : List UInt8} {p q k : Nat} {cursor : Cursor}

section Follow

variable {α β γ δ : Type} {related related' : α → β → Prop} {run : Run α} {parse : Parse β}

theorem Follows.mono (follows : Follows input related run parse)
    (weaker : ∀ value value', related value value' → related' value value') :
    Follows input related' run parse := by
  cases follows with
  | ok same => exact .ok (weaker _ _ same)
  | error error inside => exact .error error inside
  | endless => exact .endless

theorem Follows.bind {final : γ → δ → Prop} {next : α → Run γ} {next' : β → Parse δ}
    (follows : Follows input related run parse)
    (rest : ∀ value value', related value value' → Follows input final (next value) (next' value')) :
    Follows input final (run >>= next) (parse >>= next') := by
  cases follows with
  | ok same => exact rest _ _ same
  | error error inside => exact .error error inside
  | endless => exact .endless

theorem Follows.fail (msg : String) (bound : p ≤ input.length) :
    Follows input related (fail msg p) (SimdJson.fail msg (cursorAt input p)) :=
  .error _ bound

theorem ReachedWith.from {result : α × Nat} {result' : α × Cursor} (forward : p ≤ q)
    (reached : ReachedWith input q result result') : ReachedWith input p result result' :=
  ⟨reached.value, reached.reached.same, Nat.le_trans forward reached.reached.forward,
    reached.reached.inside⟩

theorem Follows.from {run : Run (α × Nat)} {parse : Parse (α × Cursor)} (forward : p ≤ q)
    (follows : Follows input (ReachedWith input q) run parse) :
    Follows input (ReachedWith input p) run parse :=
  follows.mono fun _ _ => ReachedWith.from forward

theorem Follows.reached (value : α) (forward : p ≤ q) (bound : q ≤ input.length) :
    Follows input (ReachedWith input p) (.ok (value, q)) (.ok (value, cursorAt input q)) :=
  .ok ⟨rfl, rfl, forward, bound⟩

end Follow

/-! ## Accesses -/

theorem run_bind {α β : Type} (value : α) (next : α → Run β) :
    ((.ok value : Run α) >>= next) = next value := rfl

theorem cursorAt_advance (p k : Nat) : (cursorAt input p).advance k = cursorAt input (p + k) := by
  simp only [cursorAt, Cursor.advance, List.drop_drop]

theorem cursorAt_rest (inside : p < input.length) :
    (cursorAt input p).rest = input[p] :: (cursorAt input (p + 1)).rest :=
  List.drop_eq_getElem_cons inside

theorem cursorAt_end (outside : input.length ≤ p) : (cursorAt input p).rest = [] :=
  List.drop_eq_nil_of_le outside

theorem cursorAt_length (p : Nat) : (cursorAt input p).rest.length = input.length - p :=
  List.length_drop

theorem deref_ok (inside : p < input.length) : deref input p = .ok input[p] := by
  rw [deref, Checked.get, List.getElem?_eq_getElem inside]

theorem advance_ok (bound : p + k ≤ input.length) : advance input p k = .ok (p + k) :=
  if_pos ⟨Nat.le_add_right p k, bound⟩

theorem slice_ok (forward : p ≤ q) (bound : q ≤ input.length) :
    slice input p q = .ok ((cursorAt input p).rest.take ((cursorAt input q).position -
      (cursorAt input p).position)) :=
  if_pos ⟨forward, bound⟩

theorem peek_ok (p : Nat) (holds : UInt8 → Bool) :
    peek input p holds = .ok (SimdJson.peek (cursorAt input p) holds) := by
  by_cases inside : p < input.length
  · rw [peek, if_pos inside, deref_ok inside, peek_cons (cursorAt_rest inside)]
    rfl
  · rw [peek, if_neg inside, peek_nil (cursorAt_end (Nat.not_lt.mp inside))]
    rfl

theorem peekIs_ok (p : Nat) (c : Char) :
    peekIs input p c = .ok (SimdJson.peekIs (cursorAt input p) c) := peek_ok p _

/-- There is a byte where one was seen. -/
theorem lt_of_peek {holds : UInt8 → Bool} (seen : SimdJson.peek (cursorAt input p) holds = true) :
    p < input.length := by
  have some' := length_of_peek seen
  rw [cursorAt_length] at some'
  omega

/-! ## Scanning -/

theorem scanBytes_ok (stop : UInt8 → Bool) {fuel : Nat} (bound : p ≤ input.length)
    (enough : input.length - p < fuel) :
    ∃ q, scanBytes input stop fuel p = .ok q ∧
      Reached input p q (SimdJson.scanBytes stop (cursorAt input p)) := by
  induction fuel generalizing p with
  | zero => exact absurd enough (Nat.not_lt_zero _)
  | succ fuel induction =>
      by_cases inside : p < input.length
      · rw [scanBytes, if_pos inside, deref_ok inside, run_bind,
          scanBytes_cons stop (cursorAt_rest inside), cursorAt_advance]
        cases isStop : stop input[p] with
        | true => exact ⟨p, rfl, rfl, Nat.le_refl p, bound⟩
        | false =>
            rw [if_neg Bool.false_ne_true, if_neg Bool.false_ne_true, advance_ok (by omega), run_bind]
            obtain ⟨q, isQ, same, forward, inside⟩ := @induction (p + 1) (by omega) (by omega)
            exact ⟨q, isQ, same, by omega, inside⟩
      · rw [scanBytes, if_neg inside,
          scanBytes_nil stop (cursorAt_end (Nat.not_lt.mp inside))]
        exact ⟨p, rfl, rfl, Nat.le_refl p, bound⟩

/-- The loop over blocks ends inside the input, and before the end if it has found something. -/
theorem scanBlocks_ok {mask : List UInt8 → Nat} {stop : UInt8 → Bool}
    (marks : MarksStops mask stop) {fuel : Nat} (bound : p ≤ input.length)
    (enough : input.length - p < fuel) :
    ∃ q found, scanBlocks input mask fuel p = .ok (q, found) ∧
      SimdJson.scanBlocks mask (cursorAt input p) = (cursorAt input q, found) ∧ p ≤ q ∧
      q ≤ input.length ∧ (found = true → q < input.length) := by
  induction fuel generalizing p with
  | zero => exact absurd enough (Nat.not_lt_zero _)
  | succ fuel induction =>
      have isLong : 32 ≤ (cursorAt input p).rest.length ↔ p + 32 ≤ input.length := by
        rw [cursorAt_length]
        omega
      by_cases long : p + 32 ≤ input.length
      · have isBlock : loadBlock input p = .ok ((cursorAt input p).rest.take 32) := if_pos long
        have first := ctz_mask marks (isLong.mpr long)
        have none' := mask_eq_zero_iff marks (isLong.mpr long)
        rw [scanBlocks, if_pos long, isBlock, run_bind, SimdJson.scanBlocks, if_pos (isLong.mpr long)]
        dsimp only
        by_cases isFound : mask ((cursorAt input p).rest.take 32) ≠ 0
        · have early : ¬ 32 ≤ (cursorAt input p).rest.findIdx stop := fun late => isFound (none'.mpr late)
          rw [if_pos isFound, if_pos isFound, advance_ok (by omega), cursorAt_advance]
          exact ⟨_, true, rfl, rfl, by omega, by omega, fun _ => by omega⟩
        · rw [if_neg isFound, if_neg isFound, advance_ok long, run_bind, cursorAt_advance]
          obtain ⟨q, found, isQ, same, forward, inside, before⟩ :=
            @induction (p + 32) long (by omega)
          exact ⟨q, found, isQ, same, by omega, inside, before⟩
      · rw [scanBlocks, if_neg long, SimdJson.scanBlocks, if_neg (isLong.not.mpr long)]
        exact ⟨p, false, rfl, rfl, Nat.le_refl p, bound, fun isTrue => by cases isTrue⟩

theorem skipWs_ok (simd : Bool) (bound : p ≤ input.length) :
    ∃ q, skipWs input simd p = .ok q ∧
      Reached input p q (SimdJson.skipWs simd (cursorAt input p)) := by
  cases simd with
  | false => exact scanBytes_ok _ bound (by omega)
  | true =>
      obtain ⟨q, found, isQ, same, forward, inside, -⟩ :=
        @scanBlocks_ok input p _ _ nonWsMask_marks (input.length + 1) bound (by omega)
      rw [skipWs, if_pos rfl, isQ, run_bind, SimdJson.skipWs, if_pos rfl, same]
      cases found with
      | true => exact ⟨q, rfl, rfl, forward, inside⟩
      | false =>
          obtain ⟨r, isR, reached, further, inside⟩ :=
            @scanBytes_ok input q (fun c => !isWs c) (input.length + 1) inside (by omega)
          exact ⟨r, isR, reached, Nat.le_trans forward further, inside⟩

/-- What the scan for a quote or backslash returns; it is `0` at the end. -/
structure Scanned (input : List UInt8) (p q : Nat) (c : UInt8) (result : UInt8 × Cursor) : Prop where
  same : result = (c, cursorAt input q)
  forward : p ≤ q
  inside : q ≤ input.length
  before : c ≠ 0 → q < input.length

theorem scanToSpecial_ok (bound : p ≤ input.length) :
    ∃ c q, scanToSpecial input p = .ok (c, q) ∧
      Scanned input p q c ((SimdJson.scanBytes isSpecial (cursorAt input p)).rest.headD 0,
        SimdJson.scanBytes isSpecial (cursorAt input p)) := by
  obtain ⟨q, isQ, same, forward, inside⟩ :=
    @scanBytes_ok input p isSpecial (input.length + 1) bound (by omega)
  rw [scanToSpecial, isQ, run_bind, same]
  by_cases before : q < input.length
  · rw [if_pos before, deref_ok before, cursorAt_rest before]
    exact ⟨input[q], q, rfl, rfl, forward, inside, fun _ => before⟩
  · rw [if_neg before, cursorAt_end (Nat.not_lt.mp before)]
    exact ⟨0, q, rfl, rfl, forward, inside, fun nonzero => absurd rfl nonzero⟩

theorem scanToStringSpecial_ok (simd : Bool) (bound : p ≤ input.length) :
    ∃ c q, scanToStringSpecial input simd p = .ok (c, q) ∧
      Scanned input p q c (SimdJson.scanToStringSpecial simd (cursorAt input p)) := by
  cases simd with
  | false => exact scanToSpecial_ok bound
  | true =>
      obtain ⟨q, found, isQ, same, forward, inside, before⟩ :=
        @scanBlocks_ok input p _ _ specialMask_marks (input.length + 1) bound (by omega)
      rw [scanToStringSpecial, if_pos rfl, isQ, run_bind, SimdJson.scanToStringSpecial, if_pos rfl,
        same]
      cases found with
      | true =>
          have before := before rfl
          dsimp only
          rw [if_pos rfl, deref_ok before, cursorAt_rest before]
          exact ⟨input[q], q, rfl, rfl, forward, inside, fun _ => before⟩
      | false =>
          obtain ⟨c, r, isR, scanned⟩ := @scanToSpecial_ok input q inside
          exact ⟨c, r, isR, scanned.same, Nat.le_trans forward scanned.forward, scanned.inside,
            scanned.before⟩

/-! ## Strings -/

theorem readHexDigits_follows {count cp : Nat} (bound : p + count ≤ input.length) :
    Follows input (ReachedWith input p) (readHexDigits input count cp p)
      (SimdJson.readHexDigits count cp (cursorAt input p)) := by
  induction count generalizing p cp with
  | zero => exact .reached cp (Nat.le_refl p) bound
  | succ count induction =>
      rw [readHexDigits, deref_ok (by omega), run_bind, advance_ok (by omega), run_bind,
        SimdJson.readHexDigits, cursorAt_rest (by omega), List.headD_cons, cursorAt_advance]
      cases hexDigit input[p] with
      | some digit => exact (induction (by omega)).from (Nat.le_succ p)
      | none => exact .fail _ (by omega)

theorem readHex4_follows (bound : p ≤ input.length) :
    Follows input (ReachedWith input p) (readHex4 input p) (SimdJson.readHex4 (cursorAt input p)) := by
  rw [readHex4, SimdJson.readHex4, cursorAt_length]
  by_cases short : input.length - p < 4
  · rw [if_pos short, if_pos short]
    exact .fail _ bound
  · rw [if_neg short, if_neg short]
    exact readHexDigits_follows (by omega)

theorem startsUnicode_ok (p : Nat) : ∃ starts, startsUnicode input p = .ok starts ∧
    (starts = true → p + 2 ≤ input.length) ∧
    (starts = true ↔ (cursorAt input p).rest.take 2 = ['\\'.toUInt8, 'u'.toUInt8]) := by
  rw [startsUnicode]
  by_cases two : 2 ≤ input.length - p
  · rw [if_pos two, deref_ok (by omega), run_bind, cursorAt_rest (by omega),
      cursorAt_rest (by omega)]
    by_cases isBackslash : input[p] = '\\'.toUInt8
    · rw [if_pos isBackslash, deref_ok (by omega), run_bind]
      refine ⟨_, rfl, fun _ => by omega, ?_⟩
      simp [isBackslash]
    · rw [if_neg isBackslash]
      refine ⟨false, rfl, fun _ => by omega, ?_⟩
      simp [isBackslash]
  · rw [if_neg two]
    refine ⟨false, rfl, fun isTrue => absurd isTrue Bool.false_ne_true, ?_⟩
    refine iff_of_false Bool.false_ne_true fun isText => ?_
    have isLength := congrArg List.length isText
    rw [List.length_take, cursorAt_length] at isLength
    simp only [List.length_cons, List.length_nil] at isLength
    omega

theorem appendUnicode_follows (out : List UInt8) (bound : p ≤ input.length) :
    Follows input (ReachedWith input p) (appendUnicode input out p)
      (SimdJson.appendUnicode out (cursorAt input p)) := by
  rw [appendUnicode, SimdJson.appendUnicode]
  refine (readHex4_follows bound).bind fun result result' related => ?_
  obtain ⟨cp, q⟩ := result
  obtain ⟨cp', cursor⟩ := result'
  obtain ⟨isValue, isCursor, forward, inside⟩ := related
  dsimp only at isValue isCursor forward inside ⊢
  subst isValue isCursor
  by_cases high : 0xD800 ≤ cp' ∧ cp' ≤ 0xDBFF
  · rw [if_pos high, if_pos high]
    obtain ⟨starts, isStarts, room, isText⟩ := @startsUnicode_ok input q
    rw [isStarts, run_bind]
    by_cases isThere : starts = true
    · rw [if_pos isThere, if_pos (isText.mp isThere), advance_ok (room isThere), run_bind,
        cursorAt_advance]
      refine (readHex4_follows (room isThere)).bind fun result result' related => ?_
      obtain ⟨lo, r⟩ := result
      obtain ⟨lo', cursor⟩ := result'
      obtain ⟨isValue, isCursor, further, inside⟩ := related
      dsimp only at isValue isCursor further inside ⊢
      subst isValue isCursor
      by_cases low : 0xDC00 ≤ lo' ∧ lo' ≤ 0xDFFF
      · rw [if_pos low, if_pos low]
        exact .reached _ (by omega) inside
      · rw [if_neg low, if_neg low]
        exact .fail _ inside
    · rw [if_neg isThere, if_neg (fun isHere => isThere (isText.mpr isHere))]
      exact .fail _ inside
  · rw [if_neg high, if_neg high]
    exact .reached _ forward inside

theorem parseEscape_follows (out : List UInt8) (bound : p ≤ input.length) :
    Follows input (ReachedWith input p) (parseEscape input out p)
      (SimdJson.parseEscape out (cursorAt input p)) := by
  rw [parseEscape, SimdJson.parseEscape.eq_def]
  by_cases isEnd : input.length ≤ p
  · rw [if_pos isEnd, cursorAt_end isEnd]
    exact .fail _ bound
  · rw [if_neg isEnd, deref_ok (by omega), run_bind, advance_ok (by omega), run_bind,
      cursorAt_rest (by omega)]
    dsimp only
    rw [cursorAt_advance]
    cases simpleEscape input[p] with
    | some c => exact .reached _ (Nat.le_succ p) (by omega)
    | none =>
        by_cases isU : input[p] = 'u'.toUInt8
        · dsimp only
          rw [if_pos isU, if_pos isU]
          exact (appendUnicode_follows out (by omega)).from (Nat.le_succ p)
        · dsimp only
          rw [if_neg isU, if_neg isU]
          exact .fail _ (by omega)

theorem stringLoop_follows (simd : Bool) {fuel : Nat} (out : List UInt8) (bound : p ≤ input.length) :
    Follows input (ReachedWith input p) (stringLoop input simd fuel out p)
      (SimdJson.stringLoop simd fuel out (cursorAt input p)) := by
  induction fuel generalizing out p with
  | zero => exact .endless
  | succ fuel induction =>
      obtain ⟨c, q, isScan, same, forward, inside, before⟩ := @scanToStringSpecial_ok input p simd bound
      rw [stringLoop, isScan, run_bind, SimdJson.stringLoop, same]
      dsimp only
      rw [slice_ok forward inside, run_bind]
      by_cases isNone : c = 0
      · rw [if_pos isNone, if_pos isNone]
        exact .fail _ inside
      · have before := before isNone
        rw [if_neg isNone, if_neg isNone, advance_ok (by omega), cursorAt_advance]
        by_cases isQuote : c = '\"'.toUInt8
        · rw [if_pos isQuote, if_pos isQuote]
          exact .reached _ (by omega) (by omega)
        · rw [if_neg isQuote, if_neg isQuote, run_bind]
          refine (parseEscape_follows _ (by omega)).bind fun result result' related => ?_
          obtain ⟨out, r⟩ := result
          obtain ⟨out', cursor⟩ := result'
          obtain ⟨isValue, isCursor, further, inside⟩ := related
          dsimp only at isValue isCursor further inside ⊢
          subst isValue isCursor
          exact (induction out' inside).from (by omega)

/-- A string begins at a byte, its quote. -/
theorem parseString_follows (simd : Bool) (before : p < input.length) :
    Follows input (ReachedWith input p) (parseString input simd p)
      (SimdJson.parseString simd (cursorAt input p)) := by
  rw [parseString, advance_ok (by omega), run_bind, SimdJson.parseString, cursorAt_length,
    cursorAt_advance]
  exact (stringLoop_follows simd [] (by omega)).from (Nat.le_succ p)

/-! ## Literals and numbers -/

theorem parseLiteral_follows {α : Type} (v : α) (lit : List Char) (bound : p ≤ input.length) :
    Follows input (ReachedWith input p) (parseLiteral input v lit p)
      (SimdJson.parseLiteral v lit (cursorAt input p)) := by
  induction lit generalizing p with
  | nil => exact .reached v (Nat.le_refl p) bound
  | cons l lit induction =>
      rw [parseLiteral, peekIs_ok, run_bind, SimdJson.parseLiteral]
      by_cases same : SimdJson.peekIs (cursorAt input p) l = true
      · have before := lt_of_peek same
        rw [if_pos same, if_pos same, advance_ok (by omega), run_bind, cursorAt_advance]
        exact (induction (by omega)).from (Nat.le_succ p)
      · rw [if_neg same, if_neg same]
        exact .fail _ bound

/-- `p_` alone, without a value. -/
theorem skipDigits_follows (bound : q ≤ input.length) (forward : p ≤ q) :
    Follows input (Reached input p) (skipDigits input q)
      (.ok (SimdJson.skipDigits (cursorAt input q))) := by
  obtain ⟨r, isR, same, further, inside⟩ :=
    @scanBytes_ok input q (fun c => !isDigit c) (input.length + 1) bound (by omega)
  rw [skipDigits, isR]
  exact .ok ⟨same, Nat.le_trans forward further, inside⟩

/-- One character that may be there. -/
theorem skipIf_ok (holds : UInt8 → Bool) (bound : p ≤ input.length) :
    ∃ q, skipIf input p holds = .ok q ∧
      Reached input p q (if SimdJson.peek (cursorAt input p) holds then (cursorAt input p).advance 1
        else cursorAt input p) := by
  rw [skipIf, peek_ok, run_bind]
  by_cases seen : SimdJson.peek (cursorAt input p) holds = true
  · have before := lt_of_peek seen
    rw [if_pos seen, if_pos seen, advance_ok (by omega), cursorAt_advance]
    exact ⟨p + 1, rfl, rfl, Nat.le_succ p, by omega⟩
  · rw [if_neg seen, if_neg seen]
    exact ⟨p, rfl, rfl, Nat.le_refl p, bound⟩

theorem integerPart_follows (bound : p ≤ input.length) :
    Follows input (Reached input p) (integerPart input p)
      (SimdJson.integerPart (cursorAt input p)) := by
  obtain ⟨q, isQ, same, forward, inside⟩ := @skipIf_ok input p (· == '-'.toUInt8) bound
  have isCursor : (if SimdJson.peekIs (cursorAt input p) '-' then (cursorAt input p).advance 1
      else cursorAt input p) = cursorAt input q := same
  rw [integerPart, isQ, run_bind, peekIs_ok, run_bind, SimdJson.integerPart, isCursor]
  by_cases isZero : SimdJson.peekIs (cursorAt input q) '0' = true
  · have before := lt_of_peek isZero
    rw [if_pos isZero, if_pos isZero, advance_ok (by omega), cursorAt_advance]
    exact .ok ⟨rfl, by omega, by omega⟩
  · rw [if_neg isZero, if_neg isZero, peek_ok, run_bind]
    split
    · exact skipDigits_follows inside forward
    · exact .fail _ inside

theorem fractionPart_follows (bound : p ≤ input.length) :
    Follows input (Reached input p) (fractionPart input p)
      (SimdJson.fractionPart (cursorAt input p)) := by
  rw [fractionPart, peekIs_ok, run_bind, SimdJson.fractionPart]
  by_cases isPoint : SimdJson.peekIs (cursorAt input p) '.' = true
  · have before := lt_of_peek isPoint
    rw [if_pos isPoint, if_pos isPoint, advance_ok (by omega), run_bind, cursorAt_advance, peek_ok,
      run_bind]
    dsimp only
    split
    · exact skipDigits_follows (by omega) (Nat.le_succ p)
    · exact .fail _ (by omega)
  · rw [if_neg isPoint, if_neg isPoint]
    exact .ok ⟨rfl, Nat.le_refl p, bound⟩

/-- One look at two characters is as good as two looks. -/
theorem peek_or (cursor : Cursor) (c d : Char) :
    SimdJson.peek cursor (fun e => e == c.toUInt8 || e == d.toUInt8) =
      (SimdJson.peekIs cursor c || SimdJson.peekIs cursor d) := by
  cases isRest : cursor.rest with
  | nil => rw [SimdJson.peekIs, SimdJson.peekIs, peek_nil isRest, peek_nil isRest, peek_nil isRest,
      Bool.or_self]
  | cons e rest => rw [SimdJson.peekIs, SimdJson.peekIs, peek_cons isRest, peek_cons isRest, peek_cons isRest]

theorem exponentPart_follows (bound : p ≤ input.length) :
    Follows input (Reached input p) (exponentPart input p)
      (SimdJson.exponentPart (cursorAt input p)) := by
  rw [exponentPart, peek_ok, run_bind, peek_or, SimdJson.exponentPart]
  by_cases isMarker : (SimdJson.peekIs (cursorAt input p) 'e' ||
      SimdJson.peekIs (cursorAt input p) 'E') = true
  · have before : p < input.length := lt_of_peek ((peek_or _ 'e' 'E').trans isMarker)
    obtain ⟨q, isQ, same, forward, inside⟩ := @skipIf_ok input (p + 1)
      (fun c => c == '+'.toUInt8 || c == '-'.toUInt8) (by omega)
    rw [peek_or] at same
    rw [if_pos isMarker, if_pos isMarker, advance_ok (by omega), run_bind, isQ, run_bind, peek_ok,
      run_bind, cursorAt_advance]
    dsimp only
    rw [same]
    split
    · exact skipDigits_follows inside (by omega)
    · exact .fail _ inside
  · rw [if_neg isMarker, if_neg isMarker]
    exact .ok ⟨rfl, Nat.le_refl p, bound⟩

section Values

variable {Double : Type} (fromChars : List UInt8 → Option (Nat × Double))

theorem parseNumber_follows (bound : p ≤ input.length) :
    Follows input (ReachedWith input p) (parseNumber input fromChars p)
      (SimdJson.parseNumber fromChars (cursorAt input p)) := by
  rw [parseNumber, SimdJson.parseNumber]
  refine (integerPart_follows bound).bind fun q _ related => ?_
  obtain ⟨rfl, forward, inside⟩ := related
  refine (fractionPart_follows inside).bind fun r _ related => ?_
  obtain ⟨rfl, forward', inside⟩ := related
  refine (exponentPart_follows inside).bind fun s _ related => ?_
  obtain ⟨rfl, forward'', inside⟩ := related
  rw [slice_ok (by omega) inside, run_bind]
  dsimp only
  cases fromChars _ with
  | none => exact .fail _ inside
  | some result =>
      dsimp only
      split
      · exact .reached _ (by omega) inside
      · exact .fail _ inside

/-! ## Values -/

/-- How each of the functions follows its counterpart, for one depth of calls. -/
structure ValuesFollow (input : List UInt8) (simd : Bool) (fuel : Nat) : Prop where
  value : ∀ p, p ≤ input.length → Follows input (ReachedWith input p)
    (parseValue input fromChars simd fuel p)
    (SimdJson.parseValue fromChars simd fuel (cursorAt input p))
  object : ∀ p, p < input.length → Follows input (ReachedWith input p)
    (parseObject input fromChars simd fuel p)
    (SimdJson.parseObject fromChars simd fuel (cursorAt input p))
  members : ∀ members p, p ≤ input.length → Follows input (ReachedWith input p)
    (objectLoop input fromChars simd fuel members p)
    (SimdJson.objectLoop fromChars simd fuel members (cursorAt input p))
  array : ∀ p, p < input.length → Follows input (ReachedWith input p)
    (parseArray input fromChars simd fuel p)
    (SimdJson.parseArray fromChars simd fuel (cursorAt input p))
  elements : ∀ elements p, p ≤ input.length → Follows input (ReachedWith input p)
    (arrayLoop input fromChars simd fuel elements p)
    (SimdJson.arrayLoop fromChars simd fuel elements (cursorAt input p))

section Step

variable {fromChars} {simd : Bool} {fuel : Nat}

theorem parseValue_follows (follow : ValuesFollow fromChars input simd fuel)
    (bound : p ≤ input.length) :
    Follows input (ReachedWith input p) (parseValue input fromChars simd (fuel + 1) p)
      (SimdJson.parseValue fromChars simd (fuel + 1) (cursorAt input p)) := by
  rw [parseValue, SimdJson.parseValue]
  by_cases isEnd : input.length ≤ p
  · rw [if_pos isEnd, if_pos (cursorAt_end isEnd)]
    exact .fail _ bound
  · have before : p < input.length := Nat.not_le.mp isEnd
    have isRest := cursorAt_rest before
    rw [if_neg isEnd, if_neg (by rw [isRest]; exact List.cons_ne_nil _ _), deref_ok before, run_bind]
    simp only [peekIs_cons isRest, beq_iff_eq]
    split
    · exact follow.object p before
    split
    · exact follow.array p before
    split
    · refine (parseString_follows simd before).bind fun result result' related => ?_
      obtain ⟨string, q⟩ := result
      obtain ⟨string', cursor⟩ := result'
      obtain ⟨isValue, isCursor, forward, inside⟩ := related
      dsimp only at isValue isCursor forward inside ⊢
      subst isValue isCursor
      exact .reached _ forward inside
    split
    · exact parseLiteral_follows _ _ bound
    split
    · exact parseLiteral_follows _ _ bound
    split
    · exact parseLiteral_follows _ _ bound
    · exact parseNumber_follows fromChars bound

theorem parseObject_follows (follow : ValuesFollow fromChars input simd fuel)
    (before : p < input.length) :
    Follows input (ReachedWith input p) (parseObject input fromChars simd (fuel + 1) p)
      (SimdJson.parseObject fromChars simd (fuel + 1) (cursorAt input p)) := by
  obtain ⟨q, isQ, same, forward, inside⟩ := @skipWs_ok input (p + 1) simd before
  rw [parseObject, SimdJson.parseObject, advance_ok before, run_bind, cursorAt_advance, isQ, run_bind,
    same, peekIs_ok, run_bind]
  by_cases isEmpty : SimdJson.peekIs (cursorAt input q) '\x7d' = true
  · have before := lt_of_peek isEmpty
    rw [if_pos isEmpty, if_pos isEmpty, advance_ok (by omega), run_bind, cursorAt_advance]
    exact .reached _ (by omega) (by omega)
  · rw [if_neg isEmpty, if_neg isEmpty]
    exact (follow.members [] q inside).from (by omega)

theorem parseArray_follows (follow : ValuesFollow fromChars input simd fuel)
    (before : p < input.length) :
    Follows input (ReachedWith input p) (parseArray input fromChars simd (fuel + 1) p)
      (SimdJson.parseArray fromChars simd (fuel + 1) (cursorAt input p)) := by
  obtain ⟨q, isQ, same, forward, inside⟩ := @skipWs_ok input (p + 1) simd before
  rw [parseArray, SimdJson.parseArray, advance_ok before, run_bind, cursorAt_advance, isQ, run_bind,
    same, peekIs_ok, run_bind]
  by_cases isEmpty : SimdJson.peekIs (cursorAt input q) ']' = true
  · have before := lt_of_peek isEmpty
    rw [if_pos isEmpty, if_pos isEmpty, advance_ok (by omega), run_bind, cursorAt_advance]
    exact .reached _ (by omega) (by omega)
  · rw [if_neg isEmpty, if_neg isEmpty]
    exact (follow.elements [] q inside).from (by omega)

theorem arrayLoop_follows (follow : ValuesFollow fromChars input simd fuel)
    (elements : List (Value Double)) (bound : p ≤ input.length) :
    Follows input (ReachedWith input p) (arrayLoop input fromChars simd (fuel + 1) elements p)
      (SimdJson.arrayLoop fromChars simd (fuel + 1) elements (cursorAt input p)) := by
  obtain ⟨q, isQ, same, forward, inside⟩ := @skipWs_ok input p simd bound
  rw [arrayLoop, SimdJson.arrayLoop, isQ, run_bind, same]
  refine (follow.value q inside).bind fun result result' related => ?_
  obtain ⟨v, r⟩ := result
  obtain ⟨v', cursor⟩ := result'
  obtain ⟨isValue, isCursor, forward', inside⟩ := related
  dsimp only at isValue isCursor forward' inside ⊢
  subst isValue isCursor
  obtain ⟨s, isS, same, forward'', inside⟩ := @skipWs_ok input r simd inside
  rw [isS, run_bind, same]
  by_cases isEnd : input.length ≤ s
  · rw [if_pos isEnd, if_pos (cursorAt_end isEnd)]
    exact .fail _ inside
  · have before : s < input.length := Nat.not_le.mp isEnd
    have isRest := cursorAt_rest before
    rw [if_neg isEnd, if_neg (by rw [isRest]; exact List.cons_ne_nil _ _), deref_ok before, run_bind,
      advance_ok before, cursorAt_advance]
    simp only [peekIs_cons isRest, beq_iff_eq]
    split
    · exact (follow.elements _ (s + 1) before).from (by omega)
    split
    · exact .reached _ (by omega) before
    · exact .fail _ inside

theorem objectLoop_follows (follow : ValuesFollow fromChars input simd fuel)
    (members : List (List UInt8 × Value Double)) (bound : p ≤ input.length) :
    Follows input (ReachedWith input p) (objectLoop input fromChars simd (fuel + 1) members p)
      (SimdJson.objectLoop fromChars simd (fuel + 1) members (cursorAt input p)) := by
  obtain ⟨q, isQ, same, forward, inside⟩ := @skipWs_ok input p simd bound
  rw [objectLoop, SimdJson.objectLoop, isQ, run_bind, same, peekIs_ok, run_bind]
  by_cases isKey : SimdJson.peekIs (cursorAt input q) '\"' = true
  · rw [isKey, if_neg (by decide), if_neg (by decide)]
    refine (parseString_follows simd (lt_of_peek isKey)).bind
      fun result result' related => ?_
    obtain ⟨key, r⟩ := result
    obtain ⟨key', cursor⟩ := result'
    obtain ⟨isValue, isCursor, forward', inside⟩ := related
    dsimp only at isValue isCursor forward' inside ⊢
    subst isValue isCursor
    obtain ⟨s, isS, same, forward'', inside⟩ := @skipWs_ok input r simd inside
    rw [isS, run_bind, same, peekIs_ok, run_bind]
    by_cases isColon : SimdJson.peekIs (cursorAt input s) ':' = true
    · have before : s < input.length := lt_of_peek isColon
      obtain ⟨t, isT, same, further, inside⟩ := @skipWs_ok input (s + 1) simd before
      rw [isColon, if_neg (by decide), if_neg (by decide), advance_ok before, run_bind,
        cursorAt_advance, isT, run_bind, same]
      refine (follow.value t inside).bind fun result result' related => ?_
      obtain ⟨v, u⟩ := result
      obtain ⟨v', cursor⟩ := result'
      obtain ⟨isValue, isCursor, further', inside⟩ := related
      dsimp only at isValue isCursor further' inside ⊢
      subst isValue isCursor
      obtain ⟨w, isW, same, further'', inside⟩ := @skipWs_ok input u simd inside
      rw [isW, run_bind, same]
      by_cases isEnd : input.length ≤ w
      · rw [if_pos isEnd, if_pos (cursorAt_end isEnd)]
        exact .fail _ inside
      · have before : w < input.length := Nat.not_le.mp isEnd
        have isRest := cursorAt_rest before
        rw [if_neg isEnd, if_neg (by rw [isRest]; exact List.cons_ne_nil _ _), deref_ok before,
          run_bind, advance_ok before, cursorAt_advance]
        simp only [peekIs_cons isRest, beq_iff_eq]
        split
        · exact (follow.members _ (w + 1) before).from (by omega)
        split
        · exact .reached _ (by omega) before
        · exact .fail _ inside
    · have noColon : SimdJson.peekIs (cursorAt input s) ':' = false := Bool.eq_false_iff.mpr isColon
      rw [noColon]
      exact .fail _ inside
  · have noKey : SimdJson.peekIs (cursorAt input q) '\"' = false := Bool.eq_false_iff.mpr isKey
    rw [noKey]
    exact .fail _ inside

end Step

theorem values_follow (simd : Bool) (fuel : Nat) : ValuesFollow fromChars input simd fuel := by
  induction fuel with
  | zero =>
      constructor
      · intro p _
        rw [parseValue, SimdJson.parseValue]
        exact .endless
      · intro p _
        rw [parseObject, SimdJson.parseObject]
        exact .endless
      · intro members p _
        rw [objectLoop, SimdJson.objectLoop]
        exact .endless
      · intro p _
        rw [parseArray, SimdJson.parseArray]
        exact .endless
      · intro elements p _
        rw [arrayLoop, SimdJson.arrayLoop]
        exact .endless
  | succ fuel induction =>
      constructor
      · intro p bound
        exact parseValue_follows induction bound
      · intro p before
        exact parseObject_follows induction before
      · intro members p bound
        exact objectLoop_follows induction members bound
      · intro p before
        exact parseArray_follows induction before
      · intro elements p bound
        exact arrayLoop_follows induction elements bound

theorem parse_follows (input : List UInt8) (simd : Bool) :
    Follows input Eq (parse input fromChars simd) (SimdJson.parse fromChars input simd) := by
  obtain ⟨q, isQ, same, -, inside⟩ := @skipWs_ok input 0 simd (Nat.zero_le _)
  have isStart : SimdJson.skipWs simd ⟨input, 0⟩ = cursorAt input q := same
  rw [parse, SimdJson.parse, isQ, run_bind, isStart]
  refine ((values_follow fromChars simd _).value q inside).bind fun result result' related => ?_
  obtain ⟨v, r⟩ := result
  obtain ⟨v', cursor⟩ := result'
  obtain ⟨isValue, isCursor, -, inside⟩ := related
  dsimp only at isValue isCursor inside ⊢
  subst isValue isCursor
  obtain ⟨s, isS, same, -, inside⟩ := @skipWs_ok input r simd inside
  rw [isS, run_bind, same]
  by_cases isEnd : s = input.length
  · rw [if_neg (not_not.mpr isEnd), if_pos (cursorAt_end (Nat.le_of_eq isEnd.symm))]
    exact .ok rfl
  · have isRest := cursorAt_rest (by omega : s < input.length)
    rw [if_pos isEnd, if_neg (by rw [isRest]; exact List.cons_ne_nil _ _)]
    exact .fail _ inside

/-- For every byte string and on either path the parser ends without a fault: `p_` only
moves forward and not past the end, and nothing at or past the end is read. It returns what
the parser on cursors does, and a `ParseError` has a position inside the input. -/
theorem parse_stays_inside (input : List UInt8) (simd : Bool) :
    (∃ v, parse input fromChars simd = .ok v ∧ SimdJson.parse fromChars input simd = .ok v) ∨
      ∃ error : ParseError, error.position ≤ input.length ∧
        parse input fromChars simd = .error (.error error) ∧
        SimdJson.parse fromChars input simd = .error (.error error) := by
  have follows := parse_follows fromChars input simd
  have ends := parse_ends fromChars simd input
  generalize parse input fromChars simd = run at follows ⊢
  generalize SimdJson.parse fromChars input simd = result at follows ends ⊢
  cases follows with
  | ok same => exact .inl ⟨_, rfl, congrArg Except.ok same.symm⟩
  | error error inside => exact .inr ⟨error, inside, rfl, rfl⟩
  | endless => exact absurd rfl ends

end Values

end FoundationsLab.SimdJson.Pointers
