import FoundationsLab.SimdJson.Parser

/-! # Both paths parse alike

The flag only selects the scanning loops, which leave the cursor at the same byte. And
the parser always comes to an end: it is never deeper than the input allows. -/

namespace FoundationsLab.SimdJson

/-! ## The flag makes no difference -/

theorem skipWs_agree (simd : Bool) : skipWs simd = skipWs false :=
  funext fun cursor => by rw [skipWs_eq, skipWs_eq]

theorem scanToStringSpecial_agree (simd : Bool) :
    scanToStringSpecial simd = scanToStringSpecial false :=
  funext fun cursor => by rw [scanToStringSpecial_eq, scanToStringSpecial_eq]

theorem stringLoop_agree (simd : Bool) (fuel : Nat) (out : List UInt8) (cursor : Cursor) :
    stringLoop simd fuel out cursor = stringLoop false fuel out cursor := by
  induction fuel generalizing out cursor with
  | zero => rfl
  | succ fuel induction => simp only [stringLoop, scanToStringSpecial_agree simd, induction]

theorem parseString_agree (simd : Bool) : parseString simd = parseString false :=
  funext fun _ => stringLoop_agree simd _ _ _

section Agreement

variable {Double : Type} (fromChars : List UInt8 → Option (Nat × Double))

theorem parseValue_agree (simd : Bool) (fuel : Nat) :
    parseValue fromChars simd fuel = parseValue fromChars false fuel ∧
      parseObject fromChars simd fuel = parseObject fromChars false fuel ∧
      objectLoop fromChars simd fuel = objectLoop fromChars false fuel ∧
      parseArray fromChars simd fuel = parseArray fromChars false fuel ∧
      arrayLoop fromChars simd fuel = arrayLoop fromChars false fuel := by
  induction fuel with
  | zero => exact ⟨rfl, rfl, rfl, rfl, rfl⟩
  | succ fuel induction =>
      obtain ⟨value, object, members, array, elements⟩ := induction
      refine ⟨funext fun cursor => ?_, funext fun cursor => ?_, funext₂ fun _ cursor => ?_,
        funext fun cursor => ?_, funext₂ fun _ cursor => ?_⟩
      · rw [parseValue, parseValue, object, array, parseString_agree simd]
      · rw [parseObject, parseObject, members, skipWs_agree simd]
      · rw [objectLoop, objectLoop, value, members, parseString_agree simd, skipWs_agree simd]
      · rw [parseArray, parseArray, elements, skipWs_agree simd]
      · rw [arrayLoop, arrayLoop, value, elements, skipWs_agree simd]

theorem parse_agree (simd : Bool) (input : List UInt8) :
    parse fromChars input simd = parse fromChars input false := by
  rw [parse, parse, (parseValue_agree fromChars simd _).1, skipWs_agree simd]

end Agreement

/-! ## The parser comes to an end -/

/-- A parser that ends, with at most this many bytes left when it succeeds. -/
def Ends {α : Type} (reached : α → Cursor) (left : Nat) : Parse α → Prop
  | .ok value => (reached value).rest.length ≤ left
  | .error (.error _) => True
  | .error .fuel => False

section Ends

variable {α β : Type} {reached : α → Cursor} {reached' : β → Cursor} {left left' : Nat}

theorem Ends.mono {result : Parse α} (ends : Ends reached left result) (less : left ≤ left') :
    Ends reached left' result := by
  cases result with
  | error stop => cases stop <;> exact ends
  | ok value => exact Nat.le_trans ends less

theorem Ends.bind {result : Parse α} {next : α → Parse β} (ends : Ends reached left result)
    (rest : ∀ value, (reached value).rest.length ≤ left → Ends reached' left' (next value)) :
    Ends reached' left' (result >>= next) := by
  cases result with
  | error stop =>
      cases stop with
      | error _ => trivial
      | fuel => exact ends.elim
  | ok value => exact rest value ends

theorem Ends.fail (msg : String) (cursor : Cursor) :
    Ends reached left (fail msg cursor : Parse α) := trivial

end Ends

/-! ### Scanning never goes back -/

theorem length_advance_le (cursor : Cursor) (n : Nat) :
    (cursor.advance n).rest.length ≤ cursor.rest.length := by
  rw [Cursor.length_advance]
  omega

theorem length_scanBytes (stop : UInt8 → Bool) (cursor : Cursor) :
    (scanBytes stop cursor).rest.length ≤ cursor.rest.length := by
  rw [scanBytes_eq]
  exact length_advance_le _ _

theorem length_skipWs (simd : Bool) (cursor : Cursor) :
    (skipWs simd cursor).rest.length ≤ cursor.rest.length := by
  rw [skipWs_eq]
  exact length_scanBytes _ _

/-- There is a byte where one was seen. -/
theorem length_of_peek {cursor : Cursor} {holds : UInt8 → Bool} (seen : peek cursor holds = true) :
    1 ≤ cursor.rest.length := by
  rw [peek] at seen
  split at seen
  · rename_i isCons
    rw [isCons]
    exact Nat.succ_pos _
  · cases seen

/-! ### Strings -/

theorem readHexDigits_ends (count cp : Nat) (cursor : Cursor) :
    Ends Prod.snd cursor.rest.length (readHexDigits count cp cursor) := by
  induction count generalizing cp cursor with
  | zero => exact Nat.le_refl _
  | succ count induction =>
      rw [readHexDigits]
      split
      · exact (induction _ _).mono (length_advance_le cursor 1)
      · exact .fail ..

theorem readHex4_ends (cursor : Cursor) :
    Ends Prod.snd cursor.rest.length (readHex4 cursor) := by
  rw [readHex4]
  split
  · exact .fail ..
  · exact readHexDigits_ends ..

theorem appendUnicode_ends (out : List UInt8) (cursor : Cursor) :
    Ends Prod.snd cursor.rest.length (appendUnicode out cursor) := by
  rw [appendUnicode]
  refine (readHex4_ends cursor).bind fun (cp, after) shorter => ?_
  dsimp only at shorter ⊢
  split
  · split
    · refine (readHex4_ends _).bind fun (lo, last) shortest => ?_
      have bound := length_advance_le after 2
      dsimp only at shortest ⊢
      split
      · exact Nat.le_trans shortest (Nat.le_trans bound shorter)
      · exact .fail ..
    · exact .fail ..
  · exact shorter

theorem parseEscape_ends (out : List UInt8) (cursor : Cursor) :
    Ends Prod.snd cursor.rest.length (parseEscape out cursor) := by
  have bound := length_advance_le cursor 1
  rw [parseEscape]
  split
  · exact .fail ..
  · dsimp only
    split
    · exact bound
    · split
      · exact (appendUnicode_ends _ _).mono bound
      · exact .fail ..

/-- Every turn of the loop but the last takes a backslash. -/
theorem stringLoop_ends (simd : Bool) (fuel : Nat) (out : List UInt8) (start : Cursor)
    (enough : start.rest.length < fuel) :
    Ends Prod.snd start.rest.length (stringLoop simd fuel out start) := by
  induction fuel generalizing out start with
  | zero => exact absurd enough (Nat.not_lt_zero _)
  | succ fuel induction =>
      rw [stringLoop, scanToStringSpecial_eq]
      have shorter := length_scanBytes isSpecial start
      generalize scanBytes isSpecial start = cursor at shorter ⊢
      dsimp only
      split
      · exact .fail ..
      · rename_i notEnd
        split
        · exact Nat.le_trans (length_advance_le cursor 1) shorter
        · have some' : 1 ≤ cursor.rest.length := by
            refine List.length_pos_iff.mpr fun isNil => notEnd ?_
            rw [isNil]
            rfl
          have less := cursor.length_advance 1
          refine (parseEscape_ends _ _).bind fun (out, next) shortest => ?_
          dsimp only at shortest
          exact (induction out next (by omega)).mono (by omega)

theorem parseString_ends (simd : Bool) (cursor : Cursor) :
    Ends Prod.snd (cursor.rest.length - 1) (parseString simd cursor) := by
  have less := cursor.length_advance 1
  exact (stringLoop_ends simd _ [] (cursor.advance 1) (by omega)).mono (Nat.le_of_eq less)

/-! ### Literals and numbers -/

theorem parseLiteral_ends {α : Type} (v : α) (lit : List Char) (cursor : Cursor) :
    Ends Prod.snd cursor.rest.length (parseLiteral v lit cursor) := by
  induction lit generalizing cursor with
  | nil => exact Nat.le_refl _
  | cons l lit induction =>
      rw [parseLiteral]
      split
      · exact (induction _).mono (length_advance_le cursor 1)
      · exact .fail ..

/-- A character that may be there or not. -/
theorem length_ite_advance (c : Bool) (cursor : Cursor) :
    (if c then cursor.advance 1 else cursor).rest.length ≤ cursor.rest.length := by
  split
  · exact length_advance_le cursor 1
  · exact Nat.le_refl _

theorem integerPart_ends (cursor : Cursor) :
    Ends id cursor.rest.length (integerPart cursor) := by
  rw [integerPart]
  have bound := length_ite_advance (peekIs cursor '-') cursor
  generalize (if peekIs cursor '-' then cursor.advance 1 else cursor) = next at bound ⊢
  split
  · exact Nat.le_trans (length_advance_le next 1) bound
  · split
    · exact Nat.le_trans (length_scanBytes _ next) bound
    · exact .fail ..

theorem fractionPart_ends (cursor : Cursor) :
    Ends id cursor.rest.length (fractionPart cursor) := by
  rw [fractionPart]
  split
  · dsimp only
    split
    · exact Nat.le_trans (length_scanBytes _ _) (length_advance_le cursor 1)
    · exact .fail ..
  · exact Nat.le_refl _

theorem exponentPart_ends (cursor : Cursor) :
    Ends id cursor.rest.length (exponentPart cursor) := by
  rw [exponentPart]
  split
  · have bound := length_ite_advance
      (peekIs (cursor.advance 1) '+' || peekIs (cursor.advance 1) '-') (cursor.advance 1)
    dsimp only
    generalize (if peekIs (cursor.advance 1) '+' || peekIs (cursor.advance 1) '-' then
      (cursor.advance 1).advance 1 else cursor.advance 1) = next at bound ⊢
    split
    · exact Nat.le_trans (length_scanBytes _ _) (Nat.le_trans bound (length_advance_le cursor 1))
    · exact .fail ..
  · exact Nat.le_refl _

section Values

variable {Double : Type} (fromChars : List UInt8 → Option (Nat × Double))

theorem parseNumber_ends (cursor : Cursor) :
    Ends Prod.snd cursor.rest.length (parseNumber fromChars cursor) := by
  rw [parseNumber]
  refine (integerPart_ends cursor).bind fun integer first => ?_
  refine (fractionPart_ends integer).bind fun fraction second => ?_
  refine (exponentPart_ends fraction).bind fun exponent third => ?_
  dsimp only
  split
  · split
    · exact Nat.le_trans third (Nat.le_trans second first)
    · exact .fail ..
  · exact .fail ..

/-! ### Values -/

/-- The fuel that is enough, by the bytes that are left: a value may enter a container
without reading, a container reads its bracket, and a loop enters a value without
reading. -/
theorem values_end (simd : Bool) (fuel : Nat) :
    (∀ cursor, 3 * cursor.rest.length + 1 ≤ fuel →
        Ends Prod.snd cursor.rest.length (parseValue fromChars simd fuel cursor)) ∧
      (∀ cursor, 1 ≤ cursor.rest.length → 3 * cursor.rest.length ≤ fuel →
        Ends Prod.snd cursor.rest.length (parseObject fromChars simd fuel cursor)) ∧
      (∀ members cursor, 3 * cursor.rest.length + 2 ≤ fuel →
        Ends Prod.snd cursor.rest.length (objectLoop fromChars simd fuel members cursor)) ∧
      (∀ cursor, 1 ≤ cursor.rest.length → 3 * cursor.rest.length ≤ fuel →
        Ends Prod.snd cursor.rest.length (parseArray fromChars simd fuel cursor)) ∧
      (∀ elements cursor, 3 * cursor.rest.length + 2 ≤ fuel →
        Ends Prod.snd cursor.rest.length (arrayLoop fromChars simd fuel elements cursor)) := by
  induction fuel with
  | zero =>
      refine ⟨fun _ enough => ?_, fun _ some' enough => ?_, fun _ _ enough => ?_,
        fun _ some' enough => ?_, fun _ _ enough => ?_⟩
      · omega
      · omega
      · omega
      · omega
      · omega
  | succ fuel induction =>
      obtain ⟨value, object, members, array, elements⟩ := induction
      refine ⟨fun cursor enough => ?_, fun cursor some' enough => ?_, fun _ cursor enough => ?_,
        fun cursor some' enough => ?_, fun _ cursor enough => ?_⟩
      · rw [parseValue]
        split
        · exact .fail ..
        · rename_i notEnd
          have some' : 1 ≤ cursor.rest.length := List.length_pos_iff.mpr notEnd
          split
          · exact object cursor some' (by omega)
          split
          · exact array cursor some' (by omega)
          split
          · refine (parseString_ends simd cursor).bind fun (string, next) shorter => ?_
            exact Nat.le_trans shorter (Nat.sub_le ..)
          split
          · exact parseLiteral_ends ..
          split
          · exact parseLiteral_ends ..
          split
          · exact parseLiteral_ends ..
          · exact parseNumber_ends ..
      · rw [parseObject]
        have bound := length_skipWs simd (cursor.advance 1)
        have less := cursor.length_advance 1
        generalize skipWs simd (cursor.advance 1) = next at bound ⊢
        split
        · exact Nat.le_trans (length_advance_le next 1) (by omega)
        · exact (members [] next (by omega)).mono (by omega)
      · rw [objectLoop]
        have bound := length_skipWs simd cursor
        generalize skipWs simd cursor = start at bound ⊢
        dsimp only
        split
        · exact .fail ..
        · rename_i isQuote
          have seen : peekIs start '\"' = true := by simpa using isQuote
          have some' := length_of_peek seen
          refine (parseString_ends simd start).bind fun (key, after) shorter => ?_
          dsimp only at shorter ⊢
          have bound' := length_skipWs simd after
          generalize skipWs simd after = colon at bound' ⊢
          split
          · exact .fail ..
          · have bound'' := length_skipWs simd (colon.advance 1)
            have less := length_advance_le colon 1
            refine (value _ (by omega)).bind fun (v, end') shortest => ?_
            dsimp only at shortest ⊢
            have last := length_skipWs simd end'
            generalize skipWs simd end' = close at last ⊢
            have next := length_advance_le close 1
            split
            · exact .fail ..
            split
            · exact (members _ (close.advance 1) (by omega)).mono (by omega)
            split
            · exact Nat.le_trans next (by omega)
            · exact .fail ..
      · rw [parseArray]
        have bound := length_skipWs simd (cursor.advance 1)
        have less := cursor.length_advance 1
        generalize skipWs simd (cursor.advance 1) = next at bound ⊢
        split
        · exact Nat.le_trans (length_advance_le next 1) (by omega)
        · exact (elements [] next (by omega)).mono (by omega)
      · rw [arrayLoop]
        have bound := length_skipWs simd cursor
        generalize skipWs simd cursor = start at bound ⊢
        refine (value start (by omega)).bind fun (v, after) shorter => ?_
        dsimp only at shorter ⊢
        have last := length_skipWs simd after
        generalize skipWs simd after = close at last ⊢
        have less := close.length_advance 1
        split
        · exact .fail ..
        split
        · rename_i isComma
          have some' := length_of_peek isComma
          exact (elements _ (close.advance 1) (by omega)).mono (by omega)
        split
        · exact Nat.le_trans (length_advance_le close 1) (by omega)
        · exact .fail ..

theorem parse_ends (simd : Bool) (input : List UInt8) :
    parse fromChars input simd ≠ .error .fuel := by
  intro isFuel
  have bound := length_skipWs simd { rest := input, position := 0 }
  have ends := (values_end fromChars simd (3 * input.length + 1)).1
    (skipWs simd { rest := input, position := 0 }) (by dsimp only at bound; omega)
  rw [parse] at isFuel
  dsimp only at isFuel
  generalize parseValue fromChars simd (3 * input.length + 1)
    (skipWs simd { rest := input, position := 0 }) = result at ends isFuel
  cases result with
  | error stop =>
      cases stop with
      | error _ => cases isFuel
      | fuel => exact ends
  | ok pair =>
      change (if (skipWs simd pair.2).rest = [] then _ else _) = _ at isFuel
      split at isFuel
      · cases isFuel
      · cases isFuel

/-- On every byte string the AVX2 path and the scalar path of the parser have the same
outcome, which is a value or an error with its message and position. -/
theorem simd_eq_scalar (input : List UInt8) :
    parse fromChars input true = parse fromChars input false ∧
      parse fromChars input false ≠ .error .fuel :=
  ⟨parse_agree fromChars true input, parse_ends fromChars false input⟩

end Values

end FoundationsLab.SimdJson
