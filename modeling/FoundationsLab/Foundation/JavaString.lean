import FoundationsLab.Foundation.Bytes
import Mathlib.Data.List.Lex
import Mathlib.Order.Fin.Basic

/-! # Java strings

A string is a list of UTF-16 code units, compared by its units in order.
`getBytes` and `newString` are the conversions to and from UTF-8: an unpaired
surrogate is written as `?`, and bytes that are not UTF-8 are read as U+FFFD. -/

namespace FoundationsLab.Foundation

instance codeUnits_neZero : NeZero (2 ^ 16) := ⟨by decide⟩

abbrev CodeUnit := Fin (2 ^ 16)

abbrev JavaString := List CodeUnit

namespace JavaString

def ofAscii (text : List Char) : JavaString := text.map fun letter => Fin.ofNat (2 ^ 16) letter.toNat

/-! ## Writing -/

def isHighSurrogate (u : Nat) : Bool := u / 0x400 = 0x36
def isLowSurrogate (u : Nat) : Bool := u / 0x400 = 0x37
def isSurrogate (u : Nat) : Bool := u / 0x800 = 0x1B

/-- A code unit that is not part of a surrogate pair. -/
def encodeUnit (u : Nat) : Bytes :=
  if u < 0x80 then [UInt8.ofNat u]
  else if u < 0x800 then [UInt8.ofNat (0xC0 + u / 0x40), UInt8.ofNat (0x80 + u % 0x40)]
  else if isSurrogate u then [0x3F]
  else [UInt8.ofNat (0xE0 + u / 0x1000), UInt8.ofNat (0x80 + u / 0x40 % 0x40),
    UInt8.ofNat (0x80 + u % 0x40)]

/-- The code point that a surrogate pair stands for. -/
def codePoint (high low : Nat) : Nat := 0x10000 + high % 0x400 * 0x400 + low % 0x400

def encodePair (high low : Nat) : Bytes :=
  let point := codePoint high low
  [UInt8.ofNat (0xF0 + point / 0x40000), UInt8.ofNat (0x80 + point / 0x1000 % 0x40),
    UInt8.ofNat (0x80 + point / 0x40 % 0x40), UInt8.ofNat (0x80 + point % 0x40)]

def getBytes : JavaString → Bytes
  | [] => []
  | [u] => encodeUnit u
  | u :: v :: rest =>
      if isHighSurrogate u ∧ isLowSurrogate v then encodePair u v ++ getBytes rest
      else encodeUnit u ++ getBytes (v :: rest)

/-! ## Reading -/

def replacement : CodeUnit := Fin.ofNat (2 ^ 16) 0xFFFD

def continues (b : Nat) : Bool := b / 0x40 = 2

/-- The second byte cannot follow the first one of three. -/
def malformed3 (b₁ b₂ : Nat) : Bool := (b₁ = 0xE0 && b₂ / 0x20 = 4) || !continues b₂

/-- The second byte cannot follow the first one of four. -/
def malformed4 (b₁ b₂ : Nat) : Bool :=
  0xF4 < b₁ || (b₁ = 0xF0 && b₂ < 0x90) || (b₁ = 0xF4 && b₂ / 0x10 ≠ 8) || !continues b₂

def decodeTwo (b₁ : Nat) : List Nat → JavaString × Nat
  | [] => ([replacement], 1)
  | b₂ :: _ =>
      if continues b₂ then ([Fin.ofNat _ (b₁ % 0x20 * 0x40 + b₂ % 0x40)], 2)
      else ([replacement], 1)

def decodeThree (b₁ : Nat) : List Nat → JavaString × Nat
  | [] => ([replacement], 1)
  | [b₂] => ([replacement], if malformed3 b₁ b₂ then 1 else 2)
  | b₂ :: b₃ :: _ =>
      if malformed3 b₁ b₂ then ([replacement], 1)
      else if !continues b₃ then ([replacement], 2)
      else
        let unit := b₁ % 0x10 * 0x1000 + b₂ % 0x40 * 0x40 + b₃ % 0x40
        (if isSurrogate unit then [replacement] else [Fin.ofNat _ unit], 3)

def decodeFour (b₁ : Nat) : List Nat → JavaString × Nat
  | [] => ([replacement], 1)
  | [b₂] => ([replacement], if malformed4 b₁ b₂ then 1 else 2)
  | [b₂, b₃] => ([replacement], if malformed4 b₁ b₂ then 1 else if !continues b₃ then 2 else 3)
  | b₂ :: b₃ :: b₄ :: _ =>
      if malformed4 b₁ b₂ then ([replacement], 1)
      else if !continues b₃ then ([replacement], 2)
      else if !continues b₄ then ([replacement], 3)
      else
        let point := b₁ % 8 * 0x40000 + b₂ % 0x40 * 0x1000 + b₃ % 0x40 * 0x40 + b₄ % 0x40
        ([Fin.ofNat _ (0xD800 + (point - 0x10000) / 0x400),
          Fin.ofNat _ (0xDC00 + point % 0x400)], 4)

/-- The code units read at the front of `b₁ :: rest`, and the number of bytes they
take. A byte sequence that breaks off is replaced up to the byte that breaks it. -/
def decodeFront (b₁ : Nat) (rest : List Nat) : JavaString × Nat :=
  if b₁ < 0x80 then ([Fin.ofNat _ b₁], 1)
  else if b₁ < 0xC2 then ([replacement], 1)
  else if b₁ < 0xE0 then decodeTwo b₁ rest
  else if b₁ < 0xF0 then decodeThree b₁ rest
  else if b₁ < 0xF8 then decodeFour b₁ rest
  else ([replacement], 1)

/-- Every round takes at least one byte. -/
def decodeLoop : (fuel : Nat) → List Nat → JavaString
  | 0, _ => []
  | _ + 1, [] => []
  | fuel + 1, b :: rest =>
      let (units, count) := decodeFront b rest
      units ++ decodeLoop fuel ((b :: rest).drop count)

def newString (bytes : Bytes) : JavaString := decodeLoop bytes.length (bytes.map UInt8.toNat)

/-- The string comes back from its bytes. -/
def Lossless (text : JavaString) : Prop := newString (getBytes text) = text

instance (text : JavaString) : Decidable (Lossless text) :=
  inferInstanceAs (Decidable (newString (getBytes text) = text))

/-! ## Strings without unpaired surrogates come back -/

/-- Every surrogate is half of a pair. -/
def Paired : JavaString → Prop
  | [] => True
  | [u] => isSurrogate u = false
  | u :: v :: rest =>
      (isHighSurrogate u ∧ isLowSurrogate v ∧ Paired rest) ∨
        (isSurrogate u = false ∧ Paired (v :: rest))

theorem ofNat_toNat (u : CodeUnit) : Fin.ofNat (2 ^ 16) (u : Nat) = u :=
  Fin.ext (Nat.mod_eq_of_lt u.isLt)

/-- The bytes of one or two code units are read back as these units. -/
def ReadBack (bytes : Bytes) (units : JavaString) : Prop :=
  ∃ b front, bytes.map UInt8.toNat = b :: front ∧
    ∀ rest, decodeFront b (front ++ rest) = (units, bytes.length)

theorem readBack_unit (u : CodeUnit) (single : isSurrogate u = false) :
    ReadBack (encodeUnit u) [u] := by
  have bound := u.isLt
  rw [encodeUnit]
  split
  · rename_i low
    refine ⟨u, [], ?_, fun rest => ?_⟩
    · simp
      omega
    · simp [decodeFront, low]
  · split
    · rename_i notLow low
      refine ⟨0xC0 + u / 0x40, [0x80 + u % 0x40], ?_, fun rest => ?_⟩
      · simp
        omega
      · have follows : continues (0x80 + u % 0x40) = true := by
          simp [continues]
          omega
        have unit : (0xC0 + (u : Nat) / 0x40) % 0x20 * 0x40 + (0x80 + (u : Nat) % 0x40) % 0x40 = u := by
          omega
        rw [decodeFront, if_neg (by omega), if_neg (by omega), if_pos (by omega)]
        simp only [List.singleton_append, decodeTwo, follows, unit, if_true, ofNat_toNat]
        rfl
    · rename_i notLow notMiddle
      rw [if_neg (by simp [single])]
      refine ⟨0xE0 + u / 0x1000, [0x80 + u / 0x40 % 0x40, 0x80 + u % 0x40], ?_, fun rest => ?_⟩
      · simp
        omega
      · have first : malformed3 (0xE0 + u / 0x1000) (0x80 + u / 0x40 % 0x40) = false := by
          simp [malformed3, continues]
          omega
        have second : continues (0x80 + u % 0x40) = true := by
          simp [continues]
          omega
        have unit : (0xE0 + (u : Nat) / 0x1000) % 0x10 * 0x1000 +
            (0x80 + (u : Nat) / 0x40 % 0x40) % 0x40 * 0x40 + (0x80 + (u : Nat) % 0x40) % 0x40 =
              u := by
          omega
        rw [decodeFront, if_neg (by omega), if_neg (by omega), if_neg (by omega), if_pos (by omega)]
        simp only [List.cons_append, List.nil_append, decodeThree, first, second, unit, single,
          ofNat_toNat, Bool.false_eq_true, if_false, Bool.not_true]
        rfl

theorem readBack_pair (u v : CodeUnit) (high : isHighSurrogate u) (low : isLowSurrogate v) :
    ReadBack (encodePair u v) [u, v] := by
  have bound := u.isLt
  have bound' := v.isLt
  simp only [isHighSurrogate, isLowSurrogate, decide_eq_true_eq] at high low
  obtain ⟨point, isPoint⟩ : ∃ point, point = codePoint u v := ⟨_, rfl⟩
  have value := isPoint
  rw [codePoint] at value
  rw [encodePair, ← isPoint]
  refine ⟨0xF0 + point / 0x40000, [0x80 + point / 0x1000 % 0x40, 0x80 + point / 0x40 % 0x40,
    0x80 + point % 0x40], ?_, fun rest => ?_⟩
  · simp
    omega
  · have first : malformed4 (0xF0 + point / 0x40000) (0x80 + point / 0x1000 % 0x40) = false := by
      simp [malformed4, continues]
      omega
    have second : continues (0x80 + point / 0x40 % 0x40) = true := by
      simp [continues]
      omega
    have third : continues (0x80 + point % 0x40) = true := by
      simp [continues]
      omega
    have all : (0xF0 + point / 0x40000) % 8 * 0x40000 +
        (0x80 + point / 0x1000 % 0x40) % 0x40 * 0x1000 + (0x80 + point / 0x40 % 0x40) % 0x40 * 0x40 +
          (0x80 + point % 0x40) % 0x40 = point := by
      omega
    have isHigh : 0xD800 + (point - 0x10000) / 0x400 = u := by omega
    have isLow : 0xDC00 + point % 0x400 = v := by omega
    rw [decodeFront, if_neg (by omega), if_neg (by omega), if_neg (by omega), if_neg (by omega),
      if_pos (by omega)]
    simp only [List.cons_append, List.nil_append, decodeFour, first, second, third, all, isHigh,
      isLow, ofNat_toNat, Bool.false_eq_true, if_false, Bool.not_true]
    rfl

theorem decodeLoop_append {bytes : Bytes} {units : JavaString} (readBack : ReadBack bytes units)
    (fuel : Nat) (rest : Bytes) :
    decodeLoop (fuel + 1) ((bytes ++ rest).map UInt8.toNat) =
      units ++ decodeLoop fuel (rest.map UInt8.toNat) := by
  obtain ⟨b, front, isBytes, read⟩ := readBack
  have count : bytes.length = front.length + 1 := by
    rw [← List.length_map UInt8.toNat, isBytes, List.length_cons]
  rw [List.map_append, isBytes, List.cons_append, decodeLoop, read]
  simp [count]

theorem ReadBack.length_pos {bytes : Bytes} {units : JavaString} (readBack : ReadBack bytes units) :
    0 < bytes.length := by
  obtain ⟨b, front, isBytes, -⟩ := readBack
  rw [← List.length_map UInt8.toNat, isBytes, List.length_cons]
  omega

theorem decodeLoop_nil (fuel : Nat) : decodeLoop fuel [] = [] := by
  cases fuel <;> rfl

/-- One round, when there is fuel for it. -/
theorem decodeLoop_round {bytes : Bytes} {units : JavaString} (readBack : ReadBack bytes units)
    {fuel : Nat} {rest : Bytes} {text : JavaString} (enough : (bytes ++ rest).length ≤ fuel)
    (later : ∀ fuel, rest.length ≤ fuel → decodeLoop fuel (rest.map UInt8.toNat) = text) :
    decodeLoop fuel ((bytes ++ rest).map UInt8.toNat) = units ++ text := by
  have positive := readBack.length_pos
  rw [List.length_append] at enough
  obtain ⟨fuel, rfl⟩ : ∃ less, fuel = less + 1 := ⟨fuel - 1, by omega⟩
  rw [decodeLoop_append readBack, later fuel (by omega)]

theorem decodeLoop_getBytes (text : JavaString) (paired : Paired text) : ∀ fuel,
    (getBytes text).length ≤ fuel → decodeLoop fuel ((getBytes text).map UInt8.toNat) = text := by
  induction text using getBytes.induct with
  | case1 => exact fun fuel _ => decodeLoop_nil fuel
  | case2 u =>
      intro fuel enough
      have stops : ∀ fuel, ([] : Bytes).length ≤ fuel →
          decodeLoop fuel (([] : Bytes).map UInt8.toNat) = [] := fun fuel _ => decodeLoop_nil fuel
      have alone : getBytes [u] = encodeUnit u ++ [] := (List.append_nil _).symm
      rw [alone] at enough ⊢
      exact decodeLoop_round (readBack_unit u paired) enough stops
  | case3 u v rest isPair induction =>
      intro fuel enough
      rw [getBytes, if_pos isPair] at enough ⊢
      have single : isSurrogate u ≠ false := by
        have high := isPair.1
        simp only [isHighSurrogate, isSurrogate, decide_eq_true_eq, ne_eq,
          decide_eq_false_iff_not] at high ⊢
        omega
      rcases paired with ⟨-, -, later⟩ | ⟨isSingle, -⟩
      · exact decodeLoop_round (readBack_pair u v isPair.1 isPair.2) enough (induction later)
      · exact absurd isSingle single
  | case4 u v rest notPair induction =>
      intro fuel enough
      rw [getBytes, if_neg notPair] at enough ⊢
      rcases paired with ⟨high, low, -⟩ | ⟨single, later⟩
      · exact absurd ⟨high, low⟩ notPair
      · exact decodeLoop_round (readBack_unit u single) enough (induction later)

theorem Paired.lossless {text : JavaString} (paired : Paired text) : Lossless text :=
  decodeLoop_getBytes text paired _ le_rfl

end JavaString

end FoundationsLab.Foundation
