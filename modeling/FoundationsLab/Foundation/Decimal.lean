import FoundationsLab.Foundation.JavaString
import Mathlib.Tactic.Positivity

/-! # Decimal numerals

Numerals of a fixed width as strings. Among numerals of one width the order of
the strings is the order of the numbers. -/

namespace FoundationsLab.Foundation.Decimal

open JavaString

def digit (d : Nat) : CodeUnit := Fin.ofNat (2 ^ 16) (0x30 + d % 10)

/-- The low `width` digits of a number. -/
def numeral : (width n : Nat) → JavaString
  | 0, _ => []
  | width + 1, n => digit (n / 10 ^ width) :: numeral width (n % 10 ^ width)

/-- A number with leading zeros up to `width` digits, and with more digits when it
needs them. -/
def formatPadded (width n : Nat) : JavaString := numeral (max width (Nat.toDigits 10 n).length) n

def parseDigits : (text : JavaString) → (n : Nat) → Option Nat
  | [], n => some n
  | unit :: rest, n =>
      if 0x30 ≤ unit.val ∧ unit.val ≤ 0x39 then parseDigits rest (n * 10 + (unit.val - 0x30))
      else none

/-- The sign of a number and its digits. -/
def splitSign : JavaString → Int × JavaString
  | [] => (1, [])
  | first :: rest =>
      if first.val = 0x2D then (-1, rest)
      else if first.val = 0x2B then (1, rest)
      else (1, first :: rest)

/-- A number in the range of `int`, with an optional sign. -/
def parseInt (text : JavaString) : Option Int := do
  let (sign, digits) := splitSign text
  if digits = [] then none
  else do
    let n ← parseDigits digits 0
    let value := sign * n
    if -2 ^ 31 ≤ value ∧ value < 2 ^ 31 then some value else none

theorem digit_val (d : Nat) : (digit d).val = 0x30 + d % 10 := by
  simp only [digit, Fin.ofNat]
  omega

theorem formatPadded_of_lt {width n : Nat} (positive : 0 < width) (bound : n < 10 ^ width) :
    formatPadded width n = numeral width n := by
  have short := (Nat.length_toDigits_le_iff (by decide) positive).mpr bound
  rw [formatPadded, max_eq_left short]

theorem digit_range (d : Nat) : 0x30 ≤ (digit d).val ∧ (digit d).val ≤ 0x39 := by
  rw [digit_val]
  omega

theorem digit_lt {d e : Nat} (below : d < e) (bound : e < 10) : digit d < digit e := by
  rw [Fin.lt_def, digit_val, digit_val]
  omega

/-- Numerals are ordered as their numbers. -/
theorem numeral_lt : ∀ {width n m : Nat}, n < m → m < 10 ^ width →
    numeral width n < numeral width m
  | 0, n, m, below, bound => by
      simp only [pow_zero] at bound
      omega
  | width + 1, n, m, below, bound => by
      have positive : 0 < 10 ^ width := by positivity
      have digits : m / 10 ^ width < 10 := Nat.div_lt_of_lt_mul (by rwa [pow_succ] at bound)
      rw [numeral, numeral, List.cons_lt_cons_iff]
      rcases Nat.lt_or_ge (n / 10 ^ width) (m / 10 ^ width) with less | notLess
      · exact .inl (digit_lt less digits)
      · have same : n / 10 ^ width = m / 10 ^ width :=
          Nat.le_antisymm (Nat.div_le_div_right below.le) notLess
        have split := Nat.div_add_mod n (10 ^ width)
        have split' := Nat.div_add_mod m (10 ^ width)
        rw [same] at split
        refine .inr ⟨by rw [same], numeral_lt (by omega) (Nat.mod_lt _ positive)⟩

theorem length_numeral (width n : Nat) : (numeral width n).length = width := by
  induction width generalizing n with
  | zero => rfl
  | succ width induction => simp [numeral, induction]

theorem parseDigits_numeral : ∀ {width n : Nat} (acc : Nat), n < 10 ^ width →
    parseDigits (numeral width n) acc = some (acc * 10 ^ width + n)
  | 0, n, acc, bound => by
      simp only [pow_zero] at bound
      obtain rfl : n = 0 := by omega
      simp [numeral, parseDigits]
  | width + 1, n, acc, bound => by
      have positive : 0 < 10 ^ width := by positivity
      have top : n / 10 ^ width < 10 := Nat.div_lt_of_lt_mul (by rwa [pow_succ] at bound)
      have later := parseDigits_numeral (acc * 10 + n / 10 ^ width) (Nat.mod_lt n positive)
      have value : (digit (n / 10 ^ width)).val - 0x30 = n / 10 ^ width := by
        rw [digit_val, Nat.mod_eq_of_lt top, Nat.add_sub_cancel_left]
      have isDigit := digit_range (n / 10 ^ width)
      have split := Nat.div_add_mod n (10 ^ width)
      rw [numeral, parseDigits, if_pos isDigit, value, later, pow_succ]
      congr 1
      calc (acc * 10 + n / 10 ^ width) * 10 ^ width + n % 10 ^ width
          = acc * (10 ^ width * 10) + (10 ^ width * (n / 10 ^ width) + n % 10 ^ width) := by ring
        _ = acc * (10 ^ width * 10) + n := by rw [split]

/-- A numeral is read back. -/
theorem parseInt_numeral {width n : Nat} (positive : 0 < width) (bound : n < 10 ^ width)
    (isInt : n < 2 ^ 31) : parseInt (numeral width n) = some (n : Int) := by
  obtain ⟨width, rfl⟩ : ∃ less, width = less + 1 := ⟨width - 1, by omega⟩
  have parsed := parseDigits_numeral 0 bound
  have range := digit_range (n / 10 ^ width)
  have inRange : -2 ^ 31 ≤ (1 : Int) * n ∧ (1 : Int) * n < 2 ^ 31 := by omega
  rw [Nat.zero_mul, Nat.zero_add, numeral] at parsed
  rw [numeral, parseInt, splitSign, if_neg (by omega), if_neg (by omega)]
  dsimp only
  rw [if_neg (List.cons_ne_nil _ _), parsed]
  rw [Option.bind_eq_bind, Option.bind_some, if_pos inRange, one_mul]

/-! ## Numbers next to a separator -/

theorem mem_numeral {unit : CodeUnit} : ∀ {width n : Nat}, unit ∈ numeral width n →
    0x30 ≤ unit.val ∧ unit.val ≤ 0x39
  | 0, _, member => absurd member List.not_mem_nil
  | width + 1, n, member => by
      rcases List.mem_cons.mp member with rfl | isLater
      · exact digit_range _
      · exact mem_numeral isLater

/-- A number without leading zeros. -/
def decimal (n : Nat) : JavaString := formatPadded 1 n

theorem not_mem_decimal {unit : CodeUnit} (outside : 0x39 < unit.val) (n : Nat) :
    unit ∉ decimal n := fun member => by
  have isDigit := mem_numeral member
  omega

theorem parseDigits_decimal (n : Nat) : parseDigits (decimal n) 0 = some n := by
  have bound : n < 10 ^ max 1 (Nat.toDigits 10 n).length :=
    (Nat.length_toDigits_le_iff (by decide) (by omega)).mp (Nat.le_max_right _ _)
  have parsed := parseDigits_numeral 0 bound
  rwa [Nat.zero_mul, Nat.zero_add] at parsed

theorem decimal_injective : Function.Injective decimal := fun n m same => by
  have parsed := parseDigits_decimal n
  rw [same, parseDigits_decimal] at parsed
  exact (Option.some.inj parsed).symm

/-- A separator that occurs in neither front is found in one place only. -/
theorem append_cons_injective {separator : CodeUnit} {front front' back back' : JavaString}
    (absent : separator ∉ front) (absent' : separator ∉ front')
    (same : front ++ separator :: back = front' ++ separator :: back') :
    front = front' ∧ back = back' := by
  induction front generalizing front' with
  | nil =>
      cases front' with
      | nil => exact ⟨rfl, (List.cons.inj same).2⟩
      | cons unit front' => exact absurd (List.mem_cons.mpr (.inl (List.cons.inj same).1)) absent'
  | cons unit front induction =>
      cases front' with
      | nil => exact absurd (List.mem_cons.mpr (.inl (List.cons.inj same).1.symm)) absent
      | cons unit' front' =>
          obtain ⟨rfl, rest⟩ := List.cons.inj same
          obtain ⟨rfl, sameBack⟩ := induction (fun member => absent (List.mem_cons_of_mem _ member))
            (fun member => absent' (List.mem_cons_of_mem _ member)) rest
          exact ⟨rfl, sameBack⟩

end FoundationsLab.Foundation.Decimal
