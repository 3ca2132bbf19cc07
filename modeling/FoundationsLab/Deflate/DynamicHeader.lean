import FoundationsLab.Deflate.HuffCodes
import FoundationsLab.Deflate.HuffComplete
import FoundationsLab.Deflate.Inflate
import FoundationsLab.Deflate.PackLengths

/-! # The header of a dynamic block

The encoder drops zeros at the end of the two tables, packs what is left and codes the
symbols with a code of their own, whose lengths go first. -/

namespace FoundationsLab.Deflate

open Foundation.BitStream Foundation.CanonicalCode

def maxClBits : Nat := 7

/-- `while (n > least && value(n - 1) == 0) n--` -/
def trimZeros (least : Nat) (value : Nat → Df Nat) : (n : Nat) → Df Nat
  | 0 => .ok 0
  | n + 1 =>
      if n + 1 > least then do
        let length ← value n
        if length = 0 then trimZeros least value n else return n + 1
      else .ok (n + 1)

/-- `freqs[symbol]++` -/
def countSymbol (freqs : List Nat) (symbol : Nat) : Df (List Nat) := do
  let freq ← Checked.get freqs symbol
  Checked.set freqs symbol ((freq + 1) % 2 ^ 32)

/-- `cl_len[CODELEN_ORDER[i]]` -/
def codelenAt (clLen : List Nat) (i : Nat) : Df Nat := do
  let symbol ← Checked.get codelenOrder i
  Checked.get clLen symbol

structure DynamicHeader where
  hlit : Nat
  hdist : Nat
  hclen : Nat
  packed : PackedLengths
  clLen : List Nat
  clCode : List Nat

def dynamicHeader (litLen distLen : List Nat) : Df DynamicHeader := do
  let hlit ← trimZeros 257 (Checked.get litLen) numLiterals
  let hdist ← trimZeros 1 (Checked.get distLen) numDistances
  let combined := litLen.take hlit ++ distLen.take hdist
  let packed ← packCodeLengths combined (hlit + hdist)
  let clFreq ← (packed.map Prod.fst).foldlM countSymbol (List.replicate numCodelen 0)
  let clLen ← huffBuildLengths maxClBits buildTurns clFreq
  let clCode ← huffAssignCodes clLen numCodelen
  let hclen ← trimZeros 4 (codelenAt clLen) numCodelen
  return {
    hlit := hlit
    hdist := hdist
    hclen := hclen
    packed := packed
    clLen := clLen
    clCode := clCode }

/-! ## Writing -/

def writeCodelen (clLen : List Nat) (w : Bitwriter) (i : Nat) : Option Bitwriter := do
  let symbol ← codelenOrder[i]?
  let length ← clLen[symbol]?
  bwBits w length 3

def writePacked (clLen clCode : List Nat) (w : Bitwriter) (entry : Nat × Nat) :
    Option Bitwriter := do
  let code ← clCode[entry.1]?
  let length ← clLen[entry.1]?
  let w ← bwCode w code length
  if entry.1 = 16 then bwBits w entry.2 2
  else if entry.1 = 17 then bwBits w entry.2 3
  else if entry.1 = 18 then bwBits w entry.2 7
  else some w

/-- What follows the type of a dynamic block. -/
def writeDynamicHeader (header : DynamicHeader) (w : Bitwriter) : Option Bitwriter := do
  let w ← bwBits w (header.hlit - 257) 5
  let w ← bwBits w (header.hdist - 1) 5
  let w ← bwBits w (header.hclen - 4) 4
  let w ← (List.range header.hclen).foldlM (writeCodelen header.clLen) w
  header.packed.foldlM (writePacked header.clLen header.clCode) w

/-! ## Planning -/

theorem trimZeros_returns {least n : Nat} {value : Nat → Df Nat} {lengthAt : Nat → Nat}
    (values : ∀ i < n, value i = .ok (lengthAt i)) (atMost : least ≤ n) :
    Checked.Returns (fun m => least ≤ m ∧ m ≤ n ∧ ∀ i, m ≤ i → i < n → lengthAt i = 0)
      (trimZeros least value n) := by
  induction n with
  | zero => exact Checked.Returns.ok ⟨atMost, Nat.le_refl _, fun i lower upper => by omega⟩
  | succ n induction =>
      rw [trimZeros]
      split
      · rename_i more
        rw [values n (Nat.lt_succ_self n)]
        dsimp only [bind, Except.bind]
        split
        · rename_i isZero
          apply (induction (fun i less => values i (Nat.lt_succ_of_lt less)) (by omega)).mono
          rintro m ⟨lower, upper, areZero⟩
          refine ⟨lower, by omega, fun i above below' => ?_⟩
          rcases Nat.lt_succ_iff_lt_or_eq.mp below' with less | rfl
          · exact areZero i above less
          · exact isZero
        · exact Checked.Returns.ok ⟨atMost, Nat.le_refl _, fun i lower upper => by omega⟩
      · exact Checked.Returns.ok ⟨atMost, Nat.le_refl _, fun i lower upper => by omega⟩

theorem get_eq_getD {lengths : List Nat} {i : Nat} (inside : i < lengths.length) :
    (Checked.get lengths i : Df Nat) = .ok (lengths.getD i 0) := by
  rw [Checked.get, List.getElem?_eq_getElem inside, List.getD_eq_getElem _ _ inside]

theorem codelenOrder_getD_lt {i : Nat} : codelenOrder.getD i 0 < numCodelen := by
  rcases Nat.lt_or_ge i codelenOrder.length with inside | outside
  · rw [List.getD_eq_getElem _ _ inside]
    have small : ∀ symbol ∈ codelenOrder, symbol < numCodelen := by decide
    exact small _ (List.getElem_mem inside)
  · rw [List.getD_eq_default _ _ outside]
    decide

theorem codelenAt_eq {clLen : List Nat} (size : clLen.length = numCodelen) {i : Nat}
    (inside : i < numCodelen) :
    codelenAt clLen i = .ok (clLen.getD (codelenOrder.getD i 0) 0) := by
  have isSymbol : (Checked.get codelenOrder i : Df Nat) = .ok (codelenOrder.getD i 0) :=
    get_eq_getD inside
  rw [codelenAt, isSymbol]
  exact get_eq_getD (size ▸ codelenOrder_getD_lt)

/-- How often the symbols occurred, as far as 32 bits can tell. -/
structure Occurred (number : Nat) (symbols freqs : List Nat) : Prop where
  size : freqs.length = number
  counts : ∀ symbol < number, freqs[symbol]? = some (symbols.count symbol % 2 ^ 32)
  total : freqs.sum ≤ symbols.length

theorem occurred_none (number : Nat) : Occurred number [] (List.replicate number 0) where
  size := List.length_replicate
  counts symbol inside := List.getElem?_replicate_of_lt inside
  total := by rw [List.sum_replicate_nat, Nat.mul_zero]; exact Nat.zero_le _

theorem sum_set_add {xs : List Nat} {i x : Nat} (isElement : xs[i]? = some x) (y : Nat) :
    (xs.set i y).sum + x = xs.sum + y := by
  induction xs generalizing i with
  | nil => cases isElement
  | cons head tail induction =>
      cases i with
      | zero =>
          obtain rfl := Option.some.inj isElement
          rw [List.set_cons_zero, List.sum_cons, List.sum_cons]
          omega
      | succ i =>
          have rest := induction isElement
          rw [List.set_cons_succ, List.sum_cons, List.sum_cons]
          omega

theorem countSymbol_returns {number symbol : Nat} {symbols freqs : List Nat}
    (occurred : Occurred number symbols freqs) (inside : symbol < number) :
    Checked.Returns (Occurred number (symbols ++ [symbol])) (countSymbol freqs symbol) := by
  have isSize := occurred.size
  apply (Checked.returns_get (by omega)).bind
  intro freq isFreq
  have isSet := sum_set_add isFreq ((freq + 1) % 2 ^ 32)
  rw [occurred.counts symbol inside] at isFreq
  obtain rfl := Option.some.inj isFreq
  apply (Checked.returns_set (by omega) _).mono
  rintro _ rfl
  constructor
  · rw [List.length_set, isSize]
  · intro other inside'
    rw [List.getElem?_set, List.count_append]
    split
    · rename_i same
      subst same
      rw [if_pos (by omega), List.count_singleton_self, Nat.mod_add_mod]
    · rename_i different
      rw [occurred.counts other inside', List.count_singleton, if_neg (by simpa using different)]
      rfl
  · have atMost := Nat.mod_le (symbols.count symbol % 2 ^ 32 + 1) (2 ^ 32)
    have total := occurred.total
    rw [List.length_append, List.length_singleton]
    omega

theorem countSymbols_returns {number : Nat} {before symbols freqs : List Nat}
    (occurred : Occurred number before freqs) (inside : ∀ symbol ∈ symbols, symbol < number) :
    Checked.Returns (Occurred number (before ++ symbols)) (symbols.foldlM countSymbol freqs) := by
  induction symbols generalizing before freqs with
  | nil =>
      rw [List.append_nil]
      exact Checked.Returns.ok occurred
  | cons symbol symbols induction =>
      rw [List.foldlM_cons]
      apply (countSymbol_returns occurred (inside symbol List.mem_cons_self)).bind
      intro freqs' occurred'
      have rest := induction occurred' fun other member => inside other (.tail _ member)
      rwa [List.append_assoc, List.singleton_append] at rest

theorem Occurred.lt {number : Nat} {symbols freqs : List Nat} (occurred : Occurred number symbols freqs) :
    ∀ freq ∈ freqs, freq < 2 ^ 32 := by
  intro freq member
  obtain ⟨symbol, isFreq⟩ := List.getElem?_of_mem member
  have inside := (List.getElem?_eq_some_iff.mp isFreq).1
  rw [occurred.counts symbol (by rw [← occurred.size]; exact inside)] at isFreq
  rw [← Option.some.inj isFreq]
  exact Nat.mod_lt _ (Nat.two_pow_pos 32)

/-- A symbol that occurred has a frequency, unless it occurred too often. -/
theorem Occurred.positive {number symbol : Nat} {symbols freqs : List Nat}
    (occurred : Occurred number symbols freqs) (few : symbols.length < 2 ^ 32)
    (inside : symbol < number) : freqs.getD symbol 0 ≠ 0 ↔ symbol ∈ symbols := by
  have atMost := List.count_le_length (a := symbol) (l := symbols)
  rw [List.getD_eq_getElem?_getD, occurred.counts symbol inside, Option.getD_some,
    Nat.mod_eq_of_lt (by omega), ← Nat.pos_iff_ne_zero, List.count_pos_iff]

/-- What the encoder knows of the header when it writes it. -/
structure Plan (litLen distLen : List Nat) (header : DynamicHeader) : Prop where
  hlitLeast : 257 ≤ header.hlit
  hlitMost : header.hlit ≤ numLiterals
  litZero : ∀ i, header.hlit ≤ i → i < numLiterals → litLen.getD i 0 = 0
  hdistLeast : 1 ≤ header.hdist
  hdistMost : header.hdist ≤ numDistances
  distZero : ∀ i, header.hdist ≤ i → i < numDistances → distLen.getD i 0 = 0
  hclenLeast : 4 ≤ header.hclen
  hclenMost : header.hclen ≤ numCodelen
  codelenZero : ∀ i, header.hclen ≤ i → i < numCodelen →
    header.clLen.getD (codelenOrder.getD i 0) 0 = 0
  unpacks : Unpacks [] header.packed (litLen.take header.hlit ++ distLen.take header.hdist)
  few : header.packed.length ≤ numLiterals + numDistances
  size : header.clLen.length = numCodelen
  bounded : ∀ length ∈ header.clLen, length ≤ maxClBits
  kraft : Kraft header.clLen
  used : ∀ entry ∈ header.packed, header.clLen.getD entry.1 0 ≠ 0
  codes : ∀ symbol < numCodelen, header.clCode[symbol]? =
    some (if header.clLen.getD symbol 0 = 0 then 0 else code header.clLen symbol)

section Planning

variable {litLen distLen : List Nat}

/-- The code for the packed symbols is complete, since there are two of them. -/
theorem clLengths_returns {packed : PackedLengths} {freqs : List Nat}
    (occurred : Occurred numCodelen (packed.map Prod.fst) freqs)
    (few : packed.length ≤ numLiterals + numDistances) (inside : ∀ entry ∈ packed, entry.1 ≤ 18)
    (two : ∃ entry ∈ packed, ∃ entry' ∈ packed, entry.1 ≠ entry'.1) :
    Checked.Returns (fun clLen => clLen.length = numCodelen ∧
      (∀ length ∈ clLen, length ≤ maxClBits) ∧ Kraft clLen ∧
      ∀ entry ∈ packed, clLen.getD entry.1 0 ≠ 0)
      (huffBuildLengths maxClBits buildTurns freqs) := by
  have size := occurred.size
  have total := occurred.total
  rw [List.length_map] at total
  have enough : numLiterals + numDistances < 2 ^ 32 := by decide
  have positive : ∀ entry ∈ packed, freqs.getD entry.1 0 ≠ 0 := by
    intro entry member
    apply (occurred.positive (by rw [List.length_map]; omega) _).mpr (List.mem_map_of_mem member)
    exact Nat.lt_succ_of_le (inside entry member)
  have isTwo : 2 ≤ (usedSymbols freqs).length := by
    obtain ⟨entry, member, entry', member', different⟩ := two
    by_contra notTwo
    have isUsed := mem_usedSymbols_iff.mpr (positive entry member)
    have isUsed' := mem_usedSymbols_iff.mpr (positive entry' member')
    have someUsed := List.length_pos_of_mem isUsed
    have one : (usedSymbols freqs).length = 1 := by omega
    obtain ⟨symbol, isOnly⟩ := List.length_eq_one_iff.mp one
    rw [isOnly, List.mem_singleton] at isUsed isUsed'
    exact different (isUsed.trans isUsed'.symm)
  apply (huffBuildLengths_coded (by rw [size]; decide) (by decide) (by rw [size]; decide)
    occurred.lt).mono
  intro clLen coded
  obtain ⟨complete, areUsed⟩ := coded.complete isTwo (by omega)
  refine ⟨coded.size.trans size, coded.bounded, ?_, fun entry member => ?_⟩
  · exact Nat.le_of_eq (complete maxCodeBits (by decide))
  · exact (areUsed _).mpr (positive entry member)

/-- The lengths that are sent. -/
theorem combined_facts {hlit hdist : Nat} (isLit : litLen.length = numLiterals)
    (isDist : distLen.length = numDistances) (hlitMost : hlit ≤ numLiterals)
    (hdistMost : hdist ≤ numDistances) (boundedLit : ∀ length ∈ litLen, length ≤ maxCodeBits)
    (boundedDist : ∀ length ∈ distLen, length ≤ maxCodeBits) :
    (litLen.take hlit ++ distLen.take hdist).length = hlit + hdist ∧
    ∀ length ∈ litLen.take hlit ++ distLen.take hdist, length < 16 := by
  constructor
  · rw [List.length_append, List.length_take, List.length_take]
    omega
  · intro length member
    have fits : maxCodeBits < 16 := by decide
    rcases List.mem_append.mp member with inLit | inDist
    · exact Nat.lt_of_le_of_lt (boundedLit length (List.mem_of_mem_take inLit)) fits
    · exact Nat.lt_of_le_of_lt (boundedDist length (List.mem_of_mem_take inDist)) fits

theorem mem_take_of_zeros {lengths : List Nat} {n m : Nat} (size : lengths.length = n)
    (zeros : ∀ i, m ≤ i → i < n → lengths.getD i 0 = 0) (some : ∃ length ∈ lengths, length ≠ 0) :
    ∃ length ∈ lengths.take m, length ≠ 0 := by
  obtain ⟨length, member, notZero⟩ := some
  obtain ⟨i, isLength⟩ := List.getElem?_of_mem member
  have inside := (List.getElem?_eq_some_iff.mp isLength).1
  refine ⟨length, ?_, notZero⟩
  have sent : i < m := by
    by_contra notSent
    have isZero := zeros i (Nat.le_of_not_lt notSent) (by omega)
    rw [List.getD_eq_getElem?_getD, isLength] at isZero
    exact notZero isZero
  apply List.mem_of_getElem?
  rw [List.getElem?_take_of_lt sent, isLength]

theorem dynamicHeader_returns (isLit : litLen.length = numLiterals)
    (isDist : distLen.length = numDistances) (boundedLit : ∀ length ∈ litLen, length ≤ maxCodeBits)
    (boundedDist : ∀ length ∈ distLen, length ≤ maxCodeBits) (some : ∃ length ∈ distLen, length ≠ 0) :
    Checked.Returns (Plan litLen distLen) (dynamicHeader litLen distLen) := by
  apply (trimZeros_returns (fun i inside => get_eq_getD (by omega)) (by decide)).bind
  rintro hlit ⟨hlitLeast, hlitMost, litZero⟩
  apply (trimZeros_returns (fun i inside => get_eq_getD (by omega)) (by decide)).bind
  rintro hdist ⟨hdistLeast, hdistMost, distZero⟩
  obtain ⟨combinedSize, combinedBounded⟩ :=
    combined_facts isLit isDist hlitMost hdistMost boundedLit boundedDist
  obtain ⟨length, isSent, notZero⟩ := mem_take_of_zeros isDist distZero some
  have room : hlit + hdist ≤ numLiterals + numDistances := Nat.add_le_add hlitMost hdistMost
  obtain ⟨packed, packs, unpacks, atMost⟩ :=
    packCodeLengths_returns combinedBounded (Nat.le_of_eq combinedSize.symm) room
  rw [← combinedSize, List.take_length] at unpacks
  have two := packCodeLengths_two combinedBounded (by omega) (by omega)
    ⟨length, List.mem_append_right _ isSent, notZero⟩ (by rw [combinedSize]; exact packs) unpacks
  have few : packed.length ≤ numLiterals + numDistances := Nat.le_trans atMost room
  dsimp only
  rw [packs]
  dsimp only [bind, Except.bind]
  have symbols : ∀ symbol ∈ packed.map Prod.fst, symbol < numCodelen := by
    intro symbol member
    obtain ⟨entry, isEntry, rfl⟩ := List.mem_map.mp member
    exact Nat.lt_succ_of_le (unpacks.symbol_le entry isEntry)
  apply (countSymbols_returns (occurred_none numCodelen) symbols).bind
  intro clFreq occurred
  rw [List.nil_append] at occurred
  apply (clLengths_returns occurred few unpacks.symbol_le two).bind
  rintro clLen ⟨size, bounded, kraft, used⟩
  have bounded' : ∀ length ∈ clLen, length ≤ maxCodeBits := fun length member =>
    Nat.le_trans (bounded length member) (by decide)
  have assigned := huffAssignCodes_returns bounded' (by rw [size]; decide) kraft
  rw [size] at assigned
  apply assigned.bind
  rintro clCode ⟨-, codes⟩
  apply (trimZeros_returns (fun i inside => codelenAt_eq size inside) (by decide)).bind
  rintro hclen ⟨hclenLeast, hclenMost, codelenZero⟩
  exact Checked.Returns.ok ⟨hlitLeast, hlitMost, litZero, hdistLeast, hdistMost, distZero, hclenLeast,
    hclenMost, codelenZero, unpacks, few, size, bounded, kraft, used, codes⟩

end Planning

end FoundationsLab.Deflate
