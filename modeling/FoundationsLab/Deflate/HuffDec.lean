import FoundationsLab.Deflate.BitReader

/-! # The Huffman decoder

The tables of a decoder are a count for each code length and the symbols sorted by
length. A symbol is found by its length and its rank among the symbols of that length. -/

namespace FoundationsLab.Deflate

def numLiterals : Nat := 286
def numDistances : Nat := 30
def numCodelen : Nat := 19
def maxCodeBits : Nat := 15
def endOfBlock : Nat := 256

/-- An entry of `symbols` that was never written holds nothing. -/
structure HuffDec where
  counts : List Nat
  symbols : List (Option Nat)

/-! ## Building the tables -/

def countLength (lengths : List Nat) (i : Nat) (counts : List Nat) : Df (List Nat) := do
  let length ← Checked.get lengths i
  if length > maxCodeBits then Checked.fail .corrupt
  else
    let count ← Checked.get counts length
    Checked.set counts length (count + 1)

/-- An over-subscribed code is rejected. -/
def checkLeft (counts : List Nat) (bits : Nat) (left : Int) : Df Int := do
  let count ← Checked.get counts bits
  let left := left * 2 - count
  if left < 0 then Checked.fail .corrupt else return left

def addOffset (counts : List Nat) (bits : Nat) (offsets : List Nat) : Df (List Nat) := do
  let offset ← Checked.get offsets bits
  let count ← Checked.get counts bits
  Checked.set offsets (bits + 1) (offset + count)

def placeSymbol (lengths : List Nat) (i : Nat) (tables : List Nat × List (Option Nat)) :
    Df (List Nat × List (Option Nat)) := do
  let (offsets, symbols) := tables
  let length ← Checked.get lengths i
  if length ≠ 0 then
    let offset ← Checked.get offsets length
    let symbols ← Checked.set symbols offset (some i)
    let offsets ← Checked.set offsets length (offset + 1)
    return (offsets, symbols)
  else return (offsets, symbols)

def huffBuildDecoder (lengths : List Nat) (n : Nat) : Df HuffDec := do
  let counts ← Checked.forFrom (countLength lengths) 0 n (List.replicate (maxCodeBits + 1) 0)
  let counts ← Checked.set counts 0 0
  let _ ← Checked.forFrom (checkLeft counts) 1 maxCodeBits 1
  let offsets ← Checked.forFrom (addOffset counts) 1 maxCodeBits
    (List.replicate (maxCodeBits + 2) 0)
  let (_, symbols) ← Checked.forFrom (placeSymbol lengths) 0 n
    (offsets, List.replicate numLiterals none)
  return { counts := counts, symbols := symbols }

/-! ## Decoding -/

/-- The turns of the loop from length `len` on. The index into the table is an `int`. -/
def huffDecodeFrom (d : HuffDec) :
    (turns len code first index : Nat) → Bitreader → Df (Nat × Bitreader)
  | 0, _, _, _, _, _ => Checked.fail .corrupt
  | turns + 1, len, code, first, index, r => do
      let (bit, r) ← brBits r 1
      let code := code ||| bit
      let count ← Checked.get d.counts len
      if (code : Int) - first < count then
        let at' := (index : Int) + (code - first)
        if at' < 0 then .error (.fault .outOfBounds)
        else
          let symbol ← Checked.getInit d.symbols at'.toNat
          return (symbol, r)
      else huffDecodeFrom d turns (len + 1) (code <<< 1) ((first + count) <<< 1) (index + count) r

def huffDecode (d : HuffDec) (r : Bitreader) : Df (Nat × Bitreader) :=
  huffDecodeFrom d maxCodeBits 1 0 0 0 r

/-! ## Places in the table -/

/-- How many symbols have a shorter code than this. -/
def below (lengths : List Nat) (length : Nat) : Nat :=
  lengths.countP fun x => 0 < x ∧ x < length

/-- The place of a symbol: after all shorter ones, and after the earlier ones of its
length. -/
def place (lengths : List Nat) (symbol : Nat) : Nat :=
  below lengths (lengths.getD symbol 0) + (lengths.take symbol).count (lengths.getD symbol 0)

theorem below_succ (lengths : List Nat) {length : Nat} (positive : 0 < length) :
    below lengths (length + 1) = below lengths length + lengths.count length := by
  induction lengths with
  | nil => rfl
  | cons x lengths induction =>
      simp only [below] at induction
      simp only [below, List.countP_cons, List.count_cons, induction, decide_eq_true_eq,
        beq_iff_eq]
      by_cases same : x = length
      · simp [same, positive]
        omega
      · have iff : x < length + 1 ↔ x < length := by omega
        simp only [iff, same, if_false]
        omega

theorem below_one (lengths : List Nat) : below lengths 1 = 0 := by
  refine List.countP_eq_zero.mpr fun x _ => ?_
  simp only [decide_eq_true_eq]
  omega

theorem below_mono (lengths : List Nat) {shorter longer : Nat} (less : shorter ≤ longer) :
    below lengths shorter ≤ below lengths longer := by
  refine List.countP_mono_left fun x _ inside => ?_
  simp only [decide_eq_true_eq] at inside ⊢
  omega

theorem below_le_length (lengths : List Nat) (length : Nat) :
    below lengths length ≤ lengths.length := List.countP_le_length

/-- The rank of an element is less than the number of its like. -/
theorem rank_lt {lengths : List Nat} {symbol length : Nat}
    (isLength : lengths[symbol]? = some length) :
    (lengths.take symbol).count length < lengths.count length := by
  induction lengths generalizing symbol with
  | nil => cases isLength
  | cons x lengths induction =>
      cases symbol with
      | zero =>
          obtain rfl : x = length := Option.some.inj isLength
          rw [List.take_zero, List.count_nil, List.count_cons_self]
          exact Nat.succ_pos _
      | succ symbol =>
          have rest := @induction symbol isLength
          rw [List.take_succ_cons, List.count_cons, List.count_cons]
          omega

/-- Ranks grow along the list. -/
theorem rank_strict {lengths : List Nat} {symbol symbol' length : Nat}
    (isLength : lengths[symbol]? = some length) (less : symbol < symbol') :
    (lengths.take symbol).count length < (lengths.take symbol').count length := by
  have isLength' : (lengths.take symbol')[symbol]? = some length := by
    rw [List.getElem?_take_of_lt less, isLength]
  have bound := rank_lt isLength'
  rwa [List.take_take, Nat.min_eq_left (Nat.le_of_lt less)] at bound

/-- There is an element of every rank. -/
theorem exists_rank {lengths : List Nat} {length rank : Nat}
    (inside : rank < lengths.count length) :
    ∃ symbol, lengths[symbol]? = some length ∧ (lengths.take symbol).count length = rank := by
  induction lengths generalizing rank with
  | nil => exact absurd inside (Nat.not_lt_zero _)
  | cons x lengths induction =>
      by_cases same : x = length
      · cases rank with
        | zero => exact ⟨0, by rw [same]; rfl, rfl⟩
        | succ rank =>
            rw [same, List.count_cons_self] at inside
            obtain ⟨symbol, isLength, isRank⟩ := induction (Nat.lt_of_succ_lt_succ inside)
            refine ⟨symbol + 1, isLength, ?_⟩
            rw [List.take_succ_cons, same, List.count_cons_self, isRank]
      · rw [List.count_cons_of_ne same] at inside
        obtain ⟨symbol, isLength, isRank⟩ := induction inside
        refine ⟨symbol + 1, isLength, ?_⟩
        rw [List.take_succ_cons, List.count_cons_of_ne same, isRank]

theorem place_eq {lengths : List Nat} {symbol length : Nat}
    (isLength : lengths[symbol]? = some length) :
    place lengths symbol = below lengths length + (lengths.take symbol).count length := by
  rw [place, List.getD_eq_getElem?_getD, isLength]
  rfl

theorem place_lt {lengths : List Nat} {symbol length : Nat}
    (isLength : lengths[symbol]? = some length) (positive : 0 < length) :
    place lengths symbol < below lengths (length + 1) := by
  have rank := rank_lt isLength
  rw [place_eq isLength, below_succ lengths positive]
  omega

/-- Two symbols have different places. -/
theorem place_injective {lengths : List Nat} {symbol symbol' length length' : Nat}
    (isLength : lengths[symbol]? = some length) (isLength' : lengths[symbol']? = some length')
    (positive : 0 < length) (positive' : 0 < length')
    (same : place lengths symbol = place lengths symbol') : symbol = symbol' := by
  have upper := place_lt isLength positive
  have upper' := place_lt isLength' positive'
  have isPlace := place_eq isLength
  have isPlace' := place_eq isLength'
  rcases Nat.lt_trichotomy length length' with less | rfl | less
  · have grows := below_mono lengths (by omega : length + 1 ≤ length')
    omega
  · rcases Nat.lt_trichotomy symbol symbol' with less | isSame | less
    · have rank := rank_strict isLength less
      omega
    · exact isSame
    · have rank := rank_strict isLength' less
      omega
  · have grows := below_mono lengths (by omega : length' + 1 ≤ length)
    omega

/-- Every place below the longest codes is taken. -/
theorem exists_place {lengths : List Nat} {bound index : Nat}
    (inside : index < below lengths (bound + 1)) :
    ∃ symbol length, lengths[symbol]? = some length ∧ 0 < length ∧
      place lengths symbol = index := by
  induction bound with
  | zero =>
      rw [below_one] at inside
      exact absurd inside (Nat.not_lt_zero _)
  | succ bound induction =>
      by_cases lower : index < below lengths (bound + 1)
      · exact induction lower
      · rw [below_succ lengths (by omega : 0 < bound + 1)] at inside
        have rank : index - below lengths (bound + 1) < lengths.count (bound + 1) := by omega
        obtain ⟨symbol, isLength, isRank⟩ := exists_rank rank
        refine ⟨symbol, bound + 1, isLength, Nat.succ_pos bound, ?_⟩
        rw [place_eq isLength, isRank]
        omega

end FoundationsLab.Deflate
