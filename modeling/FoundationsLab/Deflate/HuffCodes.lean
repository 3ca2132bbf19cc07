import FoundationsLab.Deflate.BitDelivery
import FoundationsLab.Deflate.BitWriter
import FoundationsLab.Deflate.HuffTables
import FoundationsLab.Foundation.CanonicalCode

/-! # Canonical Huffman codes

The encoder counts its codes up, the decoder walks the bits with a running first code
and index. Both follow the canonical code of the lengths. -/

namespace FoundationsLab.Deflate

open Foundation.BitStream Foundation.CanonicalCode

/-! ## Assigning codes -/

/-- `if (lengths[i]) bl_count[lengths[i]]++` -/
def countCode (lengths : List Nat) (i : Nat) (blCount : List Nat) : Df (List Nat) := do
  let length ← Checked.get lengths i
  if length ≠ 0 then
    let count ← Checked.get blCount length
    Checked.set blCount length ((count + 1) % 2 ^ 16)
  else return blCount

def nextCode (blCount : List Nat) (bits : Nat) (state : Nat × List Nat) : Df (Nat × List Nat) := do
  let (code, nextCodes) := state
  let count ← Checked.get blCount (bits - 1)
  let code := (code + count) <<< 1 % 2 ^ 32
  let nextCodes ← Checked.set nextCodes bits (code % 2 ^ 16)
  return (code, nextCodes)

def assignCode (lengths : List Nat) (i : Nat) (state : List Nat × List Nat) :
    Df (List Nat × List Nat) := do
  let (nextCodes, codes) := state
  let length ← Checked.get lengths i
  if length ≠ 0 then
    let code ← Checked.get nextCodes length
    let codes ← Checked.set codes i code
    let nextCodes ← Checked.set nextCodes length ((code + 1) % 2 ^ 16)
    return (nextCodes, codes)
  else
    let codes ← Checked.set codes i 0
    return (nextCodes, codes)

/-- The array of the codes is the caller's, with room for one of each symbol. -/
def huffAssignCodes (lengths : List Nat) (n : Nat) : Df (List Nat) := do
  let blCount ← Checked.forFrom (countCode lengths) 0 n (List.replicate (maxCodeBits + 1) 0)
  let (_, nextCodes) ← Checked.forFrom (nextCode blCount) 1 maxCodeBits
    (0, List.replicate (maxCodeBits + 2) 0)
  let (_, codes) ← Checked.forFrom (assignCode lengths) 0 n (nextCodes, List.replicate n 0)
  return codes

/-! ## Kraft's inequality -/

/-- The lengths leave room for all codes. -/
def Kraft (lengths : List Nat) : Prop := kraftSum maxCodeBits lengths ≤ 2 ^ maxCodeBits

instance (lengths : List Nat) : Decidable (Kraft lengths) := inferInstanceAs (Decidable (_ ≤ _))

section Lengths

variable {lengths : List Nat}

theorem Kraft.fits (kraft : Kraft lengths) (bounded : ∀ x ∈ lengths, x ≤ maxCodeBits) :
    used lengths maxCodeBits ≤ 2 ^ maxCodeBits := by
  rw [← kraftSum_eq_used bounded]
  exact kraft

theorem Kraft.room (kraft : Kraft lengths) (bounded : ∀ x ∈ lengths, x ≤ maxCodeBits)
    {length : Nat} (small : length ≤ maxCodeBits) : used lengths length ≤ 2 ^ length :=
  used_le_two_pow (kraft.fits bounded) small

/-- The counts after the first `i` symbols. -/
structure CodesCounted (lengths : List Nat) (i : Nat) (blCount : List Nat) : Prop where
  size : blCount.length = maxCodeBits + 1
  counts : ∀ length ≤ maxCodeBits, blCount[length]? = some (countOf (lengths.take i) length)

theorem countCode_returns {i : Nat} {blCount : List Nat} (bounded : ∀ x ∈ lengths, x ≤ maxCodeBits)
    (few : lengths.length < 2 ^ 16) (counted : CodesCounted lengths i blCount)
    (inside : i < lengths.length) :
    Checked.Returns (CodesCounted lengths (i + 1)) (countCode lengths i blCount) := by
  have size := counted.size
  apply (Checked.returns_get inside).bind
  intro length isLength
  have grown := take_add_one_of_getElem? isLength
  have small := bounded length (List.mem_of_getElem? isLength)
  split
  · rename_i positive
    apply (Checked.returns_get (by omega)).bind
    intro count isCount
    rw [counted.counts length small, countOf, if_neg positive] at isCount
    obtain rfl := Option.some.inj isCount
    apply (Checked.returns_set (by omega) _).mono
    rintro _ rfl
    constructor
    · rw [List.length_set, size]
    · intro x small'
      rw [List.getElem?_set, grown, countOf]
      split
      · rename_i same
        subst same
        have total := List.count_le_length (a := length) (l := lengths.take i)
        rw [List.length_take] at total
        rw [if_pos (by omega), if_neg positive, List.count_append, List.count_singleton_self,
          Nat.mod_eq_of_lt (by omega)]
      · rename_i different
        have notSame : ¬ (length == x) = true := by simpa using different
        rw [counted.counts x small', countOf, List.count_append, List.count_singleton, if_neg notSame,
          Nat.add_zero]
  · rename_i isZero
    have zero : length = 0 := not_not.mp isZero
    apply Checked.Returns.ok
    refine ⟨size, fun x small' => ?_⟩
    rw [counted.counts x small', grown, countOf, countOf, List.count_append, List.count_singleton, zero]
    by_cases isZero : x = 0
    · rw [if_pos isZero, if_pos isZero]
    · have notSame : ¬ (0 == x) = true := by simpa using Ne.symm isZero
      rw [if_neg isZero, if_neg isZero, if_neg notSame, Nat.add_zero]

/-- The first codes up to a length. -/
structure FirstCodes (lengths : List Nat) (bits : Nat) (state : Nat × List Nat) : Prop where
  size : state.2.length = maxCodeBits + 2
  code : state.1 = first lengths (bits - 1)
  starts : ∀ length, 0 < length → length < bits → state.2[length]? = some (first lengths length)

theorem nextCode_returns {bits : Nat} {blCount : List Nat} {state : Nat × List Nat}
    (room : ∀ length ≤ maxCodeBits, used lengths length ≤ 2 ^ length)
    (counted : CodesCounted lengths lengths.length blCount) (firstCodes : FirstCodes lengths bits state)
    (positive : 0 < bits) (inside : bits ≤ maxCodeBits) :
    Checked.Returns (FirstCodes lengths (bits + 1)) (nextCode blCount bits state) := by
  obtain ⟨code, nextCodes⟩ := state
  obtain ⟨size, isCode, starts⟩ := firstCodes
  dsimp only at size isCode starts
  have size' := counted.size
  apply (Checked.returns_get (by omega)).bind
  intro count isCount
  rw [counted.counts (bits - 1) (by omega), List.take_length] at isCount
  obtain rfl := Option.some.inj isCount
  have isNext : (code + countOf lengths (bits - 1)) <<< 1 = first lengths bits := by
    rw [isCode, Nat.shiftLeft_eq, Nat.pow_one, Nat.mul_comm]
    obtain ⟨shorter, rfl⟩ := Nat.exists_eq_add_one.mpr positive
    rfl
  have fits : first lengths bits ≤ 2 ^ maxCodeBits := by
    have bound := (Nat.le_add_right _ _).trans (room bits inside)
    exact bound.trans (Nat.pow_le_pow_right Nat.two_pos inside)
  have fits16 : 2 ^ maxCodeBits < 2 ^ 16 := by decide
  rw [isNext, Nat.mod_eq_of_lt (by omega)]
  apply (Checked.returns_set (by omega) _).bind
  rintro _ rfl
  apply Checked.Returns.ok
  refine ⟨by rw [List.length_set, size], by rw [Nat.add_sub_cancel], fun length positive' upper => ?_⟩
  dsimp only
  rw [List.getElem?_set]
  split
  · rename_i same
    rw [if_pos (by omega), same, Nat.mod_eq_of_lt (by rw [← same]; omega)]
  · exact starts length positive' (by omega)

/-- The first `i` symbols have their codes, and each length has its next one. -/
structure CodesAssigned (lengths : List Nat) (i : Nat) (state : List Nat × List Nat) : Prop where
  size : state.1.length = maxCodeBits + 2
  room : state.2.length = lengths.length
  next : ∀ length, 0 < length → length ≤ maxCodeBits →
    state.1[length]? = some (first lengths length + (lengths.take i).count length)
  codes : ∀ symbol < i, state.2[symbol]? =
    some (if lengths.getD symbol 0 = 0 then 0 else code lengths symbol)

theorem assignCode_returns {i : Nat} {state : List Nat × List Nat}
    (bounded : ∀ x ∈ lengths, x ≤ maxCodeBits)
    (room : ∀ length ≤ maxCodeBits, used lengths length ≤ 2 ^ length)
    (assigned : CodesAssigned lengths i state) (inside : i < lengths.length) :
    Checked.Returns (CodesAssigned lengths (i + 1)) (assignCode lengths i state) := by
  obtain ⟨nextCodes, codes⟩ := state
  obtain ⟨size, size', isNext, areCodes⟩ := assigned
  dsimp only at size size' isNext areCodes
  apply (Checked.returns_get inside).bind
  intro length isLength
  have grown := take_add_one_of_getElem? isLength
  have small := bounded length (List.mem_of_getElem? isLength)
  have isSymbol : lengths.getD i 0 = length := by
    rw [List.getD_eq_getElem?_getD, isLength]
    rfl
  split
  · rename_i notZero
    have positive := Nat.pos_of_ne_zero notZero
    have isCode : first lengths length + (lengths.take i).count length = code lengths i := by
      rw [code, rank, isSymbol]
    have fits : code lengths i + 1 < 2 ^ 16 := by
      have before := code_lt_used inside (by rw [isSymbol]; exact notZero)
      have bound := (room length small).trans (Nat.pow_le_pow_right Nat.two_pos small)
      have fits16 : 2 ^ maxCodeBits + 1 < 2 ^ 16 := by decide
      rw [isSymbol] at before
      omega
    apply (Checked.returns_get (by omega)).bind
    intro next isRead
    rw [isNext length positive small, isCode] at isRead
    obtain rfl := Option.some.inj isRead
    apply (Checked.returns_set (by omega) _).bind
    rintro _ rfl
    apply (Checked.returns_set (by omega) _).bind
    rintro _ rfl
    apply Checked.Returns.ok
    refine ⟨by rw [List.length_set, size], by rw [List.length_set, size'],
      fun x positive' small' => ?_, fun symbol earlier => ?_⟩
    · dsimp only
      rw [List.getElem?_set, grown, List.count_append]
      split
      · rename_i same
        subst same
        rw [if_pos (by omega), List.count_singleton_self, ← Nat.add_assoc, isCode,
          Nat.mod_eq_of_lt fits]
      · rename_i different
        rw [isNext x positive' small', List.count_singleton, if_neg (by simpa using different)]
        rfl
    · dsimp only
      rw [List.getElem?_set]
      split
      · rename_i same
        subst same
        rw [if_pos (by omega), isSymbol, if_neg notZero]
      · rename_i different
        exact areCodes symbol (by omega)
  · rename_i isZero
    have zero : length = 0 := not_not.mp isZero
    apply (Checked.returns_set (by omega) _).bind
    rintro _ rfl
    apply Checked.Returns.ok
    refine ⟨size, by rw [List.length_set, size'], fun x positive small' => ?_,
      fun symbol earlier => ?_⟩
    · dsimp only
      rw [isNext x positive small', grown, List.count_append, List.count_singleton,
        if_neg (by simp; omega)]
      rfl
    · dsimp only
      rw [List.getElem?_set]
      split
      · rename_i same
        subst same
        rw [if_pos (by omega), isSymbol, if_pos zero]
      · rename_i different
        exact areCodes symbol (by omega)

/-- The codes of a code with room are the canonical ones; symbols without a length get
zero. -/
theorem huffAssignCodes_returns (bounded : ∀ x ∈ lengths, x ≤ maxCodeBits)
    (few : lengths.length < 2 ^ 16) (kraft : Kraft lengths) :
    Checked.Returns (fun codes => codes.length = lengths.length ∧ ∀ symbol < lengths.length,
      codes[symbol]? = some (if lengths.getD symbol 0 = 0 then 0 else code lengths symbol))
      (huffAssignCodes lengths lengths.length) := by
  have room : ∀ length ≤ maxCodeBits, used lengths length ≤ 2 ^ length :=
    fun length small => kraft.room bounded small
  apply (Checked.returns_forFrom (CodesCounted lengths) ?_ fun i blCount _ upper counted =>
    countCode_returns bounded few counted (by omega)).bind
  · intro blCount counted
    rw [Nat.zero_add] at counted
    apply (Checked.returns_forFrom (FirstCodes lengths) ?_ fun bits state lower upper firstCodes =>
      nextCode_returns room counted firstCodes (by omega) (by omega)).bind
    · rintro ⟨_, nextCodes⟩ ⟨size, -, starts⟩
      apply (Checked.returns_forFrom (CodesAssigned lengths) ?_ fun i state _ upper assigned =>
        assignCode_returns bounded room assigned (by omega)).bind
      · rintro ⟨_, codes⟩ ⟨-, size', -, areCodes⟩
        rw [Nat.zero_add] at areCodes
        exact Checked.Returns.ok ⟨size', areCodes⟩
      · refine ⟨size, List.length_replicate, fun length positive small => ?_,
          fun _ earlier => absurd earlier (Nat.not_lt_zero _)⟩
        rw [List.take_zero, List.count_nil, Nat.add_zero]
        exact starts length positive (by omega)
    · exact ⟨List.length_replicate, rfl, fun length positive upper => absurd upper (by omega)⟩
  · refine ⟨List.length_replicate, fun length small => ?_⟩
    rw [List.getElem?_replicate_of_lt (by omega), List.take_zero, countOf, List.count_nil, ite_self]

/-! ## Building the decoder -/

theorem countLength_sure {i : Nat} {counts : List Nat} (bounded : ∀ x ∈ lengths, x ≤ maxCodeBits) :
    Checked.Sure (countLength lengths i counts) := by
  apply (Checked.sure_get _ _).bind
  intro length isRead
  have small : length ≤ maxCodeBits := by
    rw [Checked.get] at isRead
    split at isRead
    · rename_i x isLength
      obtain rfl := Except.ok.inj isRead
      exact bounded x (List.mem_of_getElem? isLength)
    · cases isRead
  rw [if_neg (by omega)]
  apply (Checked.sure_get _ _).bind
  intro count _
  exact Checked.sure_set _ _ _

theorem addOffset_sure (counts : List Nat) (bits : Nat) (offsets : List Nat) :
    Checked.Sure (addOffset counts bits offsets) := by
  apply (Checked.sure_get _ _).bind
  intro offset _
  apply (Checked.sure_get _ _).bind
  intro count _
  exact Checked.sure_set _ _ _

theorem placeSymbol_sure (i : Nat) (tables : List Nat × List (Option Nat)) :
    Checked.Sure (placeSymbol lengths i tables) := by
  apply (Checked.sure_get _ _).bind
  intro length _
  split
  · apply (Checked.sure_get _ _).bind
    intro offset _
    apply (Checked.sure_set _ _ _).bind
    intro symbols _
    apply (Checked.sure_set _ _ _).bind
    intro offsets _
    exact Checked.sure_ok _
  · exact Checked.sure_ok _

/-- The check counts the words that are left. -/
theorem checkLeft_eq {counts : List Nat} (final : FinalCounts lengths counts) {length : Nat}
    (small : length < maxCodeBits) :
    checkLeft counts (length + 1) ((2 ^ length : Nat) - (used lengths length : Nat) : Int) =
      if used lengths (length + 1) ≤ 2 ^ (length + 1) then
        .ok ((2 ^ (length + 1) : Nat) - (used lengths (length + 1) : Nat) : Int)
      else Checked.fail .corrupt := by
  have isCount := final.counts (length + 1) (Nat.succ_pos length) small
  have isLeft : ((2 ^ length : Nat) - (used lengths length : Nat) : Int) * 2 -
      lengths.count (length + 1) =
        ((2 ^ (length + 1) : Nat) - (used lengths (length + 1) : Nat) : Int) := by
    rw [used_succ, Nat.pow_succ]
    omega
  rw [checkLeft, Checked.get, isCount]
  show (if _ < 0 then _ else _) = _
  rw [isLeft]
  by_cases room : used lengths (length + 1) ≤ 2 ^ (length + 1)
  · rw [if_neg (by omega), if_pos room]
    rfl
  · rw [if_pos (by omega), if_neg room]

/-- The loop rejects a code exactly if it has no room at the longest length. -/
theorem checkLeft_loop {counts : List Nat} (final : FinalCounts lengths counts) (turns : Nat)
    {length : Nat} (isLast : length + turns = maxCodeBits)
    (room : used lengths length ≤ 2 ^ length) :
    Checked.forFrom (checkLeft counts) (length + 1) turns
        ((2 ^ length : Nat) - (used lengths length : Nat) : Int) =
      if used lengths maxCodeBits ≤ 2 ^ maxCodeBits then
        .ok ((2 ^ maxCodeBits : Nat) - (used lengths maxCodeBits : Nat) : Int)
      else Checked.fail .corrupt := by
  induction turns generalizing length with
  | zero =>
      rw [Nat.add_zero] at isLast
      rw [isLast] at room ⊢
      rw [if_pos room]
      rfl
  | succ turns induction =>
      rw [Checked.forFrom, checkLeft_eq final (by omega)]
      by_cases room' : used lengths (length + 1) ≤ 2 ^ (length + 1)
      · rw [if_pos room']
        exact induction (by omega) room'
      · have noRoom : ¬ used lengths maxCodeBits ≤ 2 ^ maxCodeBits := fun fits =>
          room' (used_le_two_pow fits (by omega))
        rw [if_neg room', if_neg noRoom]
        rfl

/-- The counts that the check looks at. -/
theorem counts_returns (bounded : ∀ x ∈ lengths, x ≤ maxCodeBits) :
    Checked.Returns (FinalCounts lengths) (do
      let counts ← Checked.forFrom (countLength lengths) 0 lengths.length
        (List.replicate (maxCodeBits + 1) 0)
      Checked.set counts 0 0 : Df (List Nat)) := by
  apply (Checked.returns_forFrom (Counted lengths) ?_ fun i counts _ upper counted =>
    (countLength_safe counted (by omega)).returns (countLength_sure bounded)).bind
  · intro counts counted
    rw [Nat.zero_add] at counted
    have size := counted.size
    apply (Checked.returns_set (by omega) 0).mono
    rintro _ rfl
    refine ⟨by rw [List.length_set, size], fun length positive small => ?_⟩
    rw [List.getElem?_set_ne (by omega), counted.counts length small, List.take_length]
  · refine ⟨List.length_replicate, (fun _ member => absurd member List.not_mem_nil), fun length small => ?_⟩
    rw [List.getElem?_replicate_of_lt (by omega), List.take_zero, List.count_nil]

/-- The lengths are rejected exactly if they leave no room; otherwise the tables are
built. -/
theorem huffBuildDecoder_eq (bounded : ∀ x ∈ lengths, x ≤ maxCodeBits)
    (fits : lengths.length ≤ numLiterals) :
    (Kraft lengths → Checked.Returns (fun d => Decodes d lengths)
      (huffBuildDecoder lengths lengths.length)) ∧
    (¬ Kraft lengths → huffBuildDecoder lengths lengths.length = Checked.fail .corrupt) := by
  obtain ⟨counts, isCounted, final⟩ := counts_returns bounded
  have check : Checked.forFrom (checkLeft counts) 1 maxCodeBits 1 = _ :=
    checkLeft_loop final maxCodeBits (Nat.zero_add _) (Nat.zero_le _)
  rw [Kraft, kraftSum_eq_used bounded]
  constructor
  · intro room
    have safe := huffBuildDecoder_safe (Nat.le_refl lengths.length) fits
    rw [List.take_length] at safe
    apply safe.returns
    rw [huffBuildDecoder, ← bind_assoc, isCounted]
    show Checked.Sure (Checked.forFrom (checkLeft counts) 1 maxCodeBits 1 >>= _)
    rw [check, if_pos room]
    apply (Checked.sure_forFrom (addOffset_sure counts) _ _ _).bind
    intro offsets _
    apply (Checked.sure_forFrom placeSymbol_sure _ _ _).bind
    intro tables _
    exact Checked.sure_ok _
  · intro noRoom
    rw [huffBuildDecoder, ← bind_assoc, isCounted]
    show Checked.forFrom (checkLeft counts) 1 maxCodeBits 1 >>= _ = _
    rw [check, if_neg noRoom]
    rfl

end Lengths

/-! ## Decoding -/

section Decoding

variable {lengths : List Nat} {d : HuffDec} {symbol : Nat} {rest : List Bool}

theorem first_succ (lengths : List Nat) {length : Nat} (positive : length ≠ 0) :
    first lengths (length + 1) = 2 * (first lengths length + lengths.count length) := by
  rw [first, countOf, if_neg positive]

/-- The next bit of a code joins those that were read. -/
theorem join_bit (value left : Nat) : value / 2 ^ (left + 1) * 2 |||
    (decide (value / 2 ^ left % 2 = 1)).toNat = value / 2 ^ left := by
  have isBit : (decide (value / 2 ^ left % 2 = 1)).toNat = value / 2 ^ left % 2 := by
    rcases Nat.mod_two_eq_zero_or_one (value / 2 ^ left) with isEven | isOdd
    · simp [isEven]
    · simp [isOdd]
  have small : value / 2 ^ left % 2 < 2 ^ 1 := Nat.mod_lt _ Nat.two_pos
  have shifted : value / 2 ^ left % 2 ||| (value / 2 ^ (left + 1)) <<< 1 =
      value / 2 ^ left % 2 + 2 ^ 1 * (value / 2 ^ (left + 1)) := or_shift_eq small
  rw [Nat.shiftLeft_eq, Nat.pow_one] at shifted
  rw [isBit, Nat.or_comm, shifted, Nat.pow_succ, ← Nat.div_div_eq_div_mul]
  omega

/-- From each length on: the bits of the code that were read come after all codes that
are as short, until the code is complete. -/
theorem huffDecodeFrom_code (decodes : Decodes d lengths) (inside : symbol < lengths.length)
    {length : Nat} (isLength : lengths.getD symbol 0 = length) (turns left : Nat) {len : Nat}
    {r : Bitreader} (positive : 0 < len) (isLast : len + turns = maxCodeBits + 1)
    (isLeft : len + left = length)
    (delivers : Delivers r (wordOf (code lengths symbol) (left + 1) ++ rest)) :
    ∃ r', huffDecodeFrom d turns len (code lengths symbol / 2 ^ (left + 1) * 2) (first lengths len)
      (below lengths len) r = .ok (symbol, r') ∧ Delivers r' rest := by
  have isSymbol : lengths[symbol]? = some length := by
    rw [← isLength, List.getD_eq_getElem _ _ inside, List.getElem?_eq_getElem inside]
  have bounded := decodes.bounded length (List.mem_of_getElem? isSymbol)
  induction turns generalizing left len r with
  | zero => omega
  | succ turns induction =>
      rw [wordOf_succ, List.cons_append] at delivers
      obtain ⟨r', read, delivers'⟩ := brBits_bit delivers
      have isCount := decodes.counts len positive (by omega)
      rw [huffDecodeFrom, read]
      dsimp only [bind, Except.bind]
      rw [join_bit, Checked.get, isCount]
      dsimp only
      cases left with
      | zero =>
          rw [Nat.add_zero] at isLeft
          subst isLeft
          have isCode : code lengths symbol = first lengths len + rank lengths symbol := by
            rw [code, isLength]
          have inCount := Foundation.CanonicalCode.rank_lt inside
          rw [isLength] at inCount
          have isPlace : below lengths len + rank lengths symbol = place lengths symbol := by
            rw [place, rank, isLength]
          have isEntry := decodes.symbols symbol len isSymbol positive
          rw [Nat.pow_zero, Nat.div_one, isCode, if_pos (by omega), if_neg (by omega)]
          have isIndex : ((below lengths len : Int) +
              (((first lengths len + rank lengths symbol : Nat) : Int) - first lengths len)).toNat =
                place lengths symbol := by omega
          rw [isIndex, Checked.getInit, isEntry]
          exact ⟨r', rfl, delivers'⟩
      | succ left =>
          have after := used_le_front (by omega : len < lengths.getD symbol 0)
          have isLeft' : lengths.getD symbol 0 - len = left + 1 := by omega
          rw [isLeft', used, countOf, if_neg (by omega)] at after
          rw [if_neg (by omega)]
          have next := induction left (Nat.succ_pos len) (by omega) (by omega) delivers'
          rw [first_succ lengths (by omega), below_succ lengths positive] at next
          rw [Nat.shiftLeft_eq, Nat.shiftLeft_eq, Nat.pow_one, Nat.mul_comm (first lengths len + _)]
          exact next

/-- The bits of a code are decoded to its symbol. -/
theorem huffDecode_code (decodes : Decodes d lengths) (kraft : Kraft lengths)
    (inside : symbol < lengths.length) (positive : lengths.getD symbol 0 ≠ 0) {r : Bitreader}
    (delivers : Delivers r (wordOf (code lengths symbol) (lengths.getD symbol 0) ++ rest)) :
    ∃ r', huffDecode d r = .ok (symbol, r') ∧ Delivers r' rest := by
  obtain ⟨left, isLeft⟩ := Nat.exists_eq_add_one.mpr (Nat.pos_of_ne_zero positive)
  have isMember : lengths.getD symbol 0 ∈ lengths := by
    rw [List.getD_eq_getElem _ _ inside]
    exact List.getElem_mem inside
  have fits := code_lt (kraft.fits decodes.bounded) inside positive (decodes.bounded _ isMember)
  rw [isLeft] at delivers fits
  have decoded := huffDecodeFrom_code decodes inside isLeft maxCodeBits left Nat.one_pos
    (Nat.add_comm 1 maxCodeBits) (Nat.add_comm 1 left) delivers
  rw [Nat.div_eq_of_lt fits, below_one] at decoded
  exact decoded

end Decoding

/-! ## Writing and reading symbols -/

def writeSymbols (lengths codes : List Nat) (w : Bitwriter) (symbols : List Nat) :
    Option Bitwriter :=
  symbols.foldlM (fun w symbol => bwCode w (codes.getD symbol 0) (lengths.getD symbol 0)) w

def decodeSymbols (d : HuffDec) : (count : Nat) → Bitreader → Df (List Nat × Bitreader)
  | 0, r => .ok ([], r)
  | count + 1, r => do
      let (symbol, r) ← huffDecode d r
      let (symbols, r) ← decodeSymbols d count r
      return (symbol :: symbols, r)

section Symbols

variable {lengths : List Nat}

/-- The bits of the symbols, one after the other. -/
def symbolBits (lengths symbols : List Nat) : List Bool :=
  symbols.flatMap fun symbol => wordOf (code lengths symbol) (lengths.getD symbol 0)

theorem inside_of_getD {symbol : Nat} (positive : lengths.getD symbol 0 ≠ 0) :
    symbol < lengths.length := by
  by_contra outside
  exact positive (List.getD_eq_default _ _ (Nat.le_of_not_lt outside))

theorem getD_le {limit : Nat} (bounded : ∀ x ∈ lengths, x ≤ limit) (symbol : Nat) :
    lengths.getD symbol 0 ≤ limit := by
  by_cases inside : symbol < lengths.length
  · rw [List.getD_eq_getElem _ _ inside]
    exact bounded _ (List.getElem_mem inside)
  · rw [List.getD_eq_default _ _ (Nat.le_of_not_lt inside)]
    exact Nat.zero_le _

theorem decodeSymbols_bits {d : HuffDec} (decodes : Decodes d lengths) (kraft : Kraft lengths)
    {symbols : List Nat} (coded : ∀ symbol ∈ symbols, lengths.getD symbol 0 ≠ 0) {rest : List Bool} :
    ∀ {r : Bitreader}, Delivers r (symbolBits lengths symbols ++ rest) →
      ∃ r', decodeSymbols d symbols.length r = .ok (symbols, r') ∧ Delivers r' rest := by
  induction symbols with
  | nil => exact fun {r} delivers => ⟨r, rfl, delivers⟩
  | cons symbol symbols induction =>
      intro r delivers
      rw [symbolBits, List.flatMap_cons, List.append_assoc] at delivers
      have positive := coded symbol List.mem_cons_self
      obtain ⟨r', decoded, delivers'⟩ :=
        huffDecode_code decodes kraft (inside_of_getD positive) positive delivers
      obtain ⟨r'', decoded', delivers''⟩ :=
        induction (fun other member => coded other (.tail _ member)) delivers'
      refine ⟨r'', ?_, delivers''⟩
      rw [List.length_cons, decodeSymbols, decoded]
      dsimp only [bind, Except.bind]
      rw [decoded']
      rfl

theorem length_symbolBits (lengths symbols : List Nat) :
    (symbolBits lengths symbols).length = (symbols.map (lengths.getD · 0)).sum := by
  induction symbols with
  | nil => rfl
  | cons symbol symbols induction =>
      rw [symbolBits, List.flatMap_cons, List.length_append, length_wordOf, List.map_cons,
        List.sum_cons, ← induction]
      rfl

theorem writeSymbols_appends {codes : List Nat} (bounded : ∀ x ∈ lengths, x ≤ maxCodeBits)
    {symbols : List Nat}
    (areCodes : ∀ symbol ∈ symbols, codes.getD symbol 0 = code lengths symbol) :
    Appends (fun w => writeSymbols lengths codes w symbols)
      (fun bits => bits ++ symbolBits lengths symbols) := by
  apply Appends.foldlM
  intro symbol member
  rw [areCodes symbol member]
  have small := getD_le bounded symbol
  have fits : maxCodeBits ≤ 16 := by decide
  exact appends_bwCode _ (small.trans fits)

end Symbols

/-- The lengths are rejected exactly if they break Kraft's inequality. Otherwise the codes
fit their lengths and none begins another one, and symbols that are written with their
codes are read back. -/
theorem canonical_codes_round_trip (lengths : List Nat) (fits : lengths.length ≤ numLiterals)
    (bounded : ∀ x ∈ lengths, x ≤ maxCodeBits) :
    (huffBuildDecoder lengths lengths.length = Checked.fail .corrupt ↔ ¬ Kraft lengths) ∧
    (Kraft lengths → ∃ codes d, huffAssignCodes lengths lengths.length = .ok codes ∧
      huffBuildDecoder lengths lengths.length = .ok d ∧
      (∀ symbol, lengths.getD symbol 0 ≠ 0 → codes.getD symbol 0 < 2 ^ lengths.getD symbol 0) ∧
      (∀ symbol symbol', lengths.getD symbol 0 ≠ 0 → lengths.getD symbol' 0 ≠ 0 →
        wordOf (codes.getD symbol 0) (lengths.getD symbol 0) <+:
          wordOf (codes.getD symbol' 0) (lengths.getD symbol' 0) → symbol = symbol') ∧
      ∀ symbols cap, (∀ symbol ∈ symbols, lengths.getD symbol 0 ≠ 0) →
        (symbols.map (lengths.getD · 0)).sum ≤ 8 * cap → ∃ w w' r,
          writeSymbols lengths codes (bwInit cap) symbols = some w ∧
          bwFinish w = some (w'.out.length, w') ∧ w'.overflow = false ∧
          decodeSymbols d symbols.length (brInit w'.out) = .ok (symbols, r) ∧
          r.underflow = false) := by
  obtain ⟨builds, rejects⟩ := huffBuildDecoder_eq bounded fits
  constructor
  · constructor
    · intro rejected kraft
      obtain ⟨d, built, -⟩ := builds kraft
      rw [built] at rejected
      exact nomatch rejected
    · exact rejects
  intro kraft
  obtain ⟨d, built, decodes⟩ := builds kraft
  have few : lengths.length < 2 ^ 16 := Nat.lt_of_le_of_lt fits (by decide)
  obtain ⟨codes, assigned, -, areCodes⟩ := huffAssignCodes_returns bounded few kraft
  have isCode : ∀ symbol, lengths.getD symbol 0 ≠ 0 → codes.getD symbol 0 = code lengths symbol := by
    intro symbol positive
    rw [List.getD_eq_getElem?_getD, areCodes symbol (inside_of_getD positive), if_neg positive]
    rfl
  refine ⟨codes, d, assigned, built, ?_, ?_, ?_⟩
  · intro symbol positive
    rw [isCode symbol positive]
    exact code_lt (kraft.fits bounded) (inside_of_getD positive) positive (getD_le bounded symbol)
  · intro symbol symbol' positive positive' isPrefix
    rw [isCode symbol positive, isCode symbol' positive'] at isPrefix
    exact prefix_free (kraft.fits bounded) bounded (inside_of_getD positive)
      (inside_of_getD positive') positive positive' isPrefix
  · intro symbols cap coded room
    have appends : Appends (fun w => writeSymbols lengths codes w symbols)
        (fun bits => bits ++ symbolBits lengths symbols) :=
      writeSymbols_appends bounded fun symbol member => isCode symbol (coded symbol member)
    have isLong := length_symbolBits lengths symbols
    obtain ⟨w, ran⟩ := appends.returns (Written.initial cap) (by
      rw [List.nil_append, isLong]
      exact room.trans (Nat.le_add_right _ _))
    obtain ⟨sameCap, written⟩ := appends.sound (Written.initial cap) ran
    rw [List.nil_append] at written
    obtain ⟨w', finished, clear, areBits⟩ := bwFinish_fits written (by rw [sameCap, isLong]; exact room)
    have delivers := delivers_brInit w'.out
    rw [areBits, align] at delivers
    obtain ⟨r, decoded, delivers'⟩ := decodeSymbols_bits decodes kraft coded delivers
    exact ⟨w, w', r, ran, finished, clear, decoded, delivers'.clear⟩

theorem canonical_codes_round_trip_small : ∃ codes d, huffAssignCodes [1, 0, 2] 3 = .ok codes ∧
    huffBuildDecoder [1, 0, 2] 3 = .ok d ∧ codes.getD 2 0 < 4 := by
  have bounded : ∀ x ∈ [1, 0, 2], x ≤ maxCodeBits := by decide
  have kraft : Kraft [1, 0, 2] := by decide
  obtain ⟨codes, d, assigned, built, fits, -⟩ :=
    (canonical_codes_round_trip [1, 0, 2] (by decide) bounded).2 kraft
  exact ⟨codes, d, assigned, built, fits 2 (by decide)⟩

end FoundationsLab.Deflate
