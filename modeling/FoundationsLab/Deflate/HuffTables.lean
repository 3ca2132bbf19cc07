import FoundationsLab.Deflate.HuffDec

/-! # What the tables hold

After `huff_build_decoder` each count is the number of symbols of a length, and each
symbol is at its place. So decoding reads only entries that were written. -/

namespace FoundationsLab.Deflate

/-- The tables of a decoder for these code lengths. -/
structure Decodes (d : HuffDec) (lengths : List Nat) : Prop where
  size : d.counts.length = maxCodeBits + 1
  counts : ∀ length, 0 < length → length ≤ maxCodeBits →
    d.counts[length]? = some (lengths.count length)
  symbols : ∀ symbol length, lengths[symbol]? = some length → 0 < length →
    d.symbols[place lengths symbol]? = some (some symbol)
  bounded : ∀ length ∈ lengths, length ≤ maxCodeBits

variable {lengths counts : List Nat} {i n : Nat}

theorem take_add_one_of_getElem? {x : Nat} (isLength : lengths[i]? = some x) :
    lengths.take (i + 1) = lengths.take i ++ [x] := by
  rw [List.take_add_one, isLength]
  rfl

/-! ## Building -/

/-- The counts after the first `i` symbols. -/
structure Counted (lengths : List Nat) (i : Nat) (counts : List Nat) : Prop where
  size : counts.length = maxCodeBits + 1
  bounded : ∀ length ∈ lengths.take i, length ≤ maxCodeBits
  counts : ∀ length ≤ maxCodeBits, counts[length]? = some ((lengths.take i).count length)

theorem countLength_safe (counted : Counted lengths i counts) (inside : i < lengths.length) :
    Checked.Safe (Counted lengths (i + 1)) (countLength lengths i counts) := by
  have size := counted.size
  rw [countLength]
  refine (Checked.safe_get inside).bind fun length isLength => ?_
  have grown := take_add_one_of_getElem? isLength
  split
  · exact .fail _
  · rename_i fits
    refine (Checked.safe_get (by omega)).bind fun count isCount => ?_
    refine (Checked.safe_set (by omega) _).mono fun counts' isSet => ?_
    subst isSet
    refine ⟨by rw [List.length_set, size], fun x member => ?_, fun x small => ?_⟩
    · rw [grown, List.mem_append, List.mem_singleton] at member
      rcases member with old | rfl
      · exact counted.bounded x old
      · omega
    · rw [List.getElem?_set, grown, List.count_append]
      split
      · rename_i same
        subst same
        have before := counted.counts length small
        rw [isCount] at before
        rw [if_pos (by omega), Option.some.inj before, List.count_singleton_self]
      · rename_i different
        rw [counted.counts x small, List.count_singleton, if_neg (by simpa using different)]
        rfl

/-- The counts as they are used: none for the length zero. -/
structure FinalCounts (lengths counts : List Nat) : Prop where
  size : counts.length = maxCodeBits + 1
  counts : ∀ length, 0 < length → length ≤ maxCodeBits →
    counts[length]? = some (lengths.count length)

theorem checkLeft_safe (final : FinalCounts lengths counts) {bits : Nat}
    (inside : bits ≤ maxCodeBits) (left : Int) :
    Checked.Safe (fun _ => True) (checkLeft counts bits left) := by
  have size := final.size
  refine (Checked.safe_get (by omega)).bind fun count _ => ?_
  dsimp only
  split
  · exact .fail _
  · exact .ok trivial

/-- The offsets up to a length. -/
structure Offsets (lengths : List Nat) (bits : Nat) (offsets : List Nat) : Prop where
  size : offsets.length = maxCodeBits + 2
  starts : ∀ length, 0 < length → length ≤ bits → offsets[length]? = some (below lengths length)

theorem addOffset_safe (final : FinalCounts lengths counts) {bits : Nat} {offsets : List Nat}
    (starts : Offsets lengths bits offsets) (positive : 0 < bits) (inside : bits ≤ maxCodeBits) :
    Checked.Safe (Offsets lengths (bits + 1)) (addOffset counts bits offsets) := by
  have size := starts.size
  have size' := final.size
  refine (Checked.safe_get (by omega)).bind fun offset isOffset => ?_
  refine (Checked.safe_get (by omega)).bind fun count isCount => ?_
  refine (Checked.safe_set (by omega) _).mono fun offsets' isSet => ?_
  subst isSet
  refine ⟨by rw [List.length_set, size], fun length positive' upper => ?_⟩
  rw [List.getElem?_set]
  split
  · rename_i same
    have start := starts.starts bits positive (Nat.le_refl _)
    have number := final.counts bits positive inside
    rw [isOffset] at start
    rw [isCount] at number
    rw [if_pos (by omega), ← same, below_succ lengths positive, Option.some.inj start,
      Option.some.inj number]
  · exact starts.starts length positive' (by omega)

/-- The first `i` symbols are at their places, and each offset is the next place for its
length. -/
structure Placed (lengths : List Nat) (i : Nat) (tables : List Nat × List (Option Nat)) :
    Prop where
  size : tables.1.length = maxCodeBits + 2
  room : tables.2.length = numLiterals
  offsets : ∀ length, 0 < length → length ≤ maxCodeBits →
    tables.1[length]? = some (below lengths length + (lengths.take i).count length)
  symbols : ∀ symbol length, symbol < i → lengths[symbol]? = some length → 0 < length →
    tables.2[place lengths symbol]? = some (some symbol)

theorem placeSymbol_safe {tables : List Nat × List (Option Nat)} {whole : List Nat}
    (isUsed : lengths = whole.take n) (placed : Placed lengths i tables)
    (bounded : ∀ length ∈ lengths, length ≤ maxCodeBits) (fits : lengths.length ≤ numLiterals)
    (inside : i < lengths.length) :
    Checked.Safe (Placed lengths (i + 1)) (placeSymbol whole i tables) := by
  obtain ⟨offsets, symbols⟩ := tables
  obtain ⟨size, room, isOffset, isSymbol⟩ := placed
  dsimp only at size room isOffset isSymbol
  have inWhole : i < n ∧ i < whole.length := by
    rw [isUsed, List.length_take] at inside
    omega
  refine (Checked.safe_get inWhole.2).bind fun length isWhole => ?_
  have isLength : lengths[i]? = some length := by
    rw [isUsed, List.getElem?_take_of_lt inWhole.1, isWhole]
  have grown := take_add_one_of_getElem? isLength
  split
  · rename_i notZero
    have positive : 0 < length := Nat.pos_of_ne_zero notZero
    have small := bounded length (List.mem_of_getElem? isLength)
    have atPlace := isOffset length positive small
    rw [← place_eq isLength] at atPlace
    have free : place lengths i < numLiterals := by
      have upper := place_lt isLength positive
      have total := below_le_length lengths (length + 1)
      omega
    refine (Checked.safe_get (by omega)).bind fun offset isRead => ?_
    obtain rfl : place lengths i = offset := Option.some.inj (atPlace.symm.trans isRead)
    refine (Checked.safe_set (by omega) _).bind fun symbols' isSet => ?_
    refine (Checked.safe_set (by omega) _).bind fun offsets' isSet' => ?_
    subst isSet isSet'
    refine .ok ⟨by rw [List.length_set, size], by rw [List.length_set, room],
      fun x positive' small' => ?_, fun symbol x earlier isLength' positive' => ?_⟩
    · rw [List.getElem?_set, grown, List.count_append]
      split
      · rename_i same
        subst same
        rw [if_pos (by omega), List.count_singleton_self, place_eq isLength]
        rfl
      · rename_i different
        rw [isOffset x positive' small', List.count_singleton, if_neg (by simpa using different)]
        rfl
    · rw [List.getElem?_set]
      split
      · rename_i same
        obtain rfl := place_injective isLength isLength' positive positive' same
        rw [if_pos (by omega)]
      · rename_i different
        refine isSymbol symbol x ?_ isLength' positive'
        have notLast : symbol ≠ i := fun isLast => different (by rw [isLast])
        omega
  · rename_i isZero
    have zero : length = 0 := by omega
    refine .ok ⟨size, room, fun x positive small => ?_, fun symbol x earlier isLength' positive => ?_⟩
    · rw [isOffset x positive small, grown, List.count_append, List.count_singleton,
        if_neg (by simp; omega)]
      rfl
    · refine isSymbol symbol x ?_ isLength' positive
      have notLast : symbol ≠ i := by
        rintro rfl
        have same := Option.some.inj (isLength.symm.trans isLength')
        omega
      omega

/-- Building either rejects the lengths or leaves the tables for them. -/
theorem huffBuildDecoder_safe {lengths : List Nat} {n : Nat} (inside : n ≤ lengths.length)
    (fits : n ≤ numLiterals) :
    Checked.Safe (fun d => Decodes d (lengths.take n)) (huffBuildDecoder lengths n) := by
  have used : (lengths.take n).length = n := by rw [List.length_take, Nat.min_eq_left inside]
  rw [huffBuildDecoder]
  refine (Checked.safe_forFrom (Counted lengths) ?_ fun i counts _ upper counted =>
    countLength_safe counted (by omega)).bind fun counts counted => ?_
  · refine ⟨List.length_replicate, (fun _ member => nomatch member), fun length small => ?_⟩
    rw [List.getElem?_replicate_of_lt (by omega), List.take_zero, List.count_nil]
  rw [Nat.zero_add] at counted
  have size := counted.size
  refine (Checked.safe_set (by omega) 0).bind fun counts' isSet => ?_
  have final : FinalCounts (lengths.take n) counts' := by
    subst isSet
    refine ⟨by rw [List.length_set, size], fun length positive small => ?_⟩
    rw [List.getElem?_set_ne (by omega), counted.counts length small]
  refine (Checked.safe_forFrom (fun _ _ => True) trivial fun bits left lower upper _ =>
    checkLeft_safe final (by omega) left).bind fun _ _ => ?_
  refine (Checked.safe_forFrom (Offsets (lengths.take n)) ?_ fun bits offsets lower upper starts =>
    addOffset_safe final starts (by omega) (by omega)).bind fun offsets starts => ?_
  · refine ⟨List.length_replicate, fun length positive upper => ?_⟩
    obtain rfl : length = 1 := by omega
    rw [below_one]
    rfl
  refine (Checked.safe_forFrom (Placed (lengths.take n)) ?_ fun i tables _ upper placed =>
    placeSymbol_safe rfl placed counted.bounded (by omega) (by omega)).bind fun tables placed => ?_
  · refine ⟨starts.size, List.length_replicate, fun length positive small => ?_,
      fun _ _ earlier => absurd earlier (Nat.not_lt_zero _)⟩
    rw [List.take_zero, List.count_nil, Nat.add_zero]
    exact starts.starts length positive (by omega)
  refine .ok ⟨final.size, final.counts, fun symbol length isLength positive => ?_,
    counted.bounded⟩
  have early : symbol < (lengths.take n).length := (List.getElem?_eq_some_iff.mp isLength).1
  exact placed.symbols symbol length (by omega) isLength positive

/-! ## Decoding -/

/-- A symbol is read from a place that was filled. -/
theorem Decodes.filled {d : HuffDec} (decodes : Decodes d lengths) {index : Nat}
    (inside : index < below lengths (maxCodeBits + 1)) :
    ∃ symbol, symbol < lengths.length ∧ d.symbols[index]? = some (some symbol) := by
  obtain ⟨symbol, length, isLength, positive, isPlace⟩ := exists_place inside
  refine ⟨symbol, (List.getElem?_eq_some_iff.mp isLength).1, ?_⟩
  rw [← isPlace]
  exact decodes.symbols symbol length isLength positive

/-- From each length on: the code is never before the first one of the length. -/
theorem huffDecodeFrom_safe {d : HuffDec} (decodes : Decodes d lengths) (turns len : Nat)
    {code first : Nat} (r : Bitreader) (positive : 0 < len)
    (isLast : len + turns = maxCodeBits + 1) (order : first ≤ code) :
    Checked.Safe (fun (symbol, r') => symbol < lengths.length ∧ Reads 1 r r')
      (huffDecodeFrom d turns len code first (below lengths len) r) := by
  induction turns generalizing len code first r with
  | zero => exact .fail _
  | succ turns induction =>
      have size := decodes.size
      rw [huffDecodeFrom]
      refine (brBits_reads r 1).bind fun (bit, r') ⟨_, reads⟩ => ?_
      have grows : code ≤ code ||| bit := Nat.left_le_or
      dsimp only at reads ⊢
      refine (Checked.safe_get (by omega)).bind fun count isCount => ?_
      have number := decodes.counts len positive (by omega)
      obtain rfl : count = lengths.count len := Option.some.inj (isCount.symm.trans number)
      have next := below_succ lengths positive
      split
      · rename_i inside
        rw [if_neg (by omega)]
        have early : ((below lengths len : Int) + ((code ||| bit : Nat) - first)).toNat <
            below lengths (maxCodeBits + 1) := by
          have total := below_mono lengths (by omega : len + 1 ≤ maxCodeBits + 1)
          omega
        obtain ⟨symbol, small, isSymbol⟩ := decodes.filled early
        refine (Checked.safe_getInit isSymbol).bind fun symbol' same => ?_
        subst same
        exact .ok ⟨small, reads⟩
      · rename_i beyond
        have order' : (first + lengths.count len) <<< 1 ≤ (code ||| bit) <<< 1 := by
          rw [Nat.shiftLeft_eq, Nat.shiftLeft_eq]
          omega
        have rest := induction (len + 1) r' (Nat.succ_pos _) (by omega) order'
        rw [next] at rest
        exact rest.mono fun _ ⟨small, reads'⟩ => ⟨small, (reads.trans reads').weaken (by omega)⟩

theorem huffDecode_safe {d : HuffDec} (decodes : Decodes d lengths) (r : Bitreader) :
    Checked.Safe (fun (symbol, r') => symbol < lengths.length ∧ Reads 1 r r') (huffDecode d r) := by
  have safe := huffDecodeFrom_safe decodes maxCodeBits 1 r Nat.one_pos (by omega) (Nat.le_refl 0)
  rwa [below_one] at safe

end FoundationsLab.Deflate
