import FoundationsLab.Deflate.DynamicHeader

/-! # The header is read back

What the encoder writes before the symbols of a dynamic block leads the decoder to the
tables of the two codes. -/

namespace FoundationsLab.Deflate

open Foundation.BitStream Foundation.CanonicalCode

/-! ## The bits of a header -/

/-- The number of extra bits that go with a packed symbol. -/
def extraBits (symbol : Nat) : Nat :=
  if symbol = 16 then 2 else if symbol = 17 then 3 else if symbol = 18 then 7 else 0

def packedBits (clLen : List Nat) (entry : Nat × Nat) : List Bool :=
  wordOf (code clLen entry.1) (clLen.getD entry.1 0) ++ bitsOf (extraBits entry.1) entry.2

def codelenBits (clLen : List Nat) (i : Nat) : List Bool :=
  bitsOf 3 (clLen.getD (codelenOrder.getD i 0) 0)

def headerBits (header : DynamicHeader) : List Bool :=
  bitsOf 5 (header.hlit - 257) ++ (bitsOf 5 (header.hdist - 1) ++ (bitsOf 4 (header.hclen - 4) ++
    ((List.range header.hclen).flatMap (codelenBits header.clLen) ++
      header.packed.flatMap (packedBits header.clLen))))

section Writing

variable {litLen distLen : List Nat} {header : DynamicHeader}

theorem getElem?_of_getD {lengths : List Nat} {i : Nat} (inside : i < lengths.length) :
    lengths[i]? = some (lengths.getD i 0) := by
  rw [List.getElem?_eq_getElem inside, List.getD_eq_getElem _ _ inside]

theorem writeCodelen_appends (plan : Plan litLen distLen header) {i : Nat} (inside : i < numCodelen) :
    Appends (fun w => writeCodelen header.clLen w i)
      (fun bits => bits ++ codelenBits header.clLen i) := by
  have isSymbol : codelenOrder[i]? = some (codelenOrder.getD i 0) := getElem?_of_getD inside
  have isLength := getElem?_of_getD (plan.size ▸ codelenOrder_getD_lt :
    codelenOrder.getD i 0 < header.clLen.length)
  simp only [writeCodelen, isSymbol, isLength, Option.bind_eq_bind, Option.bind_some]
  exact appends_bwBits _ (by decide)

theorem writePacked_appends (plan : Plan litLen distLen header) {entry : Nat × Nat}
    (member : entry ∈ header.packed) :
    Appends (fun w => writePacked header.clLen header.clCode w entry)
      (fun bits => bits ++ packedBits header.clLen entry) := by
  have notZero := plan.used entry member
  have inside := inside_of_getD notZero
  have isLength := getElem?_of_getD inside
  have isCode := plan.codes entry.1 (by rw [← plan.size]; exact inside)
  rw [if_neg notZero] at isCode
  have short : header.clLen.getD entry.1 0 ≤ 16 := Nat.le_trans (getD_le plan.bounded entry.1) (by decide)
  have extra : Appends (fun w => if entry.1 = 16 then bwBits w entry.2 2
      else if entry.1 = 17 then bwBits w entry.2 3
      else if entry.1 = 18 then bwBits w entry.2 7
      else some w) (fun bits => bits ++ bitsOf (extraBits entry.1) entry.2) := by
    rw [extraBits]
    split
    · exact appends_bwBits _ (by decide)
    · split
      · exact appends_bwBits _ (by decide)
      · split
        · exact appends_bwBits _ (by decide)
        · have same : (fun bits => bits ++ bitsOf 0 entry.2) = id := by
            funext bits
            exact List.append_nil bits
          rw [same]
          exact appends_nothing
  have both := (appends_bwCode (code header.clLen entry.1) short).bind extra
  simp only [writePacked, isCode, isLength, Option.bind_eq_bind, Option.bind_some]
  simp only [List.append_assoc] at both
  exact both

theorem writeDynamicHeader_appends (plan : Plan litLen distLen header) :
    Appends (writeDynamicHeader header) (fun bits => bits ++ headerBits header) := by
  have atMost := plan.hclenMost
  have codelens : Appends (fun w => (List.range header.hclen).foldlM (writeCodelen header.clLen) w)
      (fun bits => bits ++ (List.range header.hclen).flatMap (codelenBits header.clLen)) := by
    apply Appends.foldlM
    intro i member
    have inside := List.mem_range.mp member
    exact writeCodelen_appends plan (by omega)
  have packed : Appends (fun w => header.packed.foldlM (writePacked header.clLen header.clCode) w)
      (fun bits => bits ++ header.packed.flatMap (packedBits header.clLen)) := by
    apply Appends.foldlM
    exact fun entry member => writePacked_appends plan member
  have whole := ((((appends_bwBits (header.hlit - 257) (by decide : 5 ≤ 16)).bind
    (appends_bwBits (header.hdist - 1) (by decide : 5 ≤ 16))).bind
    (appends_bwBits (header.hclen - 4) (by decide : 4 ≤ 16))).bind codelens).bind packed
  simp only [List.append_assoc, Option.bind_eq_bind, Option.bind_assoc] at whole
  exact whole

end Writing

/-! ## Reading the lengths of the code for lengths -/

section Reading

variable {litLen distLen clLen : List Nat} {header : DynamicHeader} {rest : List Bool} {r : Bitreader}

/-- The first lengths in the order of the format. -/
structure CodelensRead (clLen : List Nat) (i : Nat) (read : List Nat) : Prop where
  size : read.length = numCodelen
  lengths : ∀ symbol < numCodelen, read.getD symbol 0 =
    if symbol ∈ codelenOrder.take i then clLen.getD symbol 0 else 0

theorem readCodelen_returns (bounded : ∀ length ∈ clLen, length ≤ maxClBits) {i : Nat}
    {read : List Nat} (codelens : CodelensRead clLen i read) (inside : i < numCodelen)
    (delivers : Delivers r (codelenBits clLen i ++ rest)) :
    ∃ read' r', readCodelen i (read, r) = .ok (read', r') ∧ CodelensRead clLen (i + 1) read' ∧
      Delivers r' rest := by
  have isSymbol : codelenOrder[i]? = some (codelenOrder.getD i 0) := getElem?_of_getD inside
  have isInside : codelenOrder.getD i 0 < read.length := codelens.size ▸ codelenOrder_getD_lt
  have small := getD_le bounded (codelenOrder.getD i 0)
  have fits : maxClBits < 2 ^ 3 := by decide
  obtain ⟨r', isRead, delivers'⟩ := brBits_field _ delivers
  rw [Nat.mod_eq_of_lt (by omega)] at isRead
  refine ⟨read.set (codelenOrder.getD i 0) (clLen.getD (codelenOrder.getD i 0) 0), r', ?_,
    ⟨?_, fun symbol inside' => ?_⟩, delivers'⟩
  · rw [readCodelen, Checked.get, isSymbol]
    dsimp only [bind, Except.bind]
    rw [isRead]
    dsimp only
    rw [Checked.set, if_pos isInside]
    rfl
  · rw [List.length_set, codelens.size]
  · rw [List.take_add_one, isSymbol, Option.toList_some, List.getD_eq_getElem?_getD, List.getElem?_set,
      if_pos isInside]
    split
    · rename_i same
      rw [if_pos (by rw [same]; exact List.mem_append_right _ (List.mem_singleton_self _)), same]
      rfl
    · rename_i different
      have before := codelens.lengths symbol inside'
      rw [List.getD_eq_getElem?_getD] at before
      rw [before]
      have iff : symbol ∈ codelenOrder.take i ++ [codelenOrder.getD i 0] ↔
          symbol ∈ codelenOrder.take i := by
        rw [List.mem_append, List.mem_singleton]
        constructor
        · rintro (old | same)
          · exact old
          · exact absurd same.symm different
        · exact Or.inl
      rw [if_congr iff rfl rfl]

theorem readCodelens_returns (bounded : ∀ length ∈ clLen, length ≤ maxClBits) {count : Nat} :
    ∀ {i : Nat} {read : List Nat} {r : Bitreader}, CodelensRead clLen i read →
      i + count ≤ numCodelen →
      Delivers r ((List.range' i count).flatMap (codelenBits clLen) ++ rest) →
      ∃ read' r', Checked.forFrom readCodelen i count (read, r) = .ok (read', r') ∧
        CodelensRead clLen (i + count) read' ∧ Delivers r' rest := by
  induction count with
  | zero =>
      intro i read r codelens _ delivers
      exact ⟨read, r, rfl, codelens, delivers⟩
  | succ count induction =>
      intro i read r codelens inside delivers
      rw [List.range'_succ, List.flatMap_cons, List.append_assoc] at delivers
      obtain ⟨read', r', isRead, codelens', delivers'⟩ :=
        readCodelen_returns bounded codelens (by omega) delivers
      obtain ⟨read'', r'', areRead, codelens'', delivers''⟩ :=
        induction codelens' (by omega) delivers'
      refine ⟨read'', r'', ?_, ?_, delivers''⟩
      · rw [Checked.forFrom, isRead]
        exact areRead
      · rwa [Nat.add_assoc, Nat.add_comm 1] at codelens''

/-- The lengths that were not sent are zero. -/
theorem Plan.codelens_eq (plan : Plan litLen distLen header) {read : List Nat}
    (codelens : CodelensRead header.clLen header.hclen read) : read = header.clLen := by
  have size := codelens.size
  have size' := plan.size
  apply List.ext_getElem?
  intro symbol
  by_cases inside : symbol < numCodelen
  · rw [getElem?_of_getD (by omega), getElem?_of_getD (by omega), codelens.lengths symbol inside]
    split
    · rfl
    · rename_i notSent
      have every : ∀ symbol < numCodelen, symbol ∈ codelenOrder := by decide
      obtain ⟨i, isSymbol⟩ := List.getElem?_of_mem (every symbol inside)
      have isInside := (List.getElem?_eq_some_iff.mp isSymbol).1
      have unsent : header.hclen ≤ i := by
        by_contra sent
        apply notSent
        apply List.mem_of_getElem?
        rw [List.getElem?_take_of_lt (Nat.lt_of_not_le sent), isSymbol]
      have isGetD : codelenOrder.getD i 0 = symbol := by
        rw [List.getD_eq_getElem?_getD, isSymbol]
        rfl
      have isZero := plan.codelenZero i unsent isInside
      rw [isGetD] at isZero
      exact congrArg some isZero.symm
  · rw [List.getElem?_eq_none (by omega), List.getElem?_eq_none (by omega)]

/-! ## Reading the packed lengths -/

/-- The array of the lengths while the first ones are known. -/
def filled (lengths : List Nat) : List Nat :=
  lengths ++ List.replicate (numLiterals + numDistances - lengths.length) 0

theorem filled_set {lengths : List Nat} (room : lengths.length < numLiterals + numDistances)
    (value : Nat) : (Checked.set (filled lengths) lengths.length value : Df (List Nat)) =
      .ok (filled (lengths ++ [value])) := by
  obtain ⟨left, isLeft⟩ := Nat.exists_eq_add_one.mpr (Nat.sub_pos_of_lt room)
  have isLeft' : numLiterals + numDistances - (lengths ++ [value]).length = left := by
    rw [List.length_append, List.length_singleton]
    omega
  rw [Checked.set, filled, isLeft, if_pos (by rw [List.length_append, List.length_replicate]; omega),
    List.set_append_right _ _ (Nat.le_refl _), Nat.sub_self, List.replicate_succ, List.set_cons_zero,
    filled, isLeft', List.append_assoc, List.singleton_append]

theorem repeatLength_filled {total value repeats : Nat} (fits : total ≤ numLiterals + numDistances)
    {lengths : List Nat} (room : lengths.length + repeats ≤ total) :
    repeatLength value total repeats (filled lengths) lengths.length =
      .ok (filled (lengths ++ List.replicate repeats value),
        (lengths ++ List.replicate repeats value).length) := by
  induction repeats generalizing lengths with
  | zero =>
      rw [List.replicate_zero, List.append_nil]
      rfl
  | succ repeats induction =>
      have longer : (lengths ++ [value]).length = lengths.length + 1 := by
        rw [List.length_append, List.length_singleton]
      rw [repeatLength, if_pos (by omega), filled_set (by omega)]
      dsimp only [bind, Except.bind]
      rw [← longer, induction (by omega), List.append_assoc, List.singleton_append,
        ← List.replicate_succ]

theorem getLast_filled {lengths : List Nat} {len : Nat} (last : lengths.getLast? = some len) :
    lengths.length ≠ 0 ∧ (Checked.get (filled lengths) (lengths.length - 1) : Df Nat) = .ok len := by
  have notEmpty : lengths ≠ [] := by
    rintro rfl
    cases last
  have positive := List.length_pos_of_ne_nil notEmpty
  refine ⟨by omega, ?_⟩
  rw [List.getLast?_eq_getElem?] at last
  rw [Checked.get, filled, List.getElem?_append_left (by omega), last]

/-- A packed symbol adds to the array what it adds to the lengths. -/
theorem writeLengths_adds {total : Nat} (fits : total ≤ numLiterals + numDistances)
    {before after : List Nat} {entry : Nat × Nat} (adds : Adds before entry after)
    (room : after.length ≤ total) (delivers : Delivers r (bitsOf (extraBits entry.1) entry.2 ++ rest)) :
    ∃ r', writeLengths total entry.1 (filled before) before.length r =
      .ok (filled after, after.length, r') ∧ Delivers r' rest := by
  cases adds with
  | length small =>
      rename_i len
      have none : extraBits len = 0 := by
        rw [extraBits, if_neg (by omega), if_neg (by omega), if_neg (by omega)]
      rw [List.length_append, List.length_singleton] at room
      dsimp only at delivers ⊢
      rw [none] at delivers
      refine ⟨r, ?_, delivers⟩
      rw [writeLengths, if_pos small, filled_set (by omega), List.length_append, List.length_singleton]
      rfl
  | again last small =>
      rename_i len extra
      rw [List.length_append, List.length_replicate] at room
      obtain ⟨notZero, isLast⟩ := getLast_filled last
      obtain ⟨r', isRead, delivers'⟩ := brBits_field _ delivers
      dsimp only [extraBits] at isRead ⊢
      rw [if_pos rfl, Nat.mod_eq_of_lt small] at isRead
      refine ⟨r', ?_, delivers'⟩
      rw [writeLengths, if_neg (by decide), if_pos rfl, if_neg notZero, isRead]
      dsimp only [bind, Except.bind]
      rw [isLast]
      dsimp only
      rw [repeatLength_filled fits (by omega)]
      rfl
  | zeros small =>
      rename_i extra
      rw [List.length_append, List.length_replicate] at room
      obtain ⟨r', isRead, delivers'⟩ := brBits_field _ delivers
      dsimp only [extraBits] at isRead ⊢
      rw [if_neg (by decide), if_pos rfl, Nat.mod_eq_of_lt small] at isRead
      refine ⟨r', ?_, delivers'⟩
      rw [writeLengths, if_neg (by decide), if_neg (by decide), if_pos rfl, isRead]
      dsimp only [bind, Except.bind]
      rw [repeatLength_filled fits (by omega)]
      rfl
  | manyZeros small =>
      rename_i extra
      rw [List.length_append, List.length_replicate] at room
      obtain ⟨r', isRead, delivers'⟩ := brBits_field _ delivers
      dsimp only [extraBits] at isRead ⊢
      rw [if_neg (by decide), if_neg (by decide), if_pos rfl, Nat.mod_eq_of_lt small] at isRead
      refine ⟨r', ?_, delivers'⟩
      rw [writeLengths, if_neg (by decide), if_neg (by decide), if_neg (by decide), isRead]
      dsimp only [bind, Except.bind]
      rw [repeatLength_filled fits (by omega)]
      rfl

theorem readLengths_unpacks {clDec : HuffDec} (decodes : Decodes clDec clLen) (kraft : Kraft clLen)
    {before after : List Nat} {packed : PackedLengths} (unpacks : Unpacks before packed after)
    (used : ∀ entry ∈ packed, clLen.getD entry.1 0 ≠ 0)
    (fits : after.length ≤ numLiterals + numDistances) :
    ∀ {fuel : Nat} {r : Bitreader}, packed.length ≤ fuel →
      Delivers r (packed.flatMap (packedBits clLen) ++ rest) →
      ∃ r', readLengths clDec after.length fuel (filled before) before.length r =
        .ok (filled after, r') ∧ Delivers r' rest := by
  induction unpacks with
  | done lengths =>
      intro fuel r _ delivers
      refine ⟨r, ?_, delivers⟩
      cases fuel with
      | zero => rw [readLengths, if_neg (Nat.lt_irrefl _)]
      | succ fuel => rw [readLengths, if_neg (Nat.lt_irrefl _)]
  | @step before middle after entry packed adds rest' induction =>
      intro fuel r enough delivers
      obtain ⟨fuel, rfl⟩ := Nat.exists_eq_add_one.mpr (Nat.lt_of_lt_of_le (Nat.succ_pos _) enough)
      rw [List.length_cons] at enough
      obtain ⟨added, isMiddle, positive⟩ := adds.grows
      obtain ⟨added', isAfter, -⟩ := rest'.grows
      have size : middle.length = before.length + added.length := by
        rw [isMiddle, List.length_append]
      have size' : after.length = middle.length + added'.length := by
        rw [isAfter, List.length_append]
      have isUsed := used entry List.mem_cons_self
      rw [List.flatMap_cons, packedBits, List.append_assoc, List.append_assoc] at delivers
      obtain ⟨r', decoded, delivers'⟩ :=
        huffDecode_code decodes kraft (inside_of_getD isUsed) isUsed delivers
      obtain ⟨r'', written, delivers''⟩ := writeLengths_adds fits adds (by omega) delivers'
      obtain ⟨final, isRead, delivers'''⟩ :=
        induction (fun other member => used other (.tail _ member)) fits (Nat.le_of_succ_le_succ enough)
          delivers''
      refine ⟨final, ?_, delivers'''⟩
      rw [readLengths, if_pos (by omega), decoded]
      dsimp only [bind, Except.bind]
      rw [written]
      dsimp only
      rw [delivers''.clear, if_neg Bool.false_ne_true]
      exact isRead

end Reading

/-! ## Zeros at the end make no difference -/

section Trimmed

variable {lengths lengths' : List Nat} {n m : Nat}

theorem forFrom_congr {α : Type} {body body' : Nat → α → Df α} {start count : Nat} (state : α)
    (same : ∀ i, start ≤ i → i < start + count → ∀ state, body i state = body' i state) :
    Checked.forFrom body start count state = Checked.forFrom body' start count state := by
  induction count generalizing start state with
  | zero => rfl
  | succ count induction =>
      rw [Checked.forFrom, Checked.forFrom, same start (Nat.le_refl _) (by omega)]
      congr 1
      funext state'
      exact induction state' fun i lower upper => same i (by omega) (by omega)

theorem forFrom_add {α : Type} (body : Nat → α → Df α) (start count count' : Nat) (state : α) :
    Checked.forFrom body start (count + count') state =
      Checked.forFrom body start count state >>= Checked.forFrom body (start + count) count' := by
  induction count generalizing start state with
  | zero =>
      rw [Nat.zero_add]
      rfl
  | succ count induction =>
      rw [Nat.add_right_comm, Checked.forFrom, Checked.forFrom, bind_assoc]
      congr 1
      funext state'
      rw [induction, Nat.add_assoc, Nat.add_comm 1]

theorem countLength_zeros {start count : Nat} {counts : List Nat}
    (zeros : ∀ i, start ≤ i → i < start + count → lengths[i]? = some 0) (positive : 0 < counts.length) :
    ∃ none, Checked.forFrom (countLength lengths) start count counts = .ok (counts.set 0 none) := by
  induction count generalizing start counts with
  | zero =>
      refine ⟨counts.getD 0 0, ?_⟩
      cases counts with
      | nil => cases positive
      | cons head tail => rfl
  | succ count induction =>
      have step : countLength lengths start counts = .ok (counts.set 0 (counts.getD 0 0 + 1)) := by
        rw [countLength, Checked.get, zeros start (Nat.le_refl _) (by omega)]
        dsimp only [bind, Except.bind]
        rw [if_neg (Nat.not_lt_zero _), get_eq_getD positive]
        dsimp only
        rw [Checked.set, if_pos positive]
      obtain ⟨none, rest⟩ := @induction (start + 1) (counts.set 0 (counts.getD 0 0 + 1))
        (fun i lower upper => zeros i (by omega) (by omega)) (by rwa [List.length_set])
      refine ⟨none, ?_⟩
      rw [Checked.forFrom, step]
      dsimp only [bind, Except.bind]
      rw [rest, List.set_set]

theorem placeSymbol_zeros {start count : Nat} {tables : List Nat × List (Option Nat)}
    (zeros : ∀ i, start ≤ i → i < start + count → lengths[i]? = some 0) :
    Checked.forFrom (placeSymbol lengths) start count tables = .ok tables := by
  induction count generalizing start with
  | zero => rfl
  | succ count induction =>
      have step : placeSymbol lengths start tables = .ok tables := by
        rw [placeSymbol, Checked.get, zeros start (Nat.le_refl _) (by omega)]
        rfl
      rw [Checked.forFrom, step]
      exact induction fun i lower upper => zeros i (by omega) (by omega)

/-- The decoder of a code does not depend on symbols without a code at its end. -/
theorem huffBuildDecoder_trim (bounded : ∀ x ∈ lengths', x ≤ maxCodeBits)
    (fits : lengths'.length = n + m) (same : ∀ i < n, lengths[i]? = lengths'[i]?)
    (zeros : ∀ i, n ≤ i → i < n + m → lengths'[i]? = some 0) :
    huffBuildDecoder lengths n = huffBuildDecoder lengths' (n + m) := by
  have counted : Checked.Returns (Counted lengths' (0 + n)) (Checked.forFrom (countLength lengths') 0 n
      (List.replicate (maxCodeBits + 1) 0)) := by
    apply Checked.Safe.returns
    · apply Checked.safe_forFrom
      · exact ⟨List.length_replicate, fun x member => absurd member List.not_mem_nil, fun x small => by
          rw [List.getElem?_replicate_of_lt (by omega)]; rfl⟩
      · exact fun i state _ upper counted => countLength_safe counted (by omega)
    · exact Checked.sure_forFrom (fun i state => countLength_sure bounded) _ _ _
  obtain ⟨counts, isCounts, counted⟩ := counted
  have size := counted.size
  have zeros' : ∀ i, 0 + n ≤ i → i < 0 + n + m → lengths'[i]? = some 0 := by
    rw [Nat.zero_add]
    exact zeros
  obtain ⟨none, isMore⟩ := countLength_zeros zeros' (by omega : 0 < counts.length)
  have counts' : Checked.forFrom (countLength lengths) 0 n (List.replicate (maxCodeBits + 1) 0) =
      .ok counts := by
    rw [← isCounts]
    apply forFrom_congr
    intro i _ inside state
    rw [countLength, countLength, Checked.get, Checked.get, same i (by omega)]
  have places : ∀ tables, Checked.forFrom (placeSymbol lengths') 0 (n + m) tables =
      Checked.forFrom (placeSymbol lengths) 0 n tables := by
    intro tables
    have isSame : Checked.forFrom (placeSymbol lengths) 0 n tables =
        Checked.forFrom (placeSymbol lengths') 0 n tables := by
      apply forFrom_congr
      intro i _ inside state
      rw [placeSymbol, placeSymbol, Checked.get, Checked.get, same i (by omega)]
    rw [forFrom_add, isSame]
    cases Checked.forFrom (placeSymbol lengths') 0 n tables with
    | error stop => rfl
    | ok tables' => exact placeSymbol_zeros zeros'
  rw [huffBuildDecoder, huffBuildDecoder, counts', forFrom_add, isCounts]
  dsimp only [bind, Except.bind]
  rw [isMore]
  dsimp only
  rw [Checked.set, if_pos (by omega), Checked.set, List.length_set, if_pos (by omega), List.set_set]
  dsimp only
  simp only [places]

end Trimmed

/-! ## The round trip -/

section RoundTrip

variable {litLen distLen : List Nat} {header : DynamicHeader}

/-- The decoder of the lengths that were sent. -/
theorem build_sent {lengths sent : List Nat} {n hn : Nat} (size : lengths.length = n)
    (bounded : ∀ x ∈ lengths, x ≤ maxCodeBits) (atMost : hn ≤ n)
    (zeros : ∀ i, hn ≤ i → i < n → lengths.getD i 0 = 0)
    (same : ∀ i < hn, sent[i]? = lengths[i]?) :
    huffBuildDecoder sent hn = huffBuildDecoder lengths n := by
  have whole := Nat.add_sub_of_le atMost
  have trimmed := huffBuildDecoder_trim (m := n - hn) bounded (by omega) same
    (fun i lower upper => by
      rw [getElem?_of_getD (by omega), zeros i lower (by omega)])
  rwa [whole] at trimmed

theorem readDynamicHeader_bits (plan : Plan litLen distLen header)
    (isLit : litLen.length = numLiterals) (isDist : distLen.length = numDistances)
    (boundedLit : ∀ length ∈ litLen, length ≤ maxCodeBits)
    (boundedDist : ∀ length ∈ distLen, length ≤ maxCodeBits) {lit dist : HuffDec}
    (builtLit : huffBuildDecoder litLen numLiterals = .ok lit)
    (builtDist : huffBuildDecoder distLen numDistances = .ok dist) {rest : List Bool} {r : Bitreader}
    (delivers : Delivers r (headerBits header ++ rest)) :
    ∃ r', readDynamicHeader r = .ok (lit, dist, r') ∧ Delivers r' rest := by
  have boundedCl : ∀ length ∈ header.clLen, length ≤ maxCodeBits := fun length member =>
    Nat.le_trans (plan.bounded length member) (by decide)
  obtain ⟨clDec, builtCl, decodes⟩ :=
    (huffBuildDecoder_eq boundedCl (by rw [plan.size]; decide)).1 plan.kraft
  rw [plan.size] at builtCl
  obtain ⟨combinedSize, -⟩ :=
    combined_facts isLit isDist plan.hlitMost plan.hdistMost boundedLit boundedDist
  have hlitLeast := plan.hlitLeast
  have hdistLeast := plan.hdistLeast
  have hclenLeast := plan.hclenLeast
  have hlitMost : header.hlit ≤ 286 := plan.hlitMost
  have hdistMost : header.hdist ≤ 30 := plan.hdistMost
  have hclenMost : header.hclen ≤ 19 := plan.hclenMost
  have room : header.hlit + header.hdist ≤ numLiterals + numDistances :=
    Nat.add_le_add plan.hlitMost plan.hdistMost
  -- The three counts come first.
  simp only [headerBits, List.append_assoc] at delivers
  obtain ⟨r, readHlit, delivers⟩ := brBits_field _ delivers
  obtain ⟨r, readHdist, delivers⟩ := brBits_field _ delivers
  obtain ⟨r, readHclen, delivers⟩ := brBits_field _ delivers
  rw [Nat.mod_eq_of_lt (by omega)] at readHlit readHdist readHclen
  -- Then the code for the packed lengths, and the packed lengths.
  rw [List.range_eq_range'] at delivers
  have noCodelens : CodelensRead header.clLen 0 (List.replicate numCodelen 0) := by
    constructor
    · exact List.length_replicate
    · intro symbol inside
      rw [List.getD_eq_getElem?_getD, List.getElem?_replicate_of_lt inside]
      rfl
  obtain ⟨read, r, readCodelens, codelens, delivers⟩ :=
    readCodelens_returns plan.bounded noCodelens (by rw [Nat.zero_add]; exact hclenMost) delivers
  rw [Nat.zero_add] at codelens
  obtain rfl := plan.codelens_eq codelens
  obtain ⟨sent, isSent, few⟩ := plan.unpacks.grows
  rw [List.nil_append] at isSent
  have enough : header.packed.length ≤ header.hlit + header.hdist := by
    rw [← combinedSize, isSent]
    exact few
  obtain ⟨r, readAll, delivers⟩ :=
    readLengths_unpacks decodes plan.kraft plan.unpacks plan.used (by omega) enough delivers
  have isFilled : filled [] = List.replicate (numLiterals + numDistances) 0 := rfl
  rw [combinedSize, isFilled, List.length_nil] at readAll
  -- The tables of what was sent are those of all lengths.
  have inLit : (litLen.take header.hlit).length = header.hlit := by
    rw [List.length_take, isLit]
    exact Nat.min_eq_left plan.hlitMost
  have inDist : (distLen.take header.hdist).length = header.hdist := by
    rw [List.length_take, isDist]
    exact Nat.min_eq_left plan.hdistMost
  have sentLit : huffBuildDecoder
      (filled (litLen.take header.hlit ++ distLen.take header.hdist)) header.hlit = .ok lit := by
    rw [← builtLit]
    apply build_sent isLit boundedLit plan.hlitMost plan.litZero
    intro i inside
    rw [filled, List.append_assoc, List.getElem?_append_left (by omega),
      List.getElem?_take_of_lt inside]
  have sentDist : huffBuildDecoder
      ((filled (litLen.take header.hlit ++ distLen.take header.hdist)).drop header.hlit)
      header.hdist = .ok dist := by
    rw [← builtDist]
    apply build_sent isDist boundedDist plan.hdistMost plan.distZero
    intro i inside
    rw [filled, List.append_assoc, List.drop_left' inLit, List.getElem?_append_left (by omega),
      List.getElem?_take_of_lt inside]
  refine ⟨r, ?_, delivers⟩
  rw [readDynamicHeader, readHlit]
  dsimp only [bind, Except.bind]
  rw [readHdist]
  dsimp only
  rw [readHclen]
  dsimp only
  rw [Nat.sub_add_cancel hlitLeast, Nat.sub_add_cancel hdistLeast, Nat.sub_add_cancel hclenLeast,
    if_neg (by rw [not_or, Nat.not_lt, Nat.not_lt]; exact ⟨plan.hlitMost, plan.hdistMost⟩),
    readCodelens]
  dsimp only
  rw [builtCl]
  dsimp only
  rw [readAll]
  dsimp only
  rw [sentLit]
  dsimp only
  rw [sentDist]
  rfl

/-- The header of two codes is written, also into the middle of a stream, and read back
to their decoders. -/
theorem dynamic_header_round_trip (litLen distLen : List Nat)
    (isLit : litLen.length = numLiterals) (isDist : distLen.length = numDistances)
    (boundedLit : ∀ length ∈ litLen, length ≤ maxCodeBits)
    (boundedDist : ∀ length ∈ distLen, length ≤ maxCodeBits)
    (someDist : ∃ length ∈ distLen, length ≠ 0)
    (kraftLit : Kraft litLen) (kraftDist : Kraft distLen) :
    ∃ header bits lit dist, dynamicHeader litLen distLen = .ok header ∧
      header.packed.length ≤ numLiterals + numDistances ∧
      huffBuildDecoder litLen numLiterals = .ok lit ∧
      huffBuildDecoder distLen numDistances = .ok dist ∧
      Appends (writeDynamicHeader header) (fun before => before ++ bits) ∧
      (∀ rest r, Delivers r (bits ++ rest) →
        ∃ r', readDynamicHeader r = .ok (lit, dist, r') ∧ Delivers r' rest) ∧
      ∀ cap, bits.length ≤ 8 * cap → ∃ w w' r,
        writeDynamicHeader header (bwInit cap) = some w ∧ bwFinish w = some (w'.out.length, w') ∧
        w'.overflow = false ∧ readDynamicHeader (brInit w'.out) = .ok (lit, dist, r) ∧
        r.underflow = false := by
  obtain ⟨header, planned, plan⟩ :=
    dynamicHeader_returns isLit isDist boundedLit boundedDist someDist
  obtain ⟨lit, builtLit, -⟩ := (huffBuildDecoder_eq boundedLit (Nat.le_of_eq isLit)).1 kraftLit
  obtain ⟨dist, builtDist, -⟩ :=
    (huffBuildDecoder_eq boundedDist (by rw [isDist]; decide)).1 kraftDist
  rw [isLit] at builtLit
  rw [isDist] at builtDist
  have appends := writeDynamicHeader_appends plan
  have reads : ∀ rest r, Delivers r (headerBits header ++ rest) →
      ∃ r', readDynamicHeader r = .ok (lit, dist, r') ∧ Delivers r' rest := fun rest r delivers =>
    readDynamicHeader_bits plan isLit isDist boundedLit boundedDist builtLit builtDist delivers
  refine ⟨header, headerBits header, lit, dist, planned, plan.few, builtLit, builtDist, appends, reads,
    fun cap room => ?_⟩
  obtain ⟨w, ran⟩ := appends.returns (Written.initial cap) (by
    rw [List.nil_append]
    exact Nat.le_trans room (Nat.le_add_right _ _))
  obtain ⟨sameCap, written⟩ := appends.sound (Written.initial cap) ran
  rw [List.nil_append] at written
  obtain ⟨w', finished, clear, areBits⟩ := bwFinish_fits written (by rw [sameCap]; exact room)
  have delivers := delivers_brInit w'.out
  rw [areBits, align] at delivers
  obtain ⟨r, isRead, delivers'⟩ := reads _ _ delivers
  exact ⟨w, w', r, ran, finished, clear, isRead, delivers'.clear⟩

theorem dynamic_header_round_trip_fixed : ∃ header bits lit dist,
    dynamicHeader fixedLitLen fixedDistLen = .ok header ∧
    huffBuildDecoder fixedLitLen numLiterals = .ok lit ∧
    huffBuildDecoder fixedDistLen numDistances = .ok dist ∧
    ∀ rest r, Delivers r (bits ++ rest) →
      ∃ r', readDynamicHeader r = .ok (lit, dist, r') ∧ Delivers r' rest := by
  obtain ⟨header, bits, lit, dist, planned, -, builtLit, builtDist, -, reads, -⟩ :=
    dynamic_header_round_trip fixedLitLen fixedDistLen (by decide +kernel) rfl (by decide +kernel)
      (by decide +kernel) ⟨5, by decide, by decide⟩ (by decide +kernel) (by decide +kernel)
  exact ⟨header, bits, lit, dist, planned, builtLit, builtDist, reads⟩

end RoundTrip

end FoundationsLab.Deflate
