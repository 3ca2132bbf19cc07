import FoundationsLab.Deflate.Compress
import FoundationsLab.Deflate.HeaderRoundTrip
import FoundationsLab.Deflate.Lz77Lossless
import Mathlib.Algebra.GroupWithZero.Nat

/-! # What the blocks cost

The estimates of the two coded blocks are the bits that are written. That of the stored
block leaves out the headers of all blocks but one, so it is right as long as one stored
block is enough. -/

namespace FoundationsLab.Deflate

open Foundation.BitStream Foundation.CanonicalCode

/-! ## Counting what is written -/

/-- How many bits there are after the program, from how many there were before. -/
def Counts (program : Bitwriter → Option Bitwriter) (total : Nat → Nat) : Prop :=
  ∃ stream, Appends program stream ∧ ∀ bits, (stream bits).length = total bits.length

section Counting

variable {program program' : Bitwriter → Option Bitwriter} {total total' : Nat → Nat}

theorem counts_nothing : Counts some (fun before => before) :=
  ⟨id, appends_nothing, fun _ => rfl⟩

theorem Counts.bind (counts : Counts program total) (counts' : Counts program' total') :
    Counts (fun w => program w >>= program') (fun before => total' (total before)) := by
  obtain ⟨stream, appends, isTotal⟩ := counts
  obtain ⟨stream', appends', isTotal'⟩ := counts'
  refine ⟨_, appends.bind appends', ?_⟩
  intro bits
  rw [isTotal', isTotal]

theorem Counts.congr (counts : Counts program total)
    (same : ∀ before, total before = total' before) : Counts program total' := by
  have equal : total = total' := funext same
  rwa [← equal]

theorem Appends.counts {field : List Bool} (appends : Appends program (fun bits => bits ++ field)) :
    Counts program (fun before => before + field.length) :=
  ⟨_, appends, fun _ => List.length_append⟩

theorem Counts.foldlM {α : Type} {step : Bitwriter → α → Option Bitwriter} {cost : α → Nat}
    (items : List α)
    (each : ∀ item ∈ items, Counts (fun w => step w item) (fun before => before + cost item)) :
    Counts (fun w => items.foldlM step w) (fun before => before + (items.map cost).sum) := by
  induction items with
  | nil => exact counts_nothing
  | cons item items induction =>
      have rest := induction fun other member => each other (.tail _ member)
      have both := (each item List.mem_cons_self).bind rest
      apply both.congr
      intro before
      rw [List.map_cons, List.sum_cons, Nat.add_assoc]

theorem counts_bwBits (value : Nat) {count : Nat} (small : count ≤ 16) :
    Counts (fun w => bwBits w value count) (fun before => before + count) := by
  have counts := (appends_bwBits value small).counts
  rwa [length_bitsOf] at counts

theorem counts_bwCode (code : Nat) {count : Nat} (small : count ≤ 16) :
    Counts (fun w => bwCode w code count) (fun before => before + count) := by
  have counts := (appends_bwCode code small).counts
  rwa [length_wordOf] at counts

theorem counts_bwAlign : Counts bwAlign (fun before => 8 * ((before + 7) / 8)) :=
  ⟨align, appends_bwAlign, length_align⟩

end Counting

/-! ## Whole streams -/

/-- So many bits in whole bytes. -/
def bytesOf (bits : Nat) : Nat := (bits + 7) / 8

/-- With room for them the program writes these bytes and no others. -/
def WritesBytes (program : Bitwriter → Option Bitwriter) (out : List UInt8) : Prop :=
  ∀ cap, out.length ≤ cap → ∃ w, program (bwInit cap) >>= bwFinish = some (out.length, w) ∧
    w.overflow = false ∧ w.out = out

/-- With room for them the program writes so many bytes. -/
def Writes (program : Bitwriter → Option Bitwriter) (bytes : Nat) : Prop :=
  ∃ out, WritesBytes program out ∧ out.length = bytes

/-- The bytes of a program from its first bit on. -/
def streamBytes (stream : List Bool → List Bool) : List UInt8 := packBytes (align (stream []))

section Streams

variable {program : Bitwriter → Option Bitwriter} {stream : List Bool → List Bool} {cap : Nat}

theorem length_streamBytes (stream : List Bool → List Bool) :
    (streamBytes stream).length = bytesOf (stream []).length := by
  rw [streamBytes, length_packBytes, length_align, bytesOf]
  omega

/-- Up to one byte that is left over the run is defined. It writes what there is room for
and says whether that is everything. -/
theorem Appends.run (appends : Appends program stream)
    (defined : (streamBytes stream).length ≤ cap + 1) :
    ∃ w, program (bwInit cap) >>= bwFinish = some (w.out.length, w) ∧
      w.overflow = decide (cap < (streamBytes stream).length) ∧
      w.out = (streamBytes stream).take cap := by
  have isWhole := length_align (stream [])
  have isSize := length_streamBytes stream
  rw [bytesOf] at isSize
  have room : (stream []).length ≤ 8 * (bwInit cap).cap + 8 := by
    show (stream []).length ≤ 8 * cap + 8
    omega
  obtain ⟨w, ran⟩ := appends.returns (Written.initial cap) room
  obtain ⟨sameCap, written⟩ := appends.sound (Written.initial cap) ran
  have isCap : w.cap = cap := sameCap
  obtain ⟨w', aligned, sameCap', written'⟩ := written.bwAlign (by rw [isCap]; exact room)
  refine ⟨w', ?_, ?_, ?_⟩
  · rw [ran]
    show bwFinish w = _
    rw [bwFinish, aligned]
    rfl
  · rw [written'.flag, sameCap', isCap]
    apply decide_eq_decide.mpr
    omega
  · rw [written'.out, sameCap', isCap]
    exact packBytes_take _ _

/-- Beyond that byte the run ends in a shift that is not defined. -/
theorem Appends.run_undefined (appends : Appends program stream)
    (many : cap + 1 < (streamBytes stream).length) :
    program (bwInit cap) >>= bwFinish = none := by
  have isSize := length_streamBytes stream
  rw [bytesOf] at isSize
  cases ran : program (bwInit cap) with
  | none => rfl
  | some w =>
      obtain ⟨sameCap, written⟩ := appends.sound (Written.initial cap) ran
      have isCap : w.cap = cap := sameCap
      show bwFinish w = none
      rw [bwFinish, bwAlign_undefined written (by omega)]
      rfl

theorem Counts.writes {total : Nat → Nat} (counts : Counts program total) :
    Writes program (bytesOf (total 0)) := by
  obtain ⟨stream, appends, isTotal⟩ := counts
  have isSize := length_streamBytes stream
  rw [isTotal [], List.length_nil] at isSize
  refine ⟨streamBytes stream, ?_, isSize⟩
  intro cap room
  obtain ⟨w, finished, isFlag, isOut⟩ := appends.run (Nat.le_succ_of_le room)
  rw [List.take_of_length_le room] at isOut
  rw [decide_eq_false (Nat.not_lt_of_le room)] at isFlag
  rw [isOut] at finished
  exact ⟨w, finished, isFlag, isOut⟩

theorem Writes.unique {bytes bytes' : Nat} (writes : Writes program bytes)
    (writes' : Writes program bytes') : bytes = bytes' := by
  obtain ⟨out, ran, rfl⟩ := writes
  obtain ⟨out', ran', rfl⟩ := writes'
  obtain ⟨w, finished, -, isOut⟩ := ran (max out.length out'.length) (Nat.le_max_left _ _)
  obtain ⟨w', finished', -, isOut'⟩ := ran' (max out.length out'.length) (Nat.le_max_right _ _)
  have same := Option.some.inj (finished.symm.trans finished')
  exact congrArg Prod.fst same

end Streams

/-! ## Tokens -/

theorem codeFrom_lt (base : List Nat) (value n : Nat) : codeFrom base value (n + 1) < n + 1 := by
  induction n with
  | zero =>
      rw [codeFrom, codeFrom, ite_self]
      exact Nat.zero_lt_one
  | succ n induction =>
      rw [codeFrom]
      split
      · exact Nat.lt_succ_self _
      · exact Nat.lt_succ_of_lt induction

theorem lengthToCode_lt (length : Nat) : lengthToCode length < 29 := codeFrom_lt _ _ _

theorem distanceToCode_lt (distance : Nat) : distanceToCode distance < 30 := codeFrom_lt _ _ _

/-- Tables of the right size, with lengths that the format can hold. -/
structure Lengths (litLen distLen : List Nat) : Prop where
  litSize : litLen.length = numLiterals
  distSize : distLen.length = numDistances
  litBounded : ∀ length ∈ litLen, length ≤ maxCodeBits
  distBounded : ∀ length ∈ distLen, length ≤ maxCodeBits

/-- Codes for all symbols of both tables. -/
structure BlockCodes.Ready (codes : BlockCodes) : Prop where
  lengths : Lengths codes.litLen codes.distLen
  litCodes : codes.litCode.length = numLiterals
  distCodes : codes.distCode.length = numDistances

/-- The bits of a token. -/
def tokenLength (litLen distLen : List Nat) (token : Token) : Nat :=
  if token.length = 0 then litLen.getD token.literal.toNat 0
  else litLen.getD (257 + lengthToCode token.length) 0 +
      lengthExtra.getD (lengthToCode token.length) 0 +
    (distLen.getD (distanceToCode token.distance) 0 +
      distExtra.getD (distanceToCode token.distance) 0)

/-- The bits of all tokens and the end of the block. -/
def tokensLength (litLen distLen : List Nat) (tokens : List Token) : Nat :=
  (tokens.map (tokenLength litLen distLen)).sum + litLen.getD endOfBlock 0

section Tokens

variable {litLen distLen : List Nat}

theorem foldlM_cost {α : Type} {step : Nat → α → Df Nat} {cost : α → Nat} {items : List α}
    (each : ∀ item ∈ items, ∀ bits, step bits item = .ok (bits + cost item)) (bits : Nat) :
    items.foldlM step bits = .ok (bits + (items.map cost).sum) := by
  induction items generalizing bits with
  | nil => rfl
  | cons item items induction =>
      rw [List.foldlM_cons, each item List.mem_cons_self]
      dsimp only [bind, Except.bind]
      rw [induction (fun other member => each other (.tail _ member)), List.map_cons, List.sum_cons,
        Nat.add_assoc]

theorem literal_lt (literal : UInt8) : literal.toNat < numLiterals :=
  Nat.lt_trans literal.toNat_lt (by decide)

theorem lengthSymbol_lt (length : Nat) : 257 + lengthToCode length < numLiterals :=
  Nat.add_lt_add_left (lengthToCode_lt length) 257

theorem tokenCost_eq (lengths : Lengths litLen distLen) (token : Token) (bits : Nat) :
    tokenCost litLen distLen bits token = .ok (bits + tokenLength litLen distLen token) := by
  have litSize := lengths.litSize
  have distSize := lengths.distSize
  have isExtra : (Checked.get lengthExtra (lengthToCode token.length) : Df Nat) = _ :=
    get_eq_getD (lengthToCode_lt token.length)
  have isExtra' : (Checked.get distExtra (distanceToCode token.distance) : Df Nat) = _ :=
    get_eq_getD (distanceToCode_lt token.distance)
  rw [tokenCost, tokenLength]
  split
  · rw [get_eq_getD (by rw [litSize]; exact literal_lt _)]
    rfl
  · dsimp only
    rw [get_eq_getD (by rw [litSize]; exact lengthSymbol_lt token.length)]
    dsimp only [bind, Except.bind]
    rw [isExtra]
    dsimp only
    rw [get_eq_getD (by rw [distSize]; exact distanceToCode_lt _)]
    dsimp only
    rw [isExtra']
    exact congrArg Except.ok (Nat.add_assoc _ _ _)

theorem tokenBits_eq (lengths : Lengths litLen distLen) (tokens : List Token) :
    tokenBits litLen distLen tokens = .ok (tokensLength litLen distLen tokens) := by
  have inside : endOfBlock < litLen.length := by
    rw [lengths.litSize]
    decide
  rw [tokenBits, foldlM_cost (fun token _ bits => tokenCost_eq lengths token bits) 0]
  dsimp only [bind, Except.bind]
  rw [get_eq_getD inside, Nat.zero_add]
  rfl

variable {codes : BlockCodes}

/-- A code is written in as many bits as its length says. -/
theorem emitSymbol_counts {lengths : List Nat} (symbolCodes : List Nat) {symbol : Nat}
    (bounded : ∀ length ∈ lengths, length ≤ maxCodeBits) (inside : symbol < lengths.length)
    (inside' : symbol < symbolCodes.length) :
    lengths[symbol]? = some (lengths.getD symbol 0) ∧
      symbolCodes[symbol]? = some (symbolCodes.getD symbol 0) ∧
      Counts (fun w => bwCode w (symbolCodes.getD symbol 0) (lengths.getD symbol 0))
        (fun before => before + lengths.getD symbol 0) := by
  refine ⟨getElem?_of_getD inside, getElem?_of_getD inside', ?_⟩
  apply counts_bwCode
  exact Nat.le_trans (getD_le bounded symbol) (by decide)

theorem emitExtra_counts (value base : Nat) {extra : Nat} (small : extra ≤ 16) :
    Counts (fun w => emitExtra w value base extra) (fun before => before + extra) := by
  by_cases none : extra = 0
  · simp only [emitExtra, none, ne_eq, not_true_eq_false, if_false]
    exact counts_nothing
  · simp only [emitExtra, ne_eq, none, not_false_eq_true, if_true]
    exact counts_bwBits _ small

theorem emitToken_counts (ready : codes.Ready) (token : Token) :
    Counts (fun w => emitToken codes w token)
      (fun before => before + tokenLength codes.litLen codes.distLen token) := by
  obtain ⟨⟨litSize, distSize, litBounded, distBounded⟩, litCodes, distCodes⟩ := ready
  by_cases isLiteral : token.length = 0
  · obtain ⟨isLength, isCode, counts⟩ := emitSymbol_counts codes.litCode litBounded
      (by rw [litSize]; exact literal_lt token.literal)
      (by rw [litCodes]; exact literal_lt token.literal)
    simp only [emitToken, tokenLength, if_pos isLiteral, isLength, isCode, Option.bind_eq_bind,
      Option.bind_some]
    exact counts
  · obtain ⟨isLength, isCode, counts⟩ := emitSymbol_counts codes.litCode litBounded
      (by rw [litSize]; exact lengthSymbol_lt token.length)
      (by rw [litCodes]; exact lengthSymbol_lt token.length)
    obtain ⟨isLength', isCode', counts'⟩ := emitSymbol_counts codes.distCode
      distBounded (by rw [distSize]; exact distanceToCode_lt token.distance)
      (by rw [distCodes]; exact distanceToCode_lt token.distance)
    have isBase : lengthBase[lengthToCode token.length]? = _ :=
      getElem?_of_getD (lengthToCode_lt token.length)
    have isExtra : lengthExtra[lengthToCode token.length]? = _ :=
      getElem?_of_getD (lengthToCode_lt token.length)
    have isBase' : distBase[distanceToCode token.distance]? = _ :=
      getElem?_of_getD (distanceToCode_lt token.distance)
    have isExtra' : distExtra[distanceToCode token.distance]? = _ :=
      getElem?_of_getD (distanceToCode_lt token.distance)
    have few : lengthExtra.getD (lengthToCode token.length) 0 ≤ 16 := getD_le (by decide) _
    have few' : distExtra.getD (distanceToCode token.distance) 0 ≤ 16 := getD_le (by decide) _
    have whole := ((counts.bind (emitExtra_counts token.length
      (lengthBase.getD (lengthToCode token.length) 0) few)).bind counts').bind
      (emitExtra_counts token.distance (distBase.getD (distanceToCode token.distance) 0) few')
    simp only [Option.bind_eq_bind, Option.bind_assoc] at whole
    simp only [emitToken, tokenLength, if_neg isLiteral, isLength, isCode, isLength', isCode',
      isBase, isExtra, isBase', isExtra', Option.bind_eq_bind, Option.bind_some]
    apply whole.congr
    intro before
    omega

theorem emitTokens_counts (ready : codes.Ready) (tokens : List Token) :
    Counts (emitTokens codes tokens)
      (fun before => before + tokensLength codes.litLen codes.distLen tokens) := by
  have each := Counts.foldlM tokens fun token _ => emitToken_counts ready token
  have inLit : endOfBlock < codes.litLen.length := by
    rw [ready.lengths.litSize]
    decide
  have inCodes : endOfBlock < codes.litCode.length := by
    rw [ready.litCodes]
    decide
  obtain ⟨isLength, isCode, counts⟩ :=
    emitSymbol_counts codes.litCode ready.lengths.litBounded inLit inCodes
  have whole := each.bind counts
  simp only [Nat.add_assoc] at whole
  unfold emitTokens
  simp only [isLength, isCode, Option.bind_eq_bind, Option.bind_some] at whole ⊢
  exact whole

end Tokens

/-! ## The header of a dynamic block -/

def packedLength (clLen : List Nat) (entry : Nat × Nat) : Nat :=
  clLen.getD entry.1 0 + extraBits entry.1

/-- The bits of a header after the type of the block. -/
def headerLength (header : DynamicHeader) : Nat :=
  14 + header.hclen * 3 + (header.packed.map (packedLength header.clLen)).sum

section Header

variable {litLen distLen : List Nat} {header : DynamicHeader}

theorem length_flatMap_const {α : Type} (items : List α) (field : α → List Bool) (count : Nat)
    (same : ∀ item, (field item).length = count) :
    (items.flatMap field).length = items.length * count := by
  induction items with
  | nil => rw [List.flatMap_nil, List.length_nil, List.length_nil, Nat.zero_mul]
  | cons item items induction =>
      rw [List.flatMap_cons, List.length_append, same, induction, List.length_cons, Nat.succ_mul,
        Nat.add_comm]

theorem length_headerBits (header : DynamicHeader) :
    (headerBits header).length = headerLength header := by
  have codelens := length_flatMap_const (List.range header.hclen) (codelenBits header.clLen) 3
    fun i => length_bitsOf 3 _
  have packed : ∀ entries : List (Nat × Nat), (entries.flatMap (packedBits header.clLen)).length =
      (entries.map (packedLength header.clLen)).sum := by
    intro entries
    induction entries with
    | nil => rfl
    | cons entry entries induction =>
        rw [List.flatMap_cons, List.length_append, induction, List.map_cons, List.sum_cons,
          packedBits, List.length_append, length_wordOf, length_bitsOf, packedLength]
  rw [headerBits]
  simp only [List.length_append, length_bitsOf, codelens, packed, List.length_range, headerLength]
  omega

theorem packedCost_eq (plan : Plan litLen distLen header) {entry : Nat × Nat}
    (member : entry ∈ header.packed) (bits : Nat) :
    packedCost header.clLen bits entry = .ok (bits + packedLength header.clLen entry) := by
  rw [packedCost, get_eq_getD (inside_of_getD (plan.used entry member)), packedLength, extraBits,
    ← Nat.add_assoc]
  dsimp only [bind, Except.bind]
  split
  · rfl
  · split
    · rfl
    · split <;> rfl

theorem headerCost_eq (plan : Plan litLen distLen header) :
    headerCost header = .ok (3 + headerLength header) := by
  rw [headerCost, foldlM_cost (fun entry member bits => packedCost_eq plan member bits),
    headerLength]
  apply congrArg Except.ok
  omega

end Header

/-! ## Stored blocks -/

/-- How many stored blocks it takes. -/
def storedCount (length : Nat) : Nat := (length + (maxStored - 1)) / maxStored

theorem emitStored_counts (bytes : List UInt8) (final : Bool) :
    Counts (emitStored bytes final)
      (fun before => 8 * ((before + 10) / 8) + 32 + 8 * bytes.length) := by
  have each : Counts (fun w => bytes.foldlM emitByte w)
      (fun before => before + (bytes.map fun _ => 8).sum) :=
    Counts.foldlM bytes fun byte _ => counts_bwBits byte.toNat (by decide : 8 ≤ 16)
  have isSum : (bytes.map fun _ => 8).sum = bytes.length * 8 := by
    rw [List.map_const', List.sum_replicate_nat]
  have whole := (((((counts_bwBits (if final then 1 else 0) (by decide : 1 ≤ 16)).bind
    (counts_bwBits 0 (by decide : 2 ≤ 16))).bind counts_bwAlign).bind
    (counts_bwBits (bytes.length &&& 0xFFFF) (by decide : 16 ≤ 16))).bind
    (counts_bwBits ((2 ^ 64 - 1 - bytes.length) &&& 0xFFFF) (by decide : 16 ≤ 16))).bind each
  simp only [Option.bind_eq_bind, Option.bind_assoc] at whole
  apply whole.congr
  intro before
  rw [isSum]
  omega

/-- From a whole byte on each block adds its five bytes to the bytes it holds. -/
theorem storedBlocks_counts (input : List UInt8) (pos : Nat) :
    ∃ total, Counts (storedBlocks input pos) total ∧ ∀ before, before % 8 = 0 → total before =
      before + 40 * storedCount (input.length - pos) + 8 * (input.length - pos) := by
  by_cases more : pos < input.length
  · obtain ⟨chunk, isChunk⟩ : ∃ chunk, chunk =
      if maxStored < input.length - pos then maxStored else input.length - pos := ⟨_, rfl⟩
    have isMax : maxStored = 65535 := rfl
    have least : 0 < chunk ∧ chunk ≤ input.length - pos := by
      rw [isChunk]
      split <;> omega
    have isLong : ((input.drop pos).take chunk).length = chunk := by
      rw [List.length_take, List.length_drop]
      omega
    have block := emitStored_counts ((input.drop pos).take chunk)
      (decide (input.length ≤ pos + chunk))
    obtain ⟨total, rest, isTotal⟩ := storedBlocks_counts input (pos + chunk)
    have isStep : storedBlocks input pos = fun w =>
        emitStored ((input.drop pos).take chunk) (decide (input.length ≤ pos + chunk)) w >>=
          storedBlocks input (pos + chunk) := by
      funext w
      rw [storedBlocks, if_pos more, isChunk]
    refine ⟨_, isStep ▸ block.bind rest, ?_⟩
    intro before aligned
    rw [isTotal _ (by omega), isLong, storedCount, storedCount, isMax]
    rw [isMax] at isChunk
    split at isChunk
    · omega
    · omega
  · have isDone : storedBlocks input pos = some := by
      funext w
      rw [storedBlocks, if_neg more]
    have noRest : input.length - pos = 0 := by omega
    refine ⟨_, isDone ▸ counts_nothing, ?_⟩
    intro before _
    rw [noRest]
    rfl
termination_by input.length - pos

theorem stored_writes (input : List UInt8) :
    Writes (storedBlocks input 0) (input.length + 5 * storedCount input.length) := by
  obtain ⟨total, counts, isTotal⟩ := storedBlocks_counts input 0
  have writes := counts.writes
  rw [isTotal 0 rfl, bytesOf, Nat.sub_zero] at writes
  have same : (0 + 40 * storedCount input.length + 8 * input.length + 7) / 8 =
      input.length + 5 * storedCount input.length := by omega
  rwa [same] at writes

theorem storedCount_one {length : Nat} (positive : 0 < length) :
    storedCount length = 1 ↔ length ≤ maxStored := by
  rw [storedCount, maxStored]
  omega

end FoundationsLab.Deflate
