import FoundationsLab.Deflate.BlockChoice
import FoundationsLab.Deflate.Blocks

/-! # Streams are written

What the encoder writes is a stream of blocks that spells the input. A dynamic block is
right only if the distances of its matches have codes of their own. -/

namespace FoundationsLab.Deflate

open Foundation Foundation.BitStream Foundation.CanonicalCode Foundation.SlidingWindow

/-! ## Tokens as symbols -/

theorem codeFrom_le {base : List Nat} {value : Nat} (first : base.getD 0 0 ≤ value) (n : Nat) :
    base.getD (codeFrom base value n) 0 ≤ value := by
  induction n with
  | zero => exact first
  | succ n induction =>
      rw [codeFrom]
      split
      · rename_i atMost
        exact atMost
      · exact induction

theorem lt_of_codeFrom_lt {base : List Nat} {value n i : Nat} (above : codeFrom base value n < i)
    (inside : i < n) : value < base.getD i 0 := by
  induction n with
  | zero => exact absurd inside (Nat.not_lt_zero i)
  | succ n induction =>
      rw [codeFrom] at above
      split at above
      · omega
      · rename_i more
        rcases Nat.lt_succ_iff_lt_or_eq.mp inside with less | rfl
        · exact induction above less
        · exact Nat.lt_of_not_le more

/-- Where each entry of the table is in reach of the one before, the extra bits hold the
rest of a value. -/
theorem codeFrom_extra {base extra : List Nat} {n limit value : Nat}
    (near : ∀ i < n, base.getD (i + 1) 0 ≤ base.getD i 0 + 2 ^ extra.getD i 0)
    (last : limit < base.getD n 0 + 2 ^ extra.getD n 0) (first : base.getD 0 0 ≤ value)
    (small : value ≤ limit) :
    base.getD (codeFrom base value (n + 1)) 0 ≤ value ∧
      value - base.getD (codeFrom base value (n + 1)) 0 <
        2 ^ extra.getD (codeFrom base value (n + 1)) 0 := by
  have isLess := codeFrom_lt base value n
  have atMost := codeFrom_le first (n + 1)
  refine ⟨atMost, ?_⟩
  rcases Nat.lt_succ_iff_lt_or_eq.mp isLess with less | isLast
  · have next : value < base.getD (codeFrom base value (n + 1) + 1) 0 :=
      lt_of_codeFrom_lt (Nat.lt_succ_self _) (Nat.succ_lt_succ less)
    have reach := near _ less
    omega
  · rw [isLast] at atMost ⊢
    omega

theorem length_extra {length : Nat} (short : 3 ≤ length) (long : length ≤ 258) :
    lengthBase.getD (lengthToCode length) 0 ≤ length ∧
      length - lengthBase.getD (lengthToCode length) 0 <
        2 ^ lengthExtra.getD (lengthToCode length) 0 :=
  codeFrom_extra (by decide : ∀ i < 28, _) (by decide : 258 < _) short long

theorem distance_extra {distance : Nat} (positive : 1 ≤ distance) (near : distance ≤ 32768) :
    distBase.getD (distanceToCode distance) 0 ≤ distance ∧
      distance - distBase.getD (distanceToCode distance) 0 <
        2 ^ distExtra.getD (distanceToCode distance) 0 :=
  codeFrom_extra (by decide : ∀ i < 29, _) (by decide : 32768 < _) positive near

/-- A token as the symbols that stand for it. -/
def Token.item (token : Token) : Item :=
  if token.length = 0 then .literal token.literal
  else .copy (lengthToCode token.length)
    (token.length - lengthBase.getD (lengthToCode token.length) 0)
    (distanceToCode token.distance)
    (token.distance - distBase.getD (distanceToCode token.distance) 0)

theorem Token.item_piece {token : Token} {produced : Nat} (fits : token.Fits produced) :
    token.item.piece = token.piece := by
  rw [Token.item, Token.piece]
  rcases fits with isLiteral | ⟨short, long, positive, near⟩
  · rw [if_pos isLiteral, if_pos isLiteral]
    rfl
  · have notZero : token.length ≠ 0 := Nat.ne_of_gt (Nat.lt_of_lt_of_le (by decide) short)
    have isNear : token.distance ≤ 32768 := Nat.le_trans near (Nat.min_le_left _ _)
    rw [if_neg notZero, if_neg notZero, Item.piece, Nat.add_sub_of_le (length_extra short long).1,
      Nat.add_sub_of_le (distance_extra positive isNear).1]

theorem Token.item_legal {token : Token} {produced : Nat} (fits : token.Fits produced)
    {litLen distLen : List Nat} (lit : litLen.getD (litSymbol token) 0 ≠ 0)
    (dist : ∀ symbol ∈ distSymbol token, distLen.getD symbol 0 ≠ 0) :
    token.item.Legal litLen distLen := by
  rw [litSymbol] at lit
  rw [distSymbol] at dist
  rw [Token.item]
  rcases fits with isLiteral | ⟨short, long, positive, near⟩
  · rw [if_pos isLiteral] at lit ⊢
    exact lit
  · have notZero : token.length ≠ 0 := Nat.ne_of_gt (Nat.lt_of_lt_of_le (by decide) short)
    have isNear : token.distance ≤ 32768 := Nat.le_trans near (Nat.min_le_left _ _)
    rw [if_neg notZero] at lit dist ⊢
    exact ⟨⟨lengthToCode_lt _, lit, (length_extra short long).2⟩, distanceToCode_lt _,
      dist _ (List.mem_singleton_self _), (distance_extra positive isNear).2⟩

/-! ## Coded blocks -/

section Emission

variable {codes : BlockCodes}

theorem emitSymbol_appends {lengths symbolCodes : List Nat} {symbol : Nat}
    (bounded : ∀ length ∈ lengths, length ≤ maxCodeBits)
    (isCode : symbolCodes.getD symbol 0 =
      if lengths.getD symbol 0 = 0 then 0 else code lengths symbol) :
    Appends (fun w => bwCode w (symbolCodes.getD symbol 0) (lengths.getD symbol 0))
      (fun bits => bits ++ symbolWord lengths symbol) := by
  have few : lengths.getD symbol 0 ≤ 16 := Nat.le_trans (getD_le bounded symbol) (by decide)
  have appends := appends_bwCode (symbolCodes.getD symbol 0) few
  by_cases none : lengths.getD symbol 0 = 0
  · rw [symbolWord, none]
    rw [none] at appends
    exact appends
  · rw [if_neg none] at isCode
    rw [symbolWord, isCode]
    rw [isCode] at appends
    exact appends

theorem emitExtra_appends (value base : Nat) {extra : Nat} (small : extra ≤ 16) :
    Appends (fun w => emitExtra w value base extra)
      (fun bits => bits ++ BitStream.bitsOf extra (value - base)) := by
  by_cases none : extra = 0
  · have same : (fun bits => bits ++ BitStream.bitsOf 0 (value - base)) = id := by
      funext bits
      exact List.append_nil bits
    simp only [emitExtra, none, ne_eq, not_true_eq_false, if_false, same]
    exact appends_nothing
  · simp only [emitExtra, ne_eq, none, not_false_eq_true, if_true]
    exact appends_bwBits _ small

theorem emitToken_appends (canonical : codes.Canonical) (token : Token) :
    Appends (fun w => emitToken codes w token)
      (fun bits => bits ++ token.item.bits codes.litLen codes.distLen) := by
  obtain ⟨⟨⟨litSize, distSize, litBounded, distBounded⟩, litCodes, distCodes⟩, isLit, isDist⟩ :=
    canonical
  by_cases isLiteral : token.length = 0
  · have inside := literal_lt token.literal
    have isLength := getElem?_of_getD (litSize.symm ▸ inside : _ < codes.litLen.length)
    have isCode := getElem?_of_getD (litCodes.symm ▸ inside : _ < codes.litCode.length)
    simp only [emitToken, Token.item, if_pos isLiteral, isLength, isCode, Option.bind_eq_bind,
      Option.bind_some, Item.bits]
    exact emitSymbol_appends litBounded (isLit _ inside)
  · have inside := lengthSymbol_lt token.length
    have inside' : distanceToCode token.distance < numDistances := distanceToCode_lt token.distance
    have isLength := getElem?_of_getD (litSize.symm ▸ inside : _ < codes.litLen.length)
    have isCode := getElem?_of_getD (litCodes.symm ▸ inside : _ < codes.litCode.length)
    have isLength' := getElem?_of_getD (distSize.symm ▸ inside' : _ < codes.distLen.length)
    have isCode' := getElem?_of_getD (distCodes.symm ▸ inside' : _ < codes.distCode.length)
    have isBase : lengthBase[lengthToCode token.length]? = _ :=
      getElem?_of_getD (lengthToCode_lt token.length)
    have isExtra : lengthExtra[lengthToCode token.length]? = _ :=
      getElem?_of_getD (lengthToCode_lt token.length)
    have isBase' : distBase[distanceToCode token.distance]? = _ :=
      getElem?_of_getD (distanceToCode_lt token.distance)
    have isExtra' : distExtra[distanceToCode token.distance]? = _ :=
      getElem?_of_getD (distanceToCode_lt token.distance)
    have few : lengthExtra.getD (lengthToCode token.length) 0 ≤ 16 := getD_le (by decide) _
    have few' : distExtra.getD (distanceToCode token.distance) 0 ≤ 16 := getD_le (by decide) _
    have whole := (((emitSymbol_appends litBounded (isLit _ inside)).bind
      (emitExtra_appends token.length (lengthBase.getD (lengthToCode token.length) 0) few)).bind
      (emitSymbol_appends distBounded (isDist _ inside'))).bind
      (emitExtra_appends token.distance (distBase.getD (distanceToCode token.distance) 0) few')
    simp only [Option.bind_eq_bind, Option.bind_assoc, List.append_assoc] at whole
    simp only [emitToken, Token.item, if_neg isLiteral, isLength, isCode, isLength', isCode',
      isBase, isExtra, isBase', isExtra', Option.bind_eq_bind, Option.bind_some, Item.bits]
    exact whole

theorem emitTokens_appends (canonical : codes.Canonical) (tokens : List Token) :
    Appends (emitTokens codes tokens) (fun bits => bits ++
      codedBits codes.litLen codes.distLen (tokens.map Token.item)) := by
  have inside : endOfBlock < numLiterals := by decide
  have each := Appends.foldlM tokens fun token _ => emitToken_appends canonical token
  have last := emitSymbol_appends canonical.ready.lengths.litBounded (canonical.lit _ inside)
  have isLength := getElem?_of_getD
    (canonical.ready.lengths.litSize.symm ▸ inside : _ < codes.litLen.length)
  have isCode := getElem?_of_getD
    (canonical.ready.litCodes.symm ▸ inside : _ < codes.litCode.length)
  have whole := each.bind last
  unfold emitTokens
  simp only [List.append_assoc] at whole
  simp only [isLength, isCode, Option.bind_eq_bind, Option.bind_some, codedBits, List.flatMap_map]
    at whole ⊢
  exact whole

/-- The type of a block goes first. -/
theorem block_appends {program : Bitwriter → Option Bitwriter} (block : Block)
    (body : Appends program (fun bits => bits ++ block.body)) :
    Appends (fun w => bwBits w 1 1 >>= fun w => bwBits w block.type 2 >>= program)
      (fun bits => bits ++ block.bits true) := by
  have whole := ((appends_bwBits 1 (by decide : 1 ≤ 16)).bind
    (appends_bwBits block.type (by decide : 2 ≤ 16))).bind body
  simp only [List.append_assoc, Option.bind_eq_bind, Option.bind_assoc] at whole
  exact whole

end Emission

/-! ## The branches -/

/-- The program writes blocks that say this. -/
def EmitsStream (program : Bitwriter → Option Bitwriter) (pieces : List (Piece UInt8)) : Prop :=
  ∃ stream, Appends program stream ∧
    ∀ before, ∃ bits, stream before = before ++ bits ∧ Stream before.length bits pieces

theorem emits_block {program : Bitwriter → Option Bitwriter} {block : Block}
    (appends : Appends program (fun bits => bits ++ block.bits true))
    (legal : ∀ before, block.Legal before) : EmitsStream program block.pieces := by
  refine ⟨_, appends, ?_⟩
  intro before
  exact ⟨_, rfl, Stream.last (legal before.length)⟩

/-- Every distance has a code of its own: there are two different ones, or all are the
first one. -/
def DistancesCoded (tokens : List Token) : Prop :=
  ∀ symbol ∈ distSymbols tokens, symbol = 0 ∨ ∃ other ∈ distSymbols tokens, other ≠ symbol

section Branches

variable {input : List UInt8} {candidates : Candidates}

theorem Spells.token_fits {tokens : List Token} {place : Nat} (spells : Spells input tokens place)
    {token : Token} (member : token ∈ tokens) : ∃ produced, token.Fits produced := by
  obtain ⟨before, after, isSplit⟩ := List.append_of_mem member
  obtain ⟨out, -, fits⟩ := spells.fit before token after isSplit
  exact ⟨_, fits⟩

theorem Built.expands (built : Built input candidates) :
    expand ((candidates.tokens.map Token.item).map Item.piece) = some input := by
  have same : (candidates.tokens.map Token.item).map Item.piece =
      candidates.tokens.map Token.piece := by
    rw [List.map_map]
    apply List.map_congr_left
    intro token member
    obtain ⟨produced, fits⟩ := built.spells.token_fits member
    exact Token.item_piece fits
  have expands := built.spells.expands
  rw [expandTokens, List.take_length] at expands
  rw [same, expands]

theorem Built.items_legal (built : Built input candidates) {litLen distLen : List Nat}
    (lit : ∀ symbol ∈ litSymbols candidates.tokens, litLen.getD symbol 0 ≠ 0)
    (dist : ∀ symbol ∈ distSymbols candidates.tokens, distLen.getD symbol 0 ≠ 0) :
    ∀ item ∈ candidates.tokens.map Token.item, item.Legal litLen distLen := by
  intro item member
  obtain ⟨token, isToken, rfl⟩ := List.mem_map.mp member
  obtain ⟨produced, fits⟩ := built.spells.token_fits isToken
  apply Token.item_legal fits
  · exact lit _ (List.mem_append_left _ (List.mem_map_of_mem isToken))
  · intro symbol isSymbol
    exact dist symbol (List.mem_flatMap.mpr ⟨token, isToken, isSymbol⟩)

theorem Built.emits_fixed (built : Built input candidates) :
    EmitsStream (candidates.write input .fixed)
      ((candidates.tokens.map Token.item).map Item.piece) := by
  have body := emitTokens_appends built.fixedCodes candidates.tokens
  rw [built.isFixedLit, built.isFixedDist] at body
  apply emits_block (block_appends (.fixed (candidates.tokens.map Token.item)) body)
  intro before
  apply built.items_legal
  · intro symbol member
    exact fixedLitLen_positive (litSymbols_lt symbol member)
  · intro symbol member
    rw [fixedDistLen_getD (distSymbols_lt symbol member)]
    decide

/-- The end of the block is not the only symbol. -/
theorem Built.lit_apart (built : Built input candidates) (notEmpty : input ≠ []) :
    ∀ symbol ∈ litSymbols candidates.tokens,
      symbol = 0 ∨ ∃ other ∈ litSymbols candidates.tokens, other ≠ symbol := by
  intro symbol _
  right
  by_cases isEnd : symbol = endOfBlock
  · have someToken : candidates.tokens ≠ [] := by
      intro none
      have expands := built.spells.expands
      rw [none, List.take_length] at expands
      exact notEmpty (Option.some.inj expands).symm
    obtain ⟨token, member⟩ := List.exists_mem_of_ne_nil _ someToken
    refine ⟨litSymbol token, List.mem_append_left _ (List.mem_map_of_mem member), ?_⟩
    have small : token.literal.toNat < 256 := token.literal.toNat_lt
    rw [isEnd, litSymbol, endOfBlock]
    split <;> omega
  · refine ⟨endOfBlock, List.mem_append_right _ (List.mem_singleton_self _), ?_⟩
    intro same
    exact isEnd same.symm

theorem length_distSymbols_le (tokens : List Token) :
    (distSymbols tokens).length ≤ tokens.length := by
  induction tokens with
  | nil => exact Nat.le_refl 0
  | cons token tokens induction =>
      have one : (distSymbol token).length ≤ 1 := by
        rw [distSymbol]
        split
        · exact Nat.zero_le 1
        · exact Nat.le_refl 1
      rw [distSymbols] at induction ⊢
      rw [List.flatMap_cons, List.length_append, List.length_cons]
      omega

theorem withDistance_used {distLen : List Nat} {symbol : Nat} (used : distLen.getD symbol 0 ≠ 0) :
    withDistance distLen = distLen := by
  rw [withDistance, if_neg]
  intro none
  apply used
  by_cases inside : symbol < distLen.length
  · rw [List.getD_eq_getElem _ _ inside]
    exact none _ (List.getElem_mem inside)
  · exact List.getD_eq_default _ _ (Nat.le_of_not_lt inside)

theorem Built.emits_dynamic (built : Built input candidates) (notEmpty : input ≠ [])
    (small : input.length + 1 < 2 ^ 32) (coded : DistancesCoded candidates.tokens) :
    EmitsStream (candidates.write input .dynamic)
      ((candidates.tokens.map Token.item).map Item.piece) := by
  have few := built.spells.few
  have fewDist := length_distSymbols_le candidates.tokens
  have fewLit : (litSymbols candidates.tokens).length < 2 ^ 32 := by
    rw [litSymbols, List.length_append, List.length_map, List.length_singleton]
    omega
  have usedLit := built.lit.used fewLit (built.lit_apart notEmpty)
  obtain ⟨distLen, dist, isDist⟩ := built.dist
  have usedDist : ∀ symbol ∈ distSymbols candidates.tokens,
      candidates.dynamicCodes.distLen.getD symbol 0 ≠ 0 := by
    intro symbol member
    have used := dist.used (by omega) coded symbol member
    rw [isDist, withDistance_used used]
    exact used
  have isEnd : endOfBlock ∈ litSymbols candidates.tokens :=
    List.mem_append_right _ (List.mem_singleton_self _)
  obtain ⟨litSize, distSize, litBounded, distBounded⟩ := built.dynamicCodes.ready.lengths
  have codes : CodePair candidates.dynamicCodes.litLen candidates.dynamicCodes.distLen :=
    ⟨litSize, distSize, litBounded, distBounded, built.lit.kraft, built.kraftDist, usedLit _ isEnd⟩
  have body := (writeDynamicHeader_appends built.plan).bind
    (emitTokens_appends built.dynamicCodes candidates.tokens)
  simp only [List.append_assoc] at body
  apply emits_block (block_appends (.dynamic candidates.dynamicCodes.litLen
    candidates.dynamicCodes.distLen candidates.header (candidates.tokens.map Token.item)) body)
  intro before
  exact ⟨built.plan, codes, built.items_legal usedLit usedDist⟩

end Branches

/-! ## Stored blocks -/

section Stored

theorem emitStored_appends {bytes : List UInt8} (small : bytes.length < 2 ^ 16) (final : Bool) :
    Appends (emitStored bytes final) (fun bits => bits ++ (Block.stored
      (List.replicate (padding (bits.length + 3)) false) bytes).bits final) := by
  have mask : ∀ value, value &&& 0xFFFF = value % 2 ^ 16 :=
    fun value => Nat.and_two_pow_sub_one_eq_mod value 16
  have isLen : bytes.length &&& 0xFFFF = bytes.length := by
    rw [mask]
    omega
  have isNlen : (2 ^ 64 - 1 - bytes.length) &&& 0xFFFF = 2 ^ 16 - 1 - bytes.length := by
    rw [mask]
    omega
  have each : Appends (fun w => bytes.foldlM emitByte w) (fun bits => bits ++ bitsOfBytes bytes) :=
    Appends.foldlM bytes fun byte _ => appends_bwBits byte.toNat (by decide : 8 ≤ 16)
  have whole := (((((appends_bwBits (if final then 1 else 0) (by decide : 1 ≤ 16)).bind
    (appends_bwBits 0 (by decide : 2 ≤ 16))).bind appends_bwAlign).bind
    (appends_bwBits bytes.length (by decide : 16 ≤ 16))).bind
    (appends_bwBits (2 ^ 16 - 1 - bytes.length) (by decide : 16 ≤ 16))).bind each
  have isFinal : (if final then 1 else 0) = final.toNat := by
    cases final <;> rfl
  have same : (fun bits : List Bool => bits ++ (Block.stored
        (List.replicate (padding (bits.length + 3)) false) bytes).bits final) =
      fun bits => align (bits ++ BitStream.bitsOf 1 final.toNat ++ BitStream.bitsOf 2 0) ++
        BitStream.bitsOf 16 bytes.length ++
        BitStream.bitsOf 16 (2 ^ 16 - 1 - bytes.length) ++ bitsOfBytes bytes := by
    funext bits
    have isLong : (bits ++ BitStream.bitsOf 1 final.toNat ++ BitStream.bitsOf 2 0).length =
        bits.length + 3 := by
      rw [List.length_append, List.length_append, length_bitsOf, length_bitsOf]
    rw [align, isLong, Block.bits, Block.body, Block.type]
    simp only [List.append_assoc]
  rw [same]
  unfold emitStored
  simp only [isLen, isNlen, isFinal, Option.bind_eq_bind, Option.bind_assoc] at whole ⊢
  exact whole

theorem emitStored_emits {bytes : List UInt8} (small : bytes.length < 2 ^ 16) :
    EmitsStream (emitStored bytes true) (bytes.map .literal) := by
  refine ⟨_, emitStored_appends small true, ?_⟩
  intro before
  exact ⟨_, rfl, Stream.last ⟨List.length_replicate, small⟩⟩

/-- The chunks of the input go into blocks of their own. -/
theorem storedBlocks_emits (input : List UInt8) (pos : Nat) (more : pos < input.length) :
    EmitsStream (storedBlocks input pos) ((input.drop pos).map .literal) := by
  obtain ⟨chunk, isChunk⟩ : ∃ chunk, chunk =
    if maxStored < input.length - pos then maxStored else input.length - pos := ⟨_, rfl⟩
  have isMax : maxStored = 65535 := rfl
  have least : 0 < chunk ∧ chunk ≤ input.length - pos ∧ chunk ≤ maxStored := by
    rw [isChunk]
    split <;> omega
  have small : ((input.drop pos).take chunk).length < 2 ^ 16 := by
    rw [List.length_take]
    omega
  have isStep : storedBlocks input pos = fun w =>
      emitStored ((input.drop pos).take chunk) (decide (input.length ≤ pos + chunk)) w >>=
        storedBlocks input (pos + chunk) := by
    funext w
    rw [storedBlocks, if_pos more, isChunk]
  by_cases last : input.length ≤ pos + chunk
  · have noMore : storedBlocks input (pos + chunk) = some := by
      funext w
      rw [storedBlocks, if_neg (by omega)]
    have isAll : (input.drop pos).take chunk = input.drop pos :=
      List.take_of_length_le (by rw [List.length_drop]; omega)
    have isLast : storedBlocks input pos = emitStored (input.drop pos) true := by
      rw [isStep, noMore, decide_eq_true last, isAll]
      funext w
      exact bind_pure _
    rw [isAll] at small
    rw [isLast]
    exact emitStored_emits small
  · obtain ⟨stream, appends, isStream⟩ := storedBlocks_emits input (pos + chunk) (by omega)
    have first := emitStored_appends small false
    have whole := first.bind appends
    rw [isStep, decide_eq_false last]
    refine ⟨_, whole, ?_⟩
    intro before
    obtain ⟨bits, isBits, rest⟩ := isStream (before ++ (Block.stored
      (List.replicate (padding (before.length + 3)) false)
        ((input.drop pos).take chunk)).bits false)
    have isSplit : (input.drop pos).map Piece.literal =
        ((input.drop pos).take chunk).map Piece.literal ++
          (input.drop (pos + chunk)).map Piece.literal := by
      rw [← List.map_append, ← List.drop_drop, List.take_append_drop]
    refine ⟨_, isBits.trans (List.append_assoc _ _ _), ?_⟩
    rw [isSplit]
    rw [List.length_append] at rest
    exact Stream.next ⟨List.length_replicate, small⟩ rest
termination_by input.length - pos

end Stored

end FoundationsLab.Deflate
