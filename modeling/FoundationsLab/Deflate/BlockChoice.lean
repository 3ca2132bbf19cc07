import FoundationsLab.Deflate.Costs
import FoundationsLab.Deflate.FixedLengths

/-! # The choice of a block

Every parse leads to codes that the format can hold, so the estimates can be compared
with what the branches write. -/

namespace FoundationsLab.Deflate

open Foundation.BitStream Foundation.CanonicalCode

/-! ## Symbols and their lengths -/

def litSymbol (token : Token) : Nat :=
  if token.length = 0 then token.literal.toNat else 257 + lengthToCode token.length

/-- The symbol of a distance, if the token has one. -/
def distSymbol (token : Token) : List Nat :=
  if token.length = 0 then [] else [distanceToCode token.distance]

/-- Lengths for an alphabet in which these symbols occur. A single symbol gets a code only
if it is the first one of the alphabet. -/
structure SymbolLengths (number : Nat) (symbols lengths : List Nat) : Prop where
  size : lengths.length = number
  bounded : ∀ length ∈ lengths, length ≤ maxCodeBits
  kraft : Kraft lengths
  used : symbols.length < 2 ^ 32 →
    (∀ symbol ∈ symbols, symbol = 0 ∨ ∃ other ∈ symbols, other ≠ symbol) →
    ∀ symbol ∈ symbols, lengths.getD symbol 0 ≠ 0

section Symbols

variable {number : Nat} {symbols freqs : List Nat}

/-- What a single used symbol gets: a length, if it is the first one. -/
theorem only_first_used (few : freqs.length ≤ numLiterals) (one : (usedSymbols freqs).length = 1)
    (first : freqs.getD 0 0 ≠ 0) {lengths : List Nat}
    (built : huffBuildLengths maxCodeBits buildTurns freqs = .ok lengths) (symbol : Nat) :
    lengths.getD symbol 0 ≠ 0 ↔ freqs.getD symbol 0 ≠ 0 := by
  obtain ⟨⟨maxLen, lengths'⟩, returned, isOne, -, iff⟩ := buildTurn_one few one
  dsimp only at isOne iff
  have low : maxLen ≤ maxCodeBits := by
    rw [isOne]
    decide
  rw [buildTurns, huffBuildLengths, returned] at built
  dsimp only [bind, Except.bind] at built
  rw [if_pos low] at built
  obtain rfl := Except.ok.inj built
  exact iff.mpr first symbol

theorem Occurred.symbolLengths (occurred : Occurred number symbols freqs)
    (few : number ≤ numLiterals) (inside : ∀ symbol ∈ symbols, symbol < number) :
    Checked.Returns (SymbolLengths number symbols)
      (huffBuildLengths maxCodeBits buildTurns freqs) := by
  have isSize := occurred.size
  have room : numLiterals ≤ 2 ^ maxCodeBits := by decide
  have positive : 1 ≤ maxCodeBits := by decide
  have few' : freqs.length ≤ numLiterals := by omega
  obtain ⟨lengths, built, coded⟩ :=
    huffBuildLengths_coded few' positive (by omega) occurred.lt
  have kraft := coded.kraft (by decide) maxCodeBits (Nat.le_refl _)
  refine ⟨lengths, built, coded.size.trans isSize, coded.bounded, kraft, ?_⟩
  intro notMany apart symbol member
  have isUsed := (occurred.positive notMany (inside symbol member)).mpr member
  have someUsed := List.length_pos_of_mem (mem_usedSymbols_iff.mpr isUsed)
  rcases Nat.lt_or_ge 1 (usedSymbols freqs).length with two | one
  · have total := occurred.total
    exact ((coded.complete two (by omega)).2 symbol).mpr isUsed
  · have isOne : (usedSymbols freqs).length = 1 := by omega
    obtain ⟨only, isOnly⟩ := List.length_eq_one_iff.mp isOne
    have same : ∀ other ∈ symbols, other = only := by
      intro other member'
      have isUsed' := (occurred.positive notMany (inside other member')).mpr member'
      have found := mem_usedSymbols_iff.mpr isUsed'
      rw [isOnly, List.mem_singleton] at found
      exact found
    rcases apart symbol member with isZero | ⟨other, member', different⟩
    · rw [isZero] at isUsed
      rw [isZero]
      exact (only_first_used few' isOne isUsed built 0).mpr isUsed
    · exact absurd ((same other member').trans (same symbol member).symm) different

theorem litSymbol_lt (token : Token) : litSymbol token < numLiterals := by
  rw [litSymbol]
  split
  · exact literal_lt token.literal
  · exact lengthSymbol_lt token.length

theorem distSymbol_lt {token : Token} {symbol : Nat} (member : symbol ∈ distSymbol token) :
    symbol < numDistances := by
  rw [distSymbol] at member
  split at member
  · exact absurd member List.not_mem_nil
  · rw [List.mem_singleton.mp member]
    exact distanceToCode_lt token.distance

theorem countToken_returns {lits dists : List Nat} {freqs : List Nat × List Nat}
    (lit : Occurred numLiterals lits freqs.1) (dist : Occurred numDistances dists freqs.2)
    (token : Token) :
    Checked.Returns (fun freqs' => Occurred numLiterals (lits ++ [litSymbol token]) freqs'.1 ∧
      Occurred numDistances (dists ++ distSymbol token) freqs'.2) (countToken freqs token) := by
  rcases freqs with ⟨litFreq, distFreq⟩
  rw [countToken, litSymbol, distSymbol]
  split
  · apply (countSymbol_returns lit (literal_lt token.literal)).bind
    intro litFreq' lit'
    rw [List.append_nil]
    exact Checked.Returns.ok ⟨lit', dist⟩
  · apply (countSymbol_returns lit (lengthSymbol_lt token.length)).bind
    intro litFreq' lit'
    apply (countSymbol_returns dist (distanceToCode_lt token.distance)).bind
    intro distFreq' dist'
    exact Checked.Returns.ok ⟨lit', dist'⟩

theorem countTokens_returns (tokens : List Token) {lits dists : List Nat}
    {freqs : List Nat × List Nat} (lit : Occurred numLiterals lits freqs.1)
    (dist : Occurred numDistances dists freqs.2) :
    Checked.Returns (fun freqs' => Occurred numLiterals (lits ++ tokens.map litSymbol) freqs'.1 ∧
      Occurred numDistances (dists ++ tokens.flatMap distSymbol) freqs'.2)
      (tokens.foldlM countToken freqs) := by
  induction tokens generalizing lits dists freqs with
  | nil =>
      rw [List.map_nil, List.flatMap_nil, List.append_nil, List.append_nil]
      exact Checked.Returns.ok ⟨lit, dist⟩
  | cons token tokens induction =>
      rw [List.foldlM_cons]
      apply (countToken_returns lit dist token).bind
      rintro freqs' ⟨lit', dist'⟩
      have rest := induction lit' dist'
      rwa [List.append_assoc, List.append_assoc, List.singleton_append] at rest

/-- The symbols of a block, with the one for its end. -/
def litSymbols (tokens : List Token) : List Nat := tokens.map litSymbol ++ [endOfBlock]

def distSymbols (tokens : List Token) : List Nat := tokens.flatMap distSymbol

theorem symbols_returns (tokens : List Token) :
    Checked.Returns (fun freqs => Occurred numLiterals (litSymbols tokens) freqs.1 ∧
      Occurred numDistances (distSymbols tokens) freqs.2) (countSymbols tokens) := by
  apply (countTokens_returns tokens (occurred_none numLiterals) (occurred_none numDistances)).bind
  rintro ⟨litFreq, distFreq⟩ ⟨lit, dist⟩
  apply (countSymbol_returns lit (by decide : endOfBlock < numLiterals)).bind
  intro litFreq' lit'
  exact Checked.Returns.ok ⟨lit', dist⟩

theorem litSymbols_lt {tokens : List Token} : ∀ symbol ∈ litSymbols tokens, symbol < numLiterals := by
  intro symbol member
  rcases List.mem_append.mp member with inTokens | isEnd
  · obtain ⟨token, -, rfl⟩ := List.mem_map.mp inTokens
    exact litSymbol_lt token
  · rw [List.mem_singleton.mp isEnd]
    decide

theorem distSymbols_lt {tokens : List Token} :
    ∀ symbol ∈ distSymbols tokens, symbol < numDistances := by
  intro symbol member
  obtain ⟨token, -, isSymbol⟩ := List.mem_flatMap.mp member
  exact distSymbol_lt isSymbol

end Symbols

/-! ## The codes -/

/-- Both codes are the canonical ones of their lengths. -/
structure BlockCodes.Canonical (codes : BlockCodes) : Prop where
  ready : codes.Ready
  lit : ∀ symbol < numLiterals, codes.litCode.getD symbol 0 =
    if codes.litLen.getD symbol 0 = 0 then 0 else code codes.litLen symbol
  dist : ∀ symbol < numDistances, codes.distCode.getD symbol 0 =
    if codes.distLen.getD symbol 0 = 0 then 0 else code codes.distLen symbol

section Codes

variable {litLen distLen : List Nat}

/-- An unused code for a distance does not break the other codes: there are none. -/
theorem withDistance_facts (isSize : distLen.length = numDistances)
    (bounded : ∀ length ∈ distLen, length ≤ maxCodeBits) (kraft : Kraft distLen) :
    (withDistance distLen).length = numDistances ∧
      (∀ length ∈ withDistance distLen, length ≤ maxCodeBits) ∧ Kraft (withDistance distLen) ∧
      ∃ length ∈ withDistance distLen, length ≠ 0 := by
  rw [withDistance]
  split
  · rename_i none
    have isZero : distLen = List.replicate numDistances 0 :=
      List.eq_replicate_iff.mpr ⟨isSize, none⟩
    rw [isZero]
    decide
  · rename_i some
    refine ⟨isSize, bounded, kraft, ?_⟩
    by_contra none
    apply some
    intro length member
    by_contra notZero
    exact none ⟨length, member, notZero⟩

theorem blockCodes_returns (lengths : Lengths litLen distLen) (kraftLit : Kraft litLen)
    (kraftDist : Kraft distLen) :
    Checked.Returns (fun codes => codes.litLen = litLen ∧ codes.distLen = distLen ∧
      codes.Canonical) (blockCodes litLen distLen) := by
  have litSize := lengths.litSize
  have distSize := lengths.distSize
  have forLit := huffAssignCodes_returns lengths.litBounded (by rw [litSize]; decide) kraftLit
  have forDist := huffAssignCodes_returns lengths.distBounded (by rw [distSize]; decide) kraftDist
  rw [litSize] at forLit
  rw [distSize] at forDist
  apply forLit.bind
  rintro litCode ⟨isLit, litCodes⟩
  apply forDist.bind
  rintro distCode ⟨isDist, distCodes⟩
  refine Checked.Returns.ok ⟨rfl, rfl, ⟨lengths, isLit, isDist⟩, ?_, ?_⟩
  · intro symbol inside
    rw [List.getD_eq_getElem?_getD, litCodes symbol inside]
    rfl
  · intro symbol inside
    rw [List.getD_eq_getElem?_getD, distCodes symbol inside]
    rfl

end Codes

/-! ## The candidates -/

/-- What the encoder knows when it chooses. -/
structure Built (input : List UInt8) (candidates : Candidates) : Prop where
  spells : Spells input candidates.tokens input.length
  isFixedLit : candidates.fixedCodes.litLen = fixedLitLen
  isFixedDist : candidates.fixedCodes.distLen = fixedDistLen
  fixedCodes : candidates.fixedCodes.Canonical
  dynamicCodes : candidates.dynamicCodes.Canonical
  lit : SymbolLengths numLiterals (litSymbols candidates.tokens) candidates.dynamicCodes.litLen
  dist : ∃ distLen, SymbolLengths numDistances (distSymbols candidates.tokens) distLen ∧
    candidates.dynamicCodes.distLen = withDistance distLen
  kraftDist : Kraft candidates.dynamicCodes.distLen
  plan : Plan candidates.dynamicCodes.litLen candidates.dynamicCodes.distLen candidates.header
  storedBits : candidates.storedBits = 35 + 8 * input.length
  fixedBits : candidates.fixedBits = 3 + tokensLength fixedLitLen fixedDistLen candidates.tokens
  dynamicBits : candidates.dynamicBits = 3 + headerLength candidates.header +
    tokensLength candidates.dynamicCodes.litLen candidates.dynamicCodes.distLen candidates.tokens

theorem candidatesOf_built (input : List UInt8) {level : Nat} (isLevel : level ≤ 9) :
    Checked.Returns (Built input) (candidatesOf input level) := by
  apply (lz77Parse_spells input isLevel).bind
  intro tokens spells
  apply (symbols_returns tokens).bind
  rintro ⟨litFreq, distFreq⟩ ⟨lit, dist⟩
  have fixedLengths : Lengths fixedLitLen fixedDistLen :=
    ⟨length_fixedLitLen, length_fixedDistLen, fixedLitLen_bounded, fixedDistLen_bounded⟩
  apply (blockCodes_returns fixedLengths fixedLitLen_kraft fixedDistLen_kraft).bind
  rintro fixedCodes ⟨isFixedLit, isFixedDist, fixedCanonical⟩
  rw [tokenBits_eq fixedLengths]
  apply (lit.symbolLengths (Nat.le_refl _) litSymbols_lt).bind
  intro litLen litLengths
  apply (dist.symbolLengths (by decide) distSymbols_lt).bind
  intro distLen distLengths
  obtain ⟨distSize, distBounded, kraftDist, someDist⟩ :=
    withDistance_facts distLengths.size distLengths.bounded distLengths.kraft
  have lengths : Lengths litLen (withDistance distLen) :=
    ⟨litLengths.size, distSize, litLengths.bounded, distBounded⟩
  apply (blockCodes_returns lengths litLengths.kraft kraftDist).bind
  rintro dynamicCodes ⟨isLit, isDist, canonical⟩
  apply (dynamicHeader_returns litLengths.size distSize litLengths.bounded distBounded
    someDist).bind
  intro header plan
  rw [headerCost_eq plan, tokenBits_eq lengths]
  subst isLit
  have isStored : 3 + 32 + input.length * 8 = 35 + 8 * input.length := by omega
  rw [← isDist] at kraftDist plan
  apply Checked.Returns.ok
  constructor
  · exact spells
  · exact isFixedLit
  · exact isFixedDist
  · exact fixedCanonical
  · exact canonical
  · exact litLengths
  · exact ⟨distLen, distLengths, isDist⟩
  · exact kraftDist
  · exact plan
  · exact isStored
  · rfl
  · rw [isDist]

/-! ## The estimates -/

/-- The estimates of the coded blocks are what they write. -/
structure Estimated (input : List UInt8) (candidates : Candidates) : Prop where
  stored : candidates.storedBits = 35 + 8 * input.length
  fixed : Writes (candidates.write input .fixed) (bytesOf candidates.fixedBits)
  dynamic : Writes (candidates.write input .dynamic) (bytesOf candidates.dynamicBits)

section Estimates

variable {input : List UInt8} {candidates : Candidates}

theorem Built.counts_fixed (built : Built input candidates) :
    Counts (candidates.write input .fixed) (fun before => before + candidates.fixedBits) := by
  have whole := ((counts_bwBits 1 (by decide : 1 ≤ 16)).bind
    (counts_bwBits 1 (by decide : 2 ≤ 16))).bind
    (emitTokens_counts built.fixedCodes.ready candidates.tokens)
  rw [built.isFixedLit, built.isFixedDist] at whole
  simp only [Option.bind_eq_bind, Option.bind_assoc] at whole
  apply whole.congr
  intro before
  rw [built.fixedBits]
  omega

theorem Built.counts_dynamic (built : Built input candidates) :
    Counts (candidates.write input .dynamic) (fun before => before + candidates.dynamicBits) := by
  have header := (writeDynamicHeader_appends built.plan).counts
  rw [length_headerBits] at header
  have whole := (((counts_bwBits 1 (by decide : 1 ≤ 16)).bind
    (counts_bwBits 2 (by decide : 2 ≤ 16))).bind header).bind
    (emitTokens_counts built.dynamicCodes.ready candidates.tokens)
  simp only [Option.bind_eq_bind, Option.bind_assoc] at whole
  apply whole.congr
  intro before
  rw [built.dynamicBits]
  omega

theorem Built.estimated (built : Built input candidates) : Estimated input candidates := by
  have fixed := built.counts_fixed.writes
  have dynamic := built.counts_dynamic.writes
  rw [Nat.zero_add] at fixed dynamic
  exact ⟨built.storedBits, fixed, dynamic⟩

end Estimates

theorem candidatesOf_returns (input : List UInt8) {level : Nat} (isLevel : level ≤ 9) :
    Checked.Returns (Estimated input) (candidatesOf input level) := by
  apply (candidatesOf_built input isLevel).mono
  intro candidates built
  exact built.estimated

/-- Every estimate, in whole bytes, is what its branch writes, and no branch writes less
than the chosen one. -/
structure MeasuredExactly (input : List UInt8) (candidates : Candidates) : Prop where
  exact : ∀ type, Writes (candidates.write input type) (bytesOf (candidates.bits type))
  least : ∀ type bytes bytes', Writes (candidates.write input candidates.chosen) bytes →
    Writes (candidates.write input type) bytes' → bytes ≤ bytes'

theorem Candidates.bits_chosen (candidates : Candidates) (type : BlockType) :
    candidates.bits candidates.chosen ≤ candidates.bits type := by
  rw [Candidates.chosen]
  split
  · rename_i least
    cases type with
    | stored => exact Nat.le_refl _
    | fixed => exact least.1
    | dynamic => exact least.2
  · rename_i notStored
    split
    · rename_i least
      cases type with
      | stored =>
          show candidates.fixedBits ≤ candidates.storedBits
          omega
      | fixed => exact Nat.le_refl _
      | dynamic => exact least
    · rename_i less
      cases type with
      | stored =>
          show candidates.dynamicBits ≤ candidates.storedBits
          omega
      | fixed =>
          show candidates.dynamicBits ≤ candidates.fixedBits
          omega
      | dynamic => exact Nat.le_refl _

theorem bytesOf_mono {bits bits' : Nat} (less : bits ≤ bits') : bytesOf bits ≤ bytesOf bits' :=
  Nat.div_le_div_right (Nat.add_le_add_right less 7)

theorem bytesOf_stored {input : List UInt8} {candidates : Candidates}
    (estimated : Estimated input candidates) :
    bytesOf candidates.storedBits = input.length + 5 := by
  rw [bytesOf, estimated.stored]
  omega

/-- The stored branch writes what is estimated exactly if one block is enough. -/
theorem Estimated.stored_iff {input : List UInt8} {candidates : Candidates}
    (estimated : Estimated input candidates) (notEmpty : input ≠ []) :
    Writes (candidates.write input .stored) (bytesOf candidates.storedBits) ↔
      input.length ≤ maxStored := by
  have positive := List.length_pos_of_ne_nil notEmpty
  have writes : Writes (candidates.write input .stored)
      (input.length + 5 * storedCount input.length) := stored_writes input
  rw [bytesOf_stored estimated, ← storedCount_one positive]
  constructor
  · intro exactly
    have same := exactly.unique writes
    omega
  · intro one
    rwa [one] at writes

theorem Estimated.measuredExactly {input : List UInt8} {candidates : Candidates}
    (estimated : Estimated input candidates) (notEmpty : input ≠ [])
    (few : input.length ≤ maxStored) : MeasuredExactly input candidates := by
  have exact : ∀ type, Writes (candidates.write input type) (bytesOf (candidates.bits type)) := by
    intro type
    cases type with
    | stored => exact (estimated.stored_iff notEmpty).mpr few
    | fixed => exact estimated.fixed
    | dynamic => exact estimated.dynamic
  refine ⟨exact, ?_⟩
  intro type bytes bytes' writes writes'
  rw [writes.unique (exact candidates.chosen), writes'.unique (exact type)]
  exact bytesOf_mono (candidates.bits_chosen type)

/-- A level from 1 to 9 and an input that is not empty lead to the choice of a block. -/
theorem compressTo_chosen {input : List UInt8} (notEmpty : input ≠ []) {level : Int}
    (measured : levelOf level ≠ 0) {candidates : Candidates}
    (isMeasured : candidatesOf input (levelOf level) = .ok candidates) (outCap : Nat) :
    compressTo input outCap level =
      .ok (candidates.write input candidates.chosen (bwInit outCap) >>= bwFinish) := by
  have positive := List.length_pos_of_ne_nil notEmpty
  rw [compressTo, if_neg (Nat.ne_of_gt positive), if_neg measured, isMeasured]
  rfl

theorem levelOf_level {level : Nat} (most : level ≤ 9) : levelOf level = level := by
  rw [levelOf, if_neg (by omega)]
  rfl

/-- The three kinds of blocks are measured exactly if and only if the input fits into one
stored block. -/
theorem measured_exactly_iff (input : List UInt8) (notEmpty : input ≠ []) {level : Nat}
    (least : 1 ≤ level) (most : level ≤ 9) :
    ∃ candidates, candidatesOf input level = .ok candidates ∧
      (∀ outCap, compressTo input outCap level =
        .ok (candidates.write input candidates.chosen (bwInit outCap) >>= bwFinish)) ∧
      (MeasuredExactly input candidates ↔ input.length ≤ 65535) := by
  obtain ⟨candidates, measured, estimated⟩ := candidatesOf_returns input most
  have isLevel := levelOf_level most
  refine ⟨candidates, measured, ?_, ?_⟩
  · apply compressTo_chosen notEmpty
    · omega
    · rw [isLevel]
      exact measured
  · constructor
    · intro exactly
      exact (estimated.stored_iff notEmpty).mp (exactly.exact .stored)
    · exact estimated.measuredExactly notEmpty

theorem measured_exactly_iff_byte : ∃ candidates, candidatesOf [7] 6 = .ok candidates ∧
    MeasuredExactly [7] candidates := by
  obtain ⟨candidates, measured, -, iff⟩ :=
    measured_exactly_iff [7] (List.cons_ne_nil _ _) (by decide : 1 ≤ 6) (by decide : 6 ≤ 9)
  exact ⟨candidates, measured, iff.mpr (by decide)⟩

/-- The second stored block of a longer input is not estimated. -/
theorem long_input_not_measured_exactly : ∃ candidates,
    candidatesOf (List.replicate 65536 0) 1 = .ok candidates ∧
      ¬ MeasuredExactly (List.replicate 65536 0) candidates := by
  obtain ⟨candidates, measured, estimated⟩ :=
    candidatesOf_returns (List.replicate 65536 0) (by decide : 1 ≤ 9)
  refine ⟨candidates, measured, ?_⟩
  intro exactly
  have few := (estimated.stored_iff (by rw [List.replicate_succ]; exact List.cons_ne_nil _ _)).mp
    (exactly.exact .stored)
  rw [List.length_replicate] at few
  exact absurd few (by decide)

end FoundationsLab.Deflate
