import FoundationsLab.Deflate.Blocks
import FoundationsLab.Deflate.FixedLengths

/-! # Streams are decoded

The decoder turns every stream of blocks into the text that it spells, or says that the
buffer is too small for it. -/

namespace FoundationsLab.Deflate

open Foundation Foundation.BitStream Foundation.CanonicalCode Foundation.SlidingWindow

/-! ## Symbols -/

section Symbols

variable {litLen distLen : List Nat} {lit dist : HuffDec} {outCap : Nat} {data : List UInt8}
  {rest : List Bool} {r : Bitreader}

/-- The tables of a decoder for a code. -/
structure Tables (d : HuffDec) (lengths : List Nat) : Prop where
  decodes : Decodes d lengths
  kraft : Kraft lengths

theorem Tables.symbol {d : HuffDec} {lengths : List Nat} (tables : Tables d lengths) {symbol : Nat}
    (positive : lengths.getD symbol 0 ≠ 0)
    (delivers : Delivers r (symbolWord lengths symbol ++ rest)) :
    ∃ r', huffDecode d r = .ok (symbol, r') ∧ Delivers r' rest :=
  huffDecode_code tables.decodes tables.kraft (inside_of_getD positive) positive delivers

theorem brBits_extra {count value : Nat} (small : value < 2 ^ count)
    (delivers : Delivers r (BitStream.bitsOf count value ++ rest)) :
    ∃ r', brBits r count = .ok (value, r') ∧ Delivers r' rest := by
  obtain ⟨r', read, delivers'⟩ := brBits_field value delivers
  rw [Nat.mod_eq_of_lt small] at read
  exact ⟨r', read, delivers'⟩

theorem Yields.congr {result result' : Df (Output × Bitreader)}
    (yields : Yields outCap data rest result) (same : result' = result) :
    Yields outCap data rest result' := same ▸ yields

theorem yields_full {result : Df (Output × Bitreader)} (full : outCap < data.length)
    (fails : result = Checked.fail .output) : Yields outCap data rest result where
  fits room := absurd room (Nat.not_le_of_lt full)
  full _ := fails

/-- The match is read and copied, or there is no room for it. -/
theorem copyMatch_yields (outCap : Nat) (tables : Tables dist distLen)
    {lc lengthBits dc distBits : Nat}
    (legal : Item.Legal litLen distLen (.copy lc lengthBits dc distBits)) {copied : List UInt8}
    (expands : expandPiece data (Item.piece (.copy lc lengthBits dc distBits)) = some copied)
    (delivers : Delivers r (BitStream.bitsOf (lengthExtra.getD lc 0) lengthBits ++
      (symbolWord distLen dc ++ (BitStream.bitsOf (distExtra.getD dc 0) distBits ++ rest)))) :
    Yields outCap copied rest (copyMatch dist outCap (257 + lc) (outputOf outCap data) r) := by
  obtain ⟨⟨isLength, -, fitsLength⟩, isDist, coded, fitsDist⟩ := legal
  rw [Item.piece, expandPiece] at expands
  split at expands
  · rename_i reach
    obtain ⟨positive, inside⟩ := reach
    have isLong := length_copyBack expands
    have isBase : (Checked.get lengthBase lc : Df Nat) = _ := get_eq_getD isLength
    have isExtra : (Checked.get lengthExtra lc : Df Nat) = _ := get_eq_getD isLength
    have isBase' : (Checked.get distBase dc : Df Nat) = _ := get_eq_getD isDist
    have isExtra' : (Checked.get distExtra dc : Df Nat) = _ := get_eq_getD isDist
    obtain ⟨r₁, readLength, delivers₁⟩ := brBits_extra fitsLength delivers
    obtain ⟨r₂, readDist, delivers₂⟩ := tables.symbol coded delivers₁
    obtain ⟨r₃, readExtra, delivers₃⟩ := brBits_extra fitsDist delivers₂
    have isCode : 257 + lc - 257 = lc := Nat.add_sub_cancel_left 257 lc
    have written : (outputOf outCap data).written = data.length := rfl
    rw [copyMatch, isCode]
    dsimp only
    rw [if_neg (Nat.not_le_of_lt isLength), isBase]
    dsimp only [bind, Except.bind]
    rw [isExtra]
    dsimp only
    rw [readLength]
    dsimp only
    rw [readDist]
    dsimp only
    rw [if_neg (Nat.not_le_of_lt isDist), isBase']
    dsimp only
    rw [isExtra']
    dsimp only
    rw [readExtra]
    dsimp only
    rw [written, if_neg (Nat.not_lt_of_le inside)]
    constructor
    · intro fits
      have start : copyBack data (distBase.getD dc 0 + distBits) 0 = some data := rfl
      have enough : data.length + (lengthBase.getD lc 0 + lengthBits) ≤ outCap := by omega
      obtain ⟨final, isFinal, copies⟩ :=
        copy_filled positive inside (lengthBase.getD lc 0 + lengthBits) start enough
      rw [Nat.zero_add, expands] at isFinal
      obtain rfl := Option.some.inj isFinal
      refine ⟨r₃, ?_, delivers₃⟩
      have isOut : (outputOf outCap data).out =
        data.map some ++ List.replicate (outCap - data.length) none := rfl
      rw [if_neg (by omega), isOut, copies, outputOf, isLong]
      rfl
    · intro full
      rw [if_pos (by omega)]
  · exact absurd expands (Option.some_ne_none _).symm

/-- The loop writes what the symbols up to the end of the block mean. -/
theorem symbolLoop_yields (codes : CodePair litLen distLen) (tables : Tables lit litLen)
    (tables' : Tables dist distLen) (items : List Item) :
    ∀ {fuel : Nat} {data final : List UInt8} {r : Bitreader},
      (∀ item ∈ items, item.Legal litLen distLen) → items.length < fuel →
      expandFrom data (items.map Item.piece) = some final → data.length ≤ outCap →
      Delivers r (codedBits litLen distLen items ++ rest) →
      Yields outCap final rest (symbolLoop lit dist outCap fuel (outputOf outCap data) r) := by
  induction items with
  | nil =>
      intro fuel data final r _ enough expands room delivers
      obtain ⟨fuel, rfl⟩ := Nat.exists_eq_add_one.mpr (Nat.zero_lt_of_lt enough)
      obtain rfl := Option.some.inj expands
      rw [codedBits, List.flatMap_nil, List.nil_append] at delivers
      obtain ⟨r', decoded, delivers'⟩ := tables.symbol codes.ends delivers
      constructor
      · intro _
        refine ⟨r', ?_, delivers'⟩
        rw [symbolLoop, decoded]
        dsimp only [bind, Except.bind]
        rw [delivers'.clear, if_neg Bool.false_ne_true, if_pos rfl]
        rfl
      · intro full
        omega
  | cons item items induction =>
      intro fuel data final r legal enough expands room delivers
      rw [List.length_cons] at enough
      obtain ⟨fuel, rfl⟩ := Nat.exists_eq_add_one.mpr (Nat.zero_lt_of_lt enough)
      have isLegal := legal item List.mem_cons_self
      have others : ∀ other ∈ items, other.Legal litLen distLen :=
        fun other member => legal other (.tail _ member)
      rw [List.map_cons, expandFrom, List.foldlM_cons] at expands
      obtain ⟨middle, isMiddle, isFinal⟩ := Option.bind_eq_some_iff.mp expands
      have grows := expandFrom_grows isFinal
      rw [codedBits, List.flatMap_cons, List.append_assoc, List.append_assoc,
        ← List.append_assoc (items.flatMap _)] at delivers
      cases item with
      | literal byte =>
          obtain ⟨r', decoded, delivers'⟩ := tables.symbol isLegal delivers
          have small : byte.toNat < 256 := byte.toNat_lt
          have notEnd : byte.toNat ≠ endOfBlock := Nat.ne_of_lt small
          obtain rfl := Option.some.inj isMiddle
          rw [List.length_append, List.length_singleton] at grows
          have isLoop : symbolLoop lit dist outCap (fuel + 1) (outputOf outCap data) r =
              if (outputOf outCap data).written ≥ outCap then Checked.fail .output
              else (outputOf outCap data).put (.ofNat byte.toNat) >>= fun output =>
                symbolLoop lit dist outCap fuel output r' := by
            rw [symbolLoop, decoded]
            dsimp only [bind, Except.bind]
            rw [delivers'.clear, if_neg Bool.false_ne_true, if_neg notEnd, if_pos small]
          have written : (outputOf outCap data).written = data.length := rfl
          rw [isLoop, written]
          by_cases free : data.length < outCap
          · rw [if_neg (by omega), UInt8.ofNat_toNat, outputOf_put free]
            apply induction others (by omega) isFinal _ delivers'
            rw [List.length_append, List.length_singleton]
            omega
          · rw [if_pos (by omega)]
            exact yields_full (by omega) rfl
      | copy lc lengthBits dc distBits =>
          rw [Item.bits, List.append_assoc, List.append_assoc, List.append_assoc] at delivers
          obtain ⟨r', decoded, delivers'⟩ := tables.symbol isLegal.1.2.1 delivers
          have notEnd : 257 + lc ≠ endOfBlock := by
            rw [endOfBlock]
            omega
          have large : ¬ 257 + lc < 256 := by omega
          have isLoop : symbolLoop lit dist outCap (fuel + 1) (outputOf outCap data) r =
              copyMatch dist outCap (257 + lc) (outputOf outCap data) r' >>= fun copied =>
                symbolLoop lit dist outCap fuel copied.1 copied.2 := by
            rw [symbolLoop, decoded]
            dsimp only [bind, Except.bind]
            rw [delivers'.clear, if_neg Bool.false_ne_true, if_neg notEnd, if_neg large]
          have copies := copyMatch_yields outCap tables' isLegal isMiddle delivers'
          rw [isLoop]
          by_cases fits : middle.length ≤ outCap
          · obtain ⟨r'', copied, delivers''⟩ := copies.fits fits
            rw [copied]
            exact induction others (by omega) isFinal fits delivers''
          · rw [copies.full (Nat.lt_of_not_le fits)]
            exact yields_full (by omega) rfl

theorem length_item_bits {item : Item} (legal : item.Legal litLen distLen) :
    1 ≤ (item.bits litLen distLen).length := by
  cases item with
  | literal byte =>
      rw [Item.bits, symbolWord, length_wordOf]
      exact Nat.pos_of_ne_zero legal
  | copy lc lengthBits dc distBits =>
      have positive := Nat.pos_of_ne_zero legal.1.2.1
      rw [Item.bits, List.length_append, symbolWord, length_wordOf]
      omega

theorem length_items_bits {items : List Item} (legal : ∀ item ∈ items, item.Legal litLen distLen) :
    items.length ≤ (codedBits litLen distLen items).length := by
  rw [codedBits, List.length_append]
  apply Nat.le_add_right_of_le
  induction items with
  | nil => exact Nat.zero_le _
  | cons item items induction =>
      have one := length_item_bits (legal item List.mem_cons_self)
      have others := induction fun other member => legal other (.tail _ member)
      rw [List.flatMap_cons, List.length_append, List.length_cons]
      omega

end Symbols

/-! ## Blocks -/

section Blocks

variable {outCap : Nat} {data final : List UInt8} {rest : List Bool} {r : Bitreader}

theorem expandFrom_literals (data bytes : List UInt8) :
    expandFrom data (bytes.map .literal) = some (data ++ bytes) := by
  induction bytes generalizing data with
  | nil => exact congrArg some (List.append_nil data).symm
  | cons byte bytes induction =>
      have rest := induction (data ++ [byte])
      rw [List.append_assoc, List.singleton_append] at rest
      rw [List.map_cons, expandFrom, List.foldlM_cons]
      exact rest

theorem storeBytes_delivers (bytes : List UInt8) :
    ∀ {i : Nat} {data : List UInt8} {r : Bitreader}, data.length + bytes.length ≤ outCap →
      Delivers r (bitsOfBytes bytes ++ rest) →
      ∃ r', Checked.forFrom storeByte i bytes.length (outputOf outCap data, r) =
        .ok (outputOf outCap (data ++ bytes), r') ∧ Delivers r' rest := by
  induction bytes with
  | nil =>
      intro i data r _ delivers
      refine ⟨r, ?_, delivers⟩
      rw [List.append_nil]
      rfl
  | cons byte bytes induction =>
      intro i data r room delivers
      rw [List.length_cons] at room
      rw [bitsOfBytes, List.flatMap_cons, List.append_assoc] at delivers
      obtain ⟨r', read, delivers'⟩ := brBits_extra byte.toNat_lt delivers
      have step : storeByte i (outputOf outCap data, r) =
          .ok (outputOf outCap (data ++ [byte]), r') := by
        rw [storeByte]
        dsimp only
        rw [read]
        dsimp only [bind, Except.bind]
        rw [delivers'.clear, if_neg Bool.false_ne_true, UInt8.ofNat_toNat, outputOf_put (by omega)]
        rfl
      have room' : (data ++ [byte]).length + bytes.length ≤ outCap := by
        rw [List.length_append, List.length_singleton]
        omega
      obtain ⟨r'', stored, delivers''⟩ := induction room' delivers'
      refine ⟨r'', ?_, delivers''⟩
      rw [List.append_assoc, List.singleton_append] at stored
      rw [List.length_cons, Checked.forFrom, step]
      exact stored

/-- The two lengths of a stored block agree. -/
theorem nlen_agrees {len : Nat} (small : len < 2 ^ 16) :
    len &&& 0xFFFF = (2 ^ 32 - 1 - (2 ^ 16 - 1 - len)) &&& 0xFFFF := by
  have mask : ∀ value, value &&& 0xFFFF = value % 2 ^ 16 :=
    fun value => Nat.and_two_pow_sub_one_eq_mod value 16
  rw [mask, mask]
  omega

theorem storedBlock_yields {filler : List Bool} {bytes : List UInt8} {before : Nat}
    (legal : Block.Legal before (.stored filler bytes))
    (delivers : Delivers r (Block.body (.stored filler bytes) ++ rest))
    (whole : (before + 3 + (Block.body (.stored filler bytes) ++ rest).length) % 8 = 0) :
    Yields outCap (data ++ bytes) rest (storedBlock outCap (outputOf outCap data) r) := by
  obtain ⟨isFiller, small⟩ := legal
  obtain ⟨r₁, aligned, delivers₁⟩ := brAlign_delivers delivers
  have dropped : (Block.body (.stored filler bytes) ++ rest).length % 8 = filler.length := by
    rw [isFiller, padding]
    rw [Block.body] at whole ⊢
    simp only [List.length_append, length_bitsOf, length_bitsOfBytes, isFiller, padding] at whole ⊢
    omega
  rw [dropped, Block.body, List.append_assoc, List.drop_left' rfl, List.append_assoc,
    List.append_assoc] at delivers₁
  obtain ⟨r₂, readLen, delivers₂⟩ := brBits_extra small delivers₁
  have small' : 2 ^ 16 - 1 - bytes.length < 2 ^ 16 := by omega
  obtain ⟨r₃, readNlen, delivers₃⟩ := brBits_extra small' delivers₂
  have written : (outputOf outCap data).written = data.length := rfl
  have isBlock : storedBlock outCap (outputOf outCap data) r =
      if data.length + bytes.length > outCap then Checked.fail .output
      else Checked.forFrom storeByte 0 bytes.length (outputOf outCap data, r₃) := by
    rw [storedBlock, aligned]
    dsimp only [bind, Except.bind]
    rw [readLen]
    dsimp only
    rw [readNlen]
    dsimp only
    rw [delivers₃.clear, if_neg Bool.false_ne_true, if_neg (not_not.mpr (nlen_agrees small)),
      written]
  rw [isBlock]
  constructor
  · intro fits
    rw [List.length_append] at fits
    rw [if_neg (by omega)]
    exact storeBytes_delivers bytes fits delivers₃
  · intro full
    rw [List.length_append] at full
    rw [if_pos (by omega)]

/-- Both codes lead to tables. -/
theorem CodePair.tables {litLen distLen : List Nat} (codes : CodePair litLen distLen) :
    ∃ lit dist, huffBuildDecoder litLen numLiterals = .ok lit ∧
      huffBuildDecoder distLen numDistances = .ok dist ∧ Tables lit litLen ∧
      Tables dist distLen := by
  obtain ⟨litSize, distSize, litBounded, distBounded, kraftLit, kraftDist, -⟩ := codes
  obtain ⟨lit, builtLit, decodesLit⟩ :=
    (huffBuildDecoder_eq litBounded (Nat.le_of_eq litSize)).1 kraftLit
  obtain ⟨dist, builtDist, decodesDist⟩ :=
    (huffBuildDecoder_eq distBounded (by rw [distSize]; decide)).1 kraftDist
  rw [litSize] at builtLit
  rw [distSize] at builtDist
  exact ⟨lit, dist, builtLit, builtDist, ⟨decodesLit, kraftLit⟩, ⟨decodesDist, kraftDist⟩⟩

theorem fixedCodes : CodePair fixedLitLen fixedDistLen where
  litSize := length_fixedLitLen
  distSize := length_fixedDistLen
  litBounded := fixedLitLen_bounded
  distBounded := fixedDistLen_bounded
  kraftLit := fixedLitLen_kraft
  kraftDist := fixedDistLen_kraft
  ends := fixedLitLen_positive (by decide)

theorem codedBlock_yields {litLen distLen : List Nat} (codes : CodePair litLen distLen) {type : Nat}
    {lit dist : HuffDec} {r' : Bitreader} (isDecoders : decoders type r = .ok (lit, dist, r'))
    (tables : Tables lit litLen) (tables' : Tables dist distLen) {items : List Item}
    (legal : ∀ item ∈ items, item.Legal litLen distLen)
    (expands : expandFrom data (items.map Item.piece) = some final) (room : data.length ≤ outCap)
    (delivers : Delivers r' (codedBits litLen distLen items ++ rest)) :
    Yields outCap final rest (codedBlock outCap type (outputOf outCap data) r) := by
  have bounded := delivers.bounded
  have few := length_items_bits legal
  rw [List.length_append] at bounded
  have enough : items.length < turns r' := by
    rw [turns]
    omega
  have yields := symbolLoop_yields codes tables tables' items legal enough expands room delivers
  apply yields.congr
  rw [codedBlock, isDecoders]
  rfl

theorem block_yields {before : Nat} {block : Block} (legal : block.Legal before)
    (expands : expandFrom data block.pieces = some final) (room : data.length ≤ outCap)
    (delivers : Delivers r (block.body ++ rest))
    (whole : (before + 3 + (block.body ++ rest).length) % 8 = 0) :
    Yields outCap final rest (Deflate.block outCap block.type (outputOf outCap data) r) := by
  cases block with
  | stored filler bytes =>
      rw [Block.pieces, expandFrom_literals] at expands
      obtain rfl := Option.some.inj expands
      exact storedBlock_yields legal delivers whole
  | fixed items =>
      obtain ⟨lit, dist, builtLit, builtDist, tables, tables'⟩ := fixedCodes.tables
      have isDecoders : decoders 1 r = .ok (lit, dist, r) := by
        rw [decoders, if_pos rfl, fixedDecoders, builtLit]
        dsimp only [bind, Except.bind]
        rw [builtDist]
        rfl
      exact codedBlock_yields fixedCodes isDecoders tables tables' legal expands room delivers
  | dynamic litLen distLen header items =>
      obtain ⟨plan, codes, legal'⟩ := legal
      obtain ⟨lit, dist, builtLit, builtDist, tables, tables'⟩ := codes.tables
      rw [Block.body, List.append_assoc] at delivers
      obtain ⟨r', isRead, delivers'⟩ := readDynamicHeader_bits plan codes.litSize codes.distSize
        codes.litBounded codes.distBounded builtLit builtDist delivers
      have isDecoders : decoders 2 r = .ok (lit, dist, r') := by
        rw [decoders, if_neg (by decide), isRead]
      exact codedBlock_yields codes isDecoders tables tables' legal' expands room delivers'

/-- The first three bits of a block are read. -/
theorem blockLoop_head (outCap fuel : Nat) {block : Block} {final : Bool} (output : Output)
    (delivers : Delivers r (block.bits final ++ rest)) :
    ∃ r', Delivers r' (block.body ++ rest) ∧ blockLoop outCap (fuel + 1) output r =
      Deflate.block outCap block.type output r' >>= fun result =>
        if final then .ok result.1 else blockLoop outCap fuel result.1 result.2 := by
  rw [Block.bits, List.append_assoc, List.append_assoc] at delivers
  have isBit : final.toNat < 2 ^ 1 := final.toNat_lt
  have isType : block.type < 2 ^ 2 := by
    cases block with
    | stored filler bytes => exact Nat.succ_pos 3
    | fixed items => exact (by decide : 1 < 2 ^ 2)
    | dynamic litLen distLen header items => exact (by decide : 2 < 2 ^ 2)
  obtain ⟨r₁, readFinal, delivers₁⟩ := brBits_extra isBit delivers
  obtain ⟨r₂, readType, delivers₂⟩ := brBits_extra isType delivers₁
  refine ⟨r₂, delivers₂, ?_⟩
  rw [blockLoop, readFinal]
  dsimp only [bind, Except.bind]
  rw [readType]
  dsimp only
  rw [delivers₂.clear, if_neg Bool.false_ne_true]
  cases final with
  | false => rfl
  | true => rfl

theorem length_block_bits (block : Block) (final : Bool) :
    (block.bits final).length = 3 + block.body.length := by
  rw [Block.bits, List.length_append, List.length_append, length_bitsOf, length_bitsOf]
  omega

/-- The loop over the blocks writes what all of them say, or fails for want of room. -/
theorem blockLoop_stream {before : Nat} {bits : List Bool} {pieces : List (Piece UInt8)}
    (stream : Stream before bits pieces) :
    ∀ {data final : List UInt8} {fuel : Nat} {r : Bitreader}, bits.length ≤ fuel →
      expandFrom data pieces = some final → data.length ≤ outCap → Delivers r (bits ++ rest) →
      (before + (bits ++ rest).length) % 8 = 0 →
      blockLoop outCap fuel (outputOf outCap data) r =
        if final.length ≤ outCap then .ok (outputOf outCap final) else Checked.fail .output := by
  induction stream with
  | @last before block legal =>
      intro data final fuel r enough expands room delivers whole
      have isLong := length_block_bits block true
      obtain ⟨fuel, rfl⟩ := Nat.exists_eq_add_one.mpr (by omega : 0 < fuel)
      obtain ⟨r', delivers', isLoop⟩ :=
        blockLoop_head outCap fuel (outputOf outCap data) delivers
      have whole' : (before + 3 + (block.body ++ rest).length) % 8 = 0 := by
        rw [List.length_append] at whole ⊢
        omega
      have yields := block_yields legal expands room delivers' whole'
      rw [isLoop]
      by_cases fits : final.length ≤ outCap
      · obtain ⟨r'', isBlock, -⟩ := yields.fits fits
        rw [isBlock, if_pos fits]
        rfl
      · rw [yields.full (Nat.lt_of_not_le fits), if_neg fits]
        rfl
  | @next before block bits pieces legal stream induction =>
      intro data final fuel r enough expands room delivers whole
      have isLong := length_block_bits block false
      rw [List.length_append] at enough
      obtain ⟨fuel, rfl⟩ := Nat.exists_eq_add_one.mpr (by omega : 0 < fuel)
      rw [List.append_assoc] at delivers whole
      rw [expandFrom_append] at expands
      obtain ⟨middle, first, others⟩ := Option.bind_eq_some_iff.mp expands
      obtain ⟨r', delivers', isLoop⟩ :=
        blockLoop_head outCap fuel (outputOf outCap data) delivers
      have whole' : (before + 3 + (block.body ++ (bits ++ rest)).length) % 8 = 0 := by
        rw [List.length_append] at whole ⊢
        omega
      have yields := block_yields legal first room delivers' whole'
      rw [isLoop]
      by_cases fits : middle.length ≤ outCap
      · obtain ⟨r'', isBlock, delivers''⟩ := yields.fits fits
        rw [isBlock]
        apply induction (by omega) others fits delivers''
        rw [List.length_append] at whole
        omega
      · have grows := expandFrom_grows others
        rw [yields.full (Nat.lt_of_not_le fits), if_neg (by omega)]
        rfl

theorem decompressTo_stream {bits : List Bool} {pieces : List (Piece UInt8)}
    (stream : Stream 0 bits pieces) (expands : expand pieces = some data)
    {input : List UInt8} (isPrefix : bits <+: bitsOfBytes input) (outCap : Nat) :
    decompressTo input outCap =
      if data.length ≤ outCap then .ok (outputOf outCap data) else Checked.fail .output := by
  obtain ⟨rest, isInput⟩ := isPrefix
  have delivers := delivers_brInit input
  have isLong := length_bitsOfBytes input
  rw [← isInput] at delivers isLong
  have bounded := delivers.bounded
  have enough : bits.length ≤ turns (brInit input) := by
    rw [List.length_append] at bounded
    rw [turns]
    omega
  have whole : (0 + (bits ++ rest).length) % 8 = 0 := by omega
  have isEmpty : emptyOutput outCap = outputOf outCap [] := rfl
  rw [decompressTo, isEmpty]
  exact blockLoop_stream stream enough expands (Nat.zero_le outCap) delivers whole

/-- The return value for what a run decoded. -/
theorem deflateDecompress_of_run {input : List UInt8}
    (isRun : decompressTo input outCap =
      if data.length ≤ outCap then .ok (outputOf outCap data) else Checked.fail .output) :
    deflateDecompress input outCap = if data.length ≤ outCap
      then .ok (data.length, data.map some ++ List.replicate (outCap - data.length) none)
      else .ok (DfError.output.code, []) := by
  rw [deflateDecompress, isRun]
  by_cases fits : data.length ≤ outCap
  · rw [if_pos fits, if_pos fits]
    rfl
  · rw [if_neg fits, if_neg fits]
    rfl

end Blocks

end FoundationsLab.Deflate
