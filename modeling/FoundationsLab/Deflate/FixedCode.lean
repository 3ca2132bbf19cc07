import FoundationsLab.Deflate.StreamDecoding

/-! # The fixed code

The format gives its fixed code to 288 symbols, the last two of which never occur. The
tables here leave these two out, and with them the words of length 9 begin elsewhere. -/

namespace FoundationsLab.Deflate

open Foundation Foundation.BitStream Foundation.CanonicalCode Foundation.SlidingWindow

/-- The lengths of the fixed code over all symbols of the format. -/
def formatLitLen : List Nat := fixedLitLen ++ [8, 8]

def formatDistLen : List Nat := fixedDistLen ++ [5, 5]

/-- What a literal in the code of the format is taken for. -/
def raised (byte : UInt8) : UInt8 := if byte.toNat < 144 then byte else byte + 4

def Item.raised : Item → Item
  | .literal byte => .literal (Deflate.raised byte)
  | .copy lc lengthBits dc distBits => .copy lc lengthBits dc distBits

/-! ## More symbols -/

section Append

variable {lengths more : List Nat} {symbol : Nat}

theorem rank_append (inside : symbol < lengths.length) :
    rank (lengths ++ more) symbol = rank lengths symbol := by
  rw [rank, rank, List.getD_append _ _ _ _ inside,
    List.take_append_of_le_length (Nat.le_of_lt inside)]

/-- The symbols before keep their places, only the first code of their length moves. -/
theorem code_append (inside : symbol < lengths.length) :
    code (lengths ++ more) symbol =
      first (lengths ++ more) (lengths.getD symbol 0) + rank lengths symbol := by
  rw [code, rank_append inside, List.getD_append _ _ _ _ inside]

theorem symbolWord_append (inside : symbol < lengths.length)
    (same : first (lengths ++ more) (lengths.getD symbol 0) =
      first lengths (lengths.getD symbol 0)) :
    symbolWord (lengths ++ more) symbol = symbolWord lengths symbol := by
  rw [symbolWord, symbolWord, code_append inside, same, List.getD_append _ _ _ _ inside, code]

end Append

/-! ## The words -/

theorem length_symbolWord (lengths : List Nat) (symbol : Nat) :
    (symbolWord lengths symbol).length = lengths.getD symbol 0 := length_wordOf _ _

theorem fixedLitLen_nine {symbol : Nat} (high : 144 ≤ symbol) (low : symbol < 256) :
    fixedLitLen.getD symbol 0 = 9 := by
  have inside : symbol < numLiterals := Nat.lt_trans low (by decide)
  rw [fixedLitLen_getD inside, if_neg (Nat.not_lt_of_le high), if_pos low]

/-- The words of length 9 are those of the literals from 144 on, in their order. -/
theorem rank_nine {symbol : Nat} (high : 144 ≤ symbol) (low : symbol < 256) :
    rank fixedLitLen symbol = symbol - 144 := by
  have split : fixedLitLen.take symbol =
      List.replicate 144 8 ++ List.replicate (symbol - 144) 9 := by
    have isFirst : (List.replicate 144 8).length = 144 := List.length_replicate
    have isBoth : (List.replicate 144 8 ++ List.replicate 112 9).length = 256 := by
      rw [List.length_append, isFirst, List.length_replicate]
    rw [fixedLitLen, List.append_assoc, List.take_append_of_le_length (by omega), List.take_append,
      isFirst, List.take_of_length_le (by omega), List.take_replicate,
      Nat.min_eq_left (by omega)]
  rw [rank, fixedLitLen_nine high low, split, List.count_append, List.count_replicate_self,
    List.count_replicate, if_neg (by decide), Nat.zero_add]

theorem count_formatLitLen (length : Nat) :
    formatLitLen.count length =
      (if 8 = length then 152 else 0) + (if 9 = length then 112 else 0) +
        if 7 = length then 24 else 0 := by
  have isRest : [8, 8] = List.replicate 2 8 := rfl
  rw [formatLitLen, List.count_append, count_fixedLitLen, isRest]
  simp only [List.count_replicate, beq_iff_eq]
  split_ifs <;> omega

theorem first_fixed : first fixedLitLen 7 = 0 ∧ first fixedLitLen 8 = 48 ∧
    first fixedLitLen 9 = 396 := by
  simp only [first, countOf, count_fixedLitLen]
  decide

theorem first_format : first formatLitLen 7 = 0 ∧ first formatLitLen 8 = 48 ∧
    first formatLitLen 9 = 400 := by
  simp only [first, countOf, count_formatLitLen]
  decide

/-- Where the length is not 9 the words agree. -/
theorem fixed_word {symbol : Nat} (inside : symbol < numLiterals)
    (notNine : symbol < 144 ∨ 256 ≤ symbol) :
    symbolWord fixedLitLen symbol = symbolWord formatLitLen symbol := by
  obtain ⟨fixedSeven, fixedEight, -⟩ := first_fixed
  obtain ⟨formatSeven, formatEight, -⟩ := first_format
  rw [formatLitLen] at formatSeven formatEight
  apply (symbolWord_append (Nat.lt_of_lt_of_eq inside length_fixedLitLen.symm) _).symm
  rw [fixedLitLen_getD inside]
  split_ifs
  · rw [fixedEight, formatEight]
  · omega
  · rw [fixedSeven, formatSeven]
  · rw [fixedEight, formatEight]

theorem fixed_word_nine {symbol : Nat} (high : 144 ≤ symbol) (low : symbol < 256) :
    symbolWord fixedLitLen symbol = wordOf (396 + (symbol - 144)) 9 := by
  rw [symbolWord, code, fixedLitLen_nine high low, rank_nine high low, first_fixed.2.2]

theorem format_word_nine {symbol : Nat} (high : 144 ≤ symbol) (low : symbol < 256) :
    symbolWord formatLitLen symbol = wordOf (400 + (symbol - 144)) 9 := by
  have inside : symbol < fixedLitLen.length := by
    rw [length_fixedLitLen, numLiterals]
    omega
  have isFirst := first_format.2.2
  rw [formatLitLen] at isFirst
  rw [symbolWord, formatLitLen, code_append inside, List.getD_append _ _ _ _ inside,
    fixedLitLen_nine high low, rank_nine high low, isFirst]

/-- The end of the block is the first symbol of length 7. -/
theorem word_of_end : symbolWord fixedLitLen endOfBlock = wordOf 0 7 := by
  have isSeven : fixedLitLen.getD endOfBlock 0 = 7 := by
    rw [fixedLitLen_getD (by decide)]
    rfl
  have isFront : (List.replicate 144 8 ++ List.replicate 112 9).length = endOfBlock := by
    rw [List.length_append, List.length_replicate, List.length_replicate]
    rfl
  have none : rank fixedLitLen endOfBlock = 0 := by
    rw [rank, isSeven, fixedLitLen, List.append_assoc, List.take_left' isFront, List.count_append,
      List.count_replicate, List.count_replicate]
    rfl
  rw [symbolWord, code, isSeven, first_fixed.1, none]

theorem fixed_dist_word {symbol : Nat} (inside : symbol < numDistances) :
    symbolWord fixedDistLen symbol = symbolWord formatDistLen symbol := by
  apply (symbolWord_append (Nat.lt_of_lt_of_eq inside length_fixedDistLen.symm) _).symm
  rw [fixedDistLen_getD inside]
  simp only [first, countOf, List.count_append, fixedDistLen, List.count_replicate]
  decide

theorem end_word : symbolWord fixedLitLen endOfBlock = symbolWord formatLitLen endOfBlock :=
  fixed_word (by decide) (.inr (Nat.le_refl 256))

/-- The tables take a word of the format for that of another literal, or of none. -/
theorem format_word_raised {byte : UInt8} (below : byte.toNat < 252) :
    symbolWord formatLitLen byte.toNat = symbolWord fixedLitLen (raised byte).toNat := by
  rw [raised]
  by_cases low : byte.toNat < 144
  · rw [if_pos low]
    exact (fixed_word (Nat.lt_trans byte.toNat_lt (by decide)) (.inl low)).symm
  · have isNext : (byte + 4).toNat = byte.toNat + 4 := by
      have isFour : (4 : UInt8).toNat = 4 := rfl
      rw [UInt8.toNat_add, isFour]
      exact Nat.mod_eq_of_lt (by omega)
    have sameCode : 400 + (byte.toNat - 144) = 396 + (byte.toNat + 4 - 144) := by omega
    rw [if_neg low, isNext, format_word_nine (by omega) (by omega),
      fixed_word_nine (by omega) (by omega), sameCode]

theorem literal_word_iff (byte : UInt8) :
    symbolWord fixedLitLen byte.toNat = symbolWord formatLitLen byte.toNat ↔
      byte.toNat < 144 := by
  have small : byte.toNat < 256 := byte.toNat_lt
  constructor
  · intro same
    by_contra notLow
    rw [fixed_word_nine (by omega) small, format_word_nine (by omega) small] at same
    have isPrefix : wordOf (396 + (byte.toNat - 144)) 9 <+: wordOf (400 + (byte.toNat - 144)) 9 :=
      ⟨[], by rw [List.append_nil, same]⟩
    have value := ( wordOf_prefix isPrefix (by omega) (by omega)).2
    omega
  · intro low
    exact fixed_word (Nat.lt_trans small (by decide)) (.inl low)

theorem raised_ne {byte : UInt8} (high : 144 ≤ byte.toNat) : raised byte ≠ byte := by
  rw [raised, if_neg (Nat.not_lt_of_le high)]
  intro same
  have value := congrArg UInt8.toNat same
  have isFour : (4 : UInt8).toNat = 4 := rfl
  rw [UInt8.toNat_add, isFour] at value
  omega

theorem map_raised_iff (text : List UInt8) :
    text.map raised = text ↔ ∀ byte ∈ text, byte.toNat < 144 := by
  have each : text.map raised = text.map id ↔ ∀ byte ∈ text, raised byte = byte :=
    List.map_inj_left
  rw [List.map_id] at each
  rw [each]
  constructor
  · intro same byte member
    by_contra high
    exact raised_ne (Nat.le_of_not_lt high) (same byte member)
  · intro low byte member
    exact if_pos (low byte member)

/-! ## Blocks -/

section Items

variable {item : Item} {items : List Item}

/-- The words of an item are as long under either code. -/
theorem length_bits_format (legal : item.Legal fixedLitLen fixedDistLen) :
    (item.bits fixedLitLen fixedDistLen).length =
      (item.bits formatLitLen formatDistLen).length := by
  have sameLength : ∀ symbol < numLiterals,
      formatLitLen.getD symbol 0 = fixedLitLen.getD symbol 0 := by
    intro symbol inside
    rw [← length_fixedLitLen] at inside
    exact List.getD_append _ _ _ _ inside
  cases item with
  | literal byte =>
      have inside : byte.toNat < numLiterals := Nat.lt_trans byte.toNat_lt (by decide)
      rw [Item.bits, Item.bits, length_symbolWord, length_symbolWord, sameLength _ inside]
  | copy lc lengthBits dc distBits =>
      obtain ⟨⟨isLength, -⟩, isDist, -⟩ := legal
      have inside : 257 + lc < numLiterals := Nat.add_lt_add_left isLength 257
      simp only [Item.bits, List.length_append, length_symbolWord, sameLength _ inside,
        fixed_dist_word isDist]

theorem copy_bits_format {lc lengthBits dc distBits : Nat} (isLength : lc < 29)
    (isDist : dc < numDistances) :
    (Item.copy lc lengthBits dc distBits).bits fixedLitLen fixedDistLen =
      (Item.copy lc lengthBits dc distBits).bits formatLitLen formatDistLen := by
  have inside : 257 + lc < numLiterals := Nat.add_lt_add_left isLength 257
  rw [Item.bits, Item.bits, fixed_word inside (.inr (by omega)), fixed_dist_word isDist]

theorem item_bits_iff (legal : item.Legal fixedLitLen fixedDistLen) :
    item.bits fixedLitLen fixedDistLen = item.bits formatLitLen formatDistLen ↔
      ∀ byte, item = .literal byte → byte.toNat < 144 := by
  cases item with
  | literal byte =>
      rw [Item.bits, Item.bits, literal_word_iff]
      constructor
      · intro low other same
        rw [← Item.literal.inj same]
        exact low
      · intro low
        exact low byte rfl
  | copy lc lengthBits dc distBits =>
      constructor
      · intro _ byte isLiteral
        cases isLiteral
      · intro _
        exact copy_bits_format legal.1.1 legal.2.1

theorem raised_bits (legal : item.Legal fixedLitLen fixedDistLen)
    (below : ∀ byte, item = .literal byte → byte.toNat < 252) :
    item.raised.bits fixedLitLen fixedDistLen = item.bits formatLitLen formatDistLen := by
  cases item with
  | literal byte => exact (format_word_raised (below byte rfl)).symm
  | copy lc lengthBits dc distBits => exact copy_bits_format legal.1.1 legal.2.1

theorem literal_legal (byte : UInt8) : (Item.literal byte).Legal fixedLitLen fixedDistLen :=
  fixedLitLen_positive (Nat.lt_trans byte.toNat_lt (by decide))

theorem raised_legal (legal : item.Legal fixedLitLen fixedDistLen) :
    item.raised.Legal fixedLitLen fixedDistLen := by
  cases item with
  | literal byte => exact literal_legal (raised byte)
  | copy lc lengthBits dc distBits => exact legal

theorem raised_piece (item : Item) : item.raised.piece = item.piece.map raised := by
  cases item with
  | literal byte => rfl
  | copy lc lengthBits dc distBits => rfl

theorem codedBits_cons (litLen distLen : List Nat) :
    codedBits litLen distLen (item :: items) =
      item.bits litLen distLen ++ codedBits litLen distLen items := by
  rw [codedBits, List.flatMap_cons, List.append_assoc, codedBits]

theorem raised_codedBits (legal : ∀ item ∈ items, item.Legal fixedLitLen fixedDistLen)
    (below : ∀ byte, Item.literal byte ∈ items → byte.toNat < 252) :
    codedBits fixedLitLen fixedDistLen (items.map Item.raised) =
      codedBits formatLitLen formatDistLen items := by
  induction items with
  | nil => exact end_word
  | cons item items induction =>
      have isItem := raised_bits (legal item List.mem_cons_self) fun byte isLiteral =>
        below byte (isLiteral ▸ List.mem_cons_self)
      have rest := induction (fun other member => legal other (.tail _ member))
        fun byte member => below byte (.tail _ member)
      rw [List.map_cons, codedBits_cons, codedBits_cons, isItem, rest]

/-- A fixed block is written as the format has it if and only if it holds no literal of
144 or more. -/
theorem fixed_block_conforms_iff (legal : ∀ item ∈ items, item.Legal fixedLitLen fixedDistLen) :
    codedBits fixedLitLen fixedDistLen items = codedBits formatLitLen formatDistLen items ↔
      ∀ byte, Item.literal byte ∈ items → byte.toNat < 144 := by
  induction items with
  | nil =>
      constructor
      · intro _ byte member
        exact absurd member List.not_mem_nil
      · intro _
        exact end_word
  | cons item items induction =>
      have isLegal := legal item List.mem_cons_self
      have rest := induction fun other member => legal other (.tail _ member)
      rw [codedBits_cons, codedBits_cons]
      constructor
      · intro same byte member
        obtain ⟨sameItem, sameRest⟩ := List.append_inj same (length_bits_format isLegal)
        rcases List.mem_cons.mp member with isItem | inRest
        · exact (item_bits_iff isLegal).mp sameItem byte isItem.symm
        · exact rest.mp sameRest byte inRest
      · intro low
        rw [(item_bits_iff isLegal).mpr fun byte isItem => low byte (isItem ▸ List.mem_cons_self),
          rest.mpr fun byte member => low byte (.tail _ member)]

theorem fixed_block_conforms_iff_literals :
    codedBits fixedLitLen fixedDistLen [.literal 65, .literal 200] ≠
      codedBits formatLitLen formatDistLen [.literal 65, .literal 200] := by
  have legal : ∀ item ∈ [Item.literal 65, .literal 200],
      item.Legal fixedLitLen fixedDistLen := by
    intro item member
    rcases List.mem_cons.mp member with rfl | inRest
    · exact literal_legal 65
    · rw [List.mem_singleton.mp inRest]
      exact literal_legal 200
  intro same
  have low := (fixed_block_conforms_iff legal).mp same 200 (.tail _ (List.mem_singleton_self _))
  exact absurd low (by decide)

/-- From a fixed block in the code of the format the decoder gets the text with every
byte from 144 on raised by 4, and the text itself if and only if it has no such byte. -/
theorem decompress_format_block (legal : ∀ item ∈ items, item.Legal fixedLitLen fixedDistLen)
    (below : ∀ byte, Item.literal byte ∈ items → byte.toNat < 252) {text : List UInt8}
    (expands : expand (items.map Item.piece) = some text) {input : List UInt8}
    (isPrefix : BitStream.bitsOf 1 1 ++ (BitStream.bitsOf 2 1 ++
      codedBits formatLitLen formatDistLen items) <+: bitsOfBytes input) (outCap : Nat) :
    (deflateDecompress input outCap = if text.length ≤ outCap
      then .ok (text.length,
        (text.map raised).map some ++ List.replicate (outCap - text.length) none)
      else .ok (DfError.output.code, [])) ∧
    (text.map raised = text ↔ ∀ byte ∈ text, byte.toNat < 144) := by
  have isLegal : Block.Legal 0 (.fixed (items.map Item.raised)) := by
    intro item member
    obtain ⟨other, isMember, rfl⟩ := List.mem_map.mp member
    exact raised_legal (legal other isMember)
  have samePieces : (items.map Item.raised).map Item.piece =
      (items.map Item.piece).map (Piece.map raised) := by
    rw [List.map_map, List.map_map]
    apply List.map_congr_left
    intro item _
    exact raised_piece item
  have isText : expand (Block.pieces (.fixed (items.map Item.raised))) =
      some (text.map raised) := by
    have renamed : expandFrom (List.map raised []) ((items.map Item.piece).map (Piece.map raised)) =
        (expandFrom [] (items.map Item.piece)).map (List.map raised) := expandFrom_map _
    rw [Block.pieces, samePieces, expand]
    exact renamed.trans (congrArg (Option.map (List.map raised)) expands)
  have isBits : (Block.fixed (items.map Item.raised)).bits true <+: bitsOfBytes input := by
    rw [Block.bits, Block.body, raised_codedBits legal below]
    exact isPrefix
  have isRun := decompressTo_stream (Stream.last isLegal) isText isBits outCap
  constructor
  · have decoded := deflateDecompress_of_run isRun
    rwa [List.length_map] at decoded
  · exact map_raised_iff text

/-- The literal 200 comes back as 204. -/
theorem decompress_format_block_literal :
    deflateDecompress [0x3B, 0x01, 0x00] 2 = .ok (1, [some 204, none]) := by
  have legal : ∀ item ∈ [Item.literal 200], item.Legal fixedLitLen fixedDistLen := by
    intro item member
    rw [List.mem_singleton.mp member]
    exact literal_legal 200
  have below : ∀ byte, Item.literal byte ∈ [Item.literal 200] → byte.toNat < 252 := by
    intro byte member
    rw [Item.literal.inj (List.mem_singleton.mp member)]
    decide
  have isWord : symbolWord formatLitLen (200 : UInt8).toNat = wordOf 456 9 :=
    format_word_nine (by decide) (by decide)
  have isEnd : symbolWord formatLitLen endOfBlock = wordOf 0 7 := end_word.symm.trans word_of_end
  have isPrefix : BitStream.bitsOf 1 1 ++ (BitStream.bitsOf 2 1 ++
      codedBits formatLitLen formatDistLen [.literal 200]) <+: bitsOfBytes [0x3B, 0x01, 0x00] := by
    rw [codedBits_cons, codedBits, Item.bits, isWord, isEnd]
    decide
  exact (decompress_format_block legal below rfl isPrefix 2).1

end Items

end FoundationsLab.Deflate
