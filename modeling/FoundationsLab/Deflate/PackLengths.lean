import FoundationsLab.Deflate.HuffLengths

/-! # Packing the code lengths

The code lengths of a dynamic block are sent as symbols: a length itself, or a repetition
of the length before or of zeros, with the number of repetitions in extra bits. -/

namespace FoundationsLab.Deflate

/-- Symbols and the values of their extra bits. Both arrays have room for all lengths. -/
abbrev PackedLengths := List (Nat × Nat)

def pushPacked (packed : PackedLengths) (symbol extra : Nat) : Df PackedLengths :=
  push (numLiterals + numDistances) packed (symbol, extra)

/-- `while (i + run < n && lengths[i + run] == len) run++` -/
def extendRun (lengths : List Nat) (n i len : Nat) : (turns run : Nat) → Df Nat
  | 0, run => if i + run < n then Checked.endless else .ok run
  | turns + 1, run =>
      if i + run < n then do
        let length ← Checked.get lengths (i + run)
        if length = len then extendRun lengths n i len turns (run + 1) else return run
      else .ok run

/-- `while (run >= least)`: takes up to `most` off the run with each symbol. -/
def packRepeats (symbol least most : Nat) :
    (turns run : Nat) → PackedLengths → Df (Nat × PackedLengths)
  | 0, run, packed => if run ≥ least then Checked.endless else .ok (run, packed)
  | turns + 1, run, packed =>
      if run ≥ least then do
        let take := if run > most then most else run
        let packed ← pushPacked packed symbol ((take - least) % 2 ^ 8)
        packRepeats symbol least most turns (run - take) packed
      else .ok (run, packed)

/-- `while (run-- > 0)` -/
def packSingles (len : Nat) : (run : Nat) → PackedLengths → Df PackedLengths
  | 0, packed => .ok packed
  | run + 1, packed => do
      let packed ← pushPacked packed len 0
      packSingles len run packed

/-- A length is written before it is repeated. -/
def packRun (len run : Nat) (packed : PackedLengths) : Df PackedLengths :=
  if len = 0 then do
    let (run, packed) ← packRepeats 18 11 138 run run packed
    let (run, packed) ← packRepeats 17 3 10 run run packed
    packSingles 0 run packed
  else do
    let packed ← pushPacked packed len 0
    let (run, packed) ← packRepeats 16 3 6 (run - 1) (run - 1) packed
    packSingles len run packed

/-- `while (i < n)` -/
def packFrom (lengths : List Nat) (n : Nat) :
    (turns i : Nat) → PackedLengths → Df PackedLengths
  | 0, i, packed => if i < n then Checked.endless else .ok packed
  | turns + 1, i, packed =>
      if i < n then do
        let len ← Checked.get lengths i
        let run ← extendRun lengths n i len n 1
        let packed ← packRun len run packed
        packFrom lengths n turns (i + run) packed
      else .ok packed

def packCodeLengths (lengths : List Nat) (n : Nat) : Df PackedLengths :=
  packFrom lengths n n 0 []

/-! ## What the symbols mean -/

/-- A symbol adds lengths to those before it. -/
inductive Adds : List Nat → Nat × Nat → List Nat → Prop
  | length {before : List Nat} {len : Nat} (small : len < 16) : Adds before (len, 0) (before ++ [len])
  | again {before : List Nat} {len extra : Nat} (last : before.getLast? = some len)
      (small : extra < 2 ^ 2) : Adds before (16, extra) (before ++ List.replicate (3 + extra) len)
  | zeros {before : List Nat} {extra : Nat} (small : extra < 2 ^ 3) :
      Adds before (17, extra) (before ++ List.replicate (3 + extra) 0)
  | manyZeros {before : List Nat} {extra : Nat} (small : extra < 2 ^ 7) :
      Adds before (18, extra) (before ++ List.replicate (11 + extra) 0)

inductive Unpacks : List Nat → PackedLengths → List Nat → Prop
  | done (lengths : List Nat) : Unpacks lengths [] lengths
  | step {before middle after : List Nat} {entry : Nat × Nat} {packed : PackedLengths}
      (adds : Adds before entry middle) (rest : Unpacks middle packed after) :
      Unpacks before (entry :: packed) after

section Unpacking

variable {before middle after : List Nat} {packed packed' : PackedLengths} {entry : Nat × Nat}

theorem Unpacks.concat (unpacks : Unpacks before packed middle) (adds : Adds middle entry after) :
    Unpacks before (packed ++ [entry]) after := by
  induction unpacks with
  | done lengths => exact .step adds (.done after)
  | step first _ induction => exact .step first (induction adds)

theorem Adds.grows (adds : Adds before entry after) :
    ∃ added, after = before ++ added ∧ 1 ≤ added.length := by
  cases adds with
  | length _ => exact ⟨_, rfl, Nat.le_refl _⟩
  | again _ _ => exact ⟨_, rfl, by rw [List.length_replicate]; omega⟩
  | zeros _ => exact ⟨_, rfl, by rw [List.length_replicate]; omega⟩
  | manyZeros _ => exact ⟨_, rfl, by rw [List.length_replicate]; omega⟩

/-- Each symbol stands for a length at least. -/
theorem Unpacks.grows (unpacks : Unpacks before packed after) :
    ∃ added, after = before ++ added ∧ packed.length ≤ added.length := by
  induction unpacks with
  | done lengths => exact ⟨[], (List.append_nil _).symm, Nat.le_refl _⟩
  | step adds _ induction =>
      obtain ⟨first, rfl, one⟩ := adds.grows
      obtain ⟨added, rfl, atMost⟩ := induction
      refine ⟨first ++ added, List.append_assoc .., ?_⟩
      rw [List.length_cons, List.length_append]
      omega

theorem Adds.symbol_le (adds : Adds before entry after) : entry.1 ≤ 18 := by
  cases adds with
  | length small => exact Nat.le_trans (Nat.le_of_lt small) (by decide)
  | again _ _ => exact (by decide : 16 ≤ 18)
  | zeros _ => exact (by decide : 17 ≤ 18)
  | manyZeros _ => exact Nat.le_refl 18

theorem Unpacks.symbol_le (unpacks : Unpacks before packed after) :
    ∀ entry ∈ packed, entry.1 ≤ 18 := by
  induction unpacks with
  | done lengths => exact fun entry member => absurd member List.not_mem_nil
  | step adds _ induction =>
      intro entry member
      rcases List.mem_cons.mp member with rfl | member
      · exact adds.symbol_le
      · exact induction entry member

end Unpacking

/-! ## Packing is sound -/

theorem pushPacked_returns {packed : PackedLengths} (room : packed.length < numLiterals + numDistances)
    (symbol extra : Nat) :
    Checked.Returns (fun grown => grown = packed ++ [(symbol, extra)])
      (pushPacked packed symbol extra) := by
  rw [pushPacked, push, if_pos room]
  exact Checked.Returns.ok rfl

/-- The packed lengths, and those that were packed before. -/
structure PackedTo (old : PackedLengths) (lengths : List Nat) (packed : PackedLengths) : Prop where
  unpacks : Unpacks [] packed lengths
  kept : old <+: packed

variable {old packed : PackedLengths} {before : List Nat}

theorem PackedTo.length_le (packedTo : PackedTo old before packed) : packed.length ≤ before.length := by
  obtain ⟨added, rfl, atMost⟩ := packedTo.unpacks.grows
  exact atMost

theorem PackedTo.restart (packedTo : PackedTo old before packed) : PackedTo packed before packed :=
  ⟨packedTo.unpacks, List.prefix_refl _⟩

theorem PackedTo.trans {packed' : PackedLengths} {after : List Nat}
    (packedTo : PackedTo old before packed) (rest : PackedTo packed after packed') :
    PackedTo old after packed' :=
  ⟨rest.unpacks, packedTo.kept.trans rest.kept⟩

theorem PackedTo.push {after : List Nat} {symbol extra : Nat} (packedTo : PackedTo old before packed)
    (adds : Adds before (symbol, extra) after) (room : before.length < numLiterals + numDistances) :
    Checked.Returns (fun grown => PackedTo old after grown ∧ symbol ∈ grown.map Prod.fst)
      (pushPacked packed symbol extra) := by
  have atMost := packedTo.length_le
  apply (pushPacked_returns (by omega) symbol extra).mono
  rintro _ rfl
  refine ⟨⟨packedTo.unpacks.concat adds, packedTo.kept.trans (List.prefix_append _ _)⟩, ?_⟩
  rw [List.map_append, List.mem_append]
  exact .inr (List.mem_singleton_self _)

/-- A symbol that adds so many of a length, as long as a condition holds. -/
structure Repeater (symbol least most len : Nat) (ready : List Nat → Prop) : Prop where
  positive : 0 < least
  ordered : least ≤ most
  fits : most - least < 2 ^ 8
  adds : ∀ before take, ready before → least ≤ take → take ≤ most →
    Adds before (symbol, take - least) (before ++ List.replicate take len)
  ready : ∀ before take, ready before → 0 < take → ready (before ++ List.replicate take len)

theorem repeater_again (len : Nat) : Repeater 16 3 6 len fun before => before.getLast? = some len where
  positive := by decide
  ordered := by decide
  fits := by decide
  adds before take last lower upper := by
    have isTake : 3 + (take - 3) = take := by omega
    have adds := Adds.again last (by omega : take - 3 < 2 ^ 2)
    rwa [isTake] at adds
  ready before take _ positive := by
    obtain ⟨less, rfl⟩ := Nat.exists_eq_add_one.mpr positive
    rw [List.replicate_succ', ← List.append_assoc, List.getLast?_concat]

theorem repeater_zeros : Repeater 17 3 10 0 fun _ => True where
  positive := by decide
  ordered := by decide
  fits := by decide
  adds before take _ lower upper := by
    have isTake : 3 + (take - 3) = take := by omega
    have adds := @Adds.zeros before (take - 3) (by omega)
    rwa [isTake] at adds
  ready _ _ _ _ := trivial

theorem repeater_manyZeros : Repeater 18 11 138 0 fun _ => True where
  positive := by decide
  ordered := by decide
  fits := by decide
  adds before take _ lower upper := by
    have isTake : 11 + (take - 11) = take := by omega
    have adds := @Adds.manyZeros before (take - 11) (by omega)
    rwa [isTake] at adds
  ready _ _ _ _ := trivial

/-- The loop leaves less of the run than the symbol can repeat. -/
theorem packRepeats_returns {symbol least most len : Nat} {ready : List Nat → Prop}
    (repeater : Repeater symbol least most len ready) {turns run : Nat} (enough : run ≤ turns)
    (isReady : ready before) (packedTo : PackedTo old before packed)
    (room : before.length + run ≤ numLiterals + numDistances) :
    Checked.Returns (fun result => result.1 < least ∧ result.1 ≤ run ∧
      PackedTo old (before ++ List.replicate (run - result.1) len) result.2 ∧
      (least ≤ run → symbol ∈ result.2.map Prod.fst))
      (packRepeats symbol least most turns run packed) := by
  have positive := repeater.positive
  have ordered := repeater.ordered
  induction turns generalizing run packed before old with
  | zero =>
      rw [packRepeats, if_neg (by omega)]
      apply Checked.Returns.ok
      refine ⟨by omega, Nat.le_refl _, ?_, fun long => by omega⟩
      rw [Nat.sub_self, List.replicate_zero, List.append_nil]
      exact packedTo
  | succ turns induction =>
      rw [packRepeats]
      split
      · rename_i long
        have isTake : least ≤ (if run > most then most else run) ∧
            (if run > most then most else run) ≤ most ∧ (if run > most then most else run) ≤ run := by
          split
          · omega
          · omega
        obtain ⟨take, sameTake⟩ : ∃ take, take = if run > most then most else run := ⟨_, rfl⟩
        rw [← sameTake] at isTake ⊢
        obtain ⟨lower, upper, inRun⟩ := isTake
        have fits := repeater.fits
        dsimp only
        rw [Nat.mod_eq_of_lt (by omega)]
        apply (packedTo.push (repeater.adds before take isReady lower upper) (by omega)).bind
        rintro grown ⟨packedTo', isMember⟩
        have longer : (before ++ List.replicate take len).length = before.length + take := by
          rw [List.length_append, List.length_replicate]
        have enough' : run - take ≤ turns := by omega
        apply (induction enough' (repeater.ready before take isReady (by omega)) packedTo'.restart
          (by omega)).mono
        rintro ⟨rest, result⟩ ⟨short, atMost, final, -⟩
        dsimp only at short atMost final
        refine ⟨short, by omega, packedTo'.trans ?_, fun _ => ?_⟩
        · rw [List.append_assoc, List.replicate_append_replicate] at final
          dsimp only
          rwa [show take + (run - take - rest) = run - rest by omega] at final
        · exact (final.kept.map Prod.fst).subset isMember
      · apply Checked.Returns.ok
        refine ⟨by omega, Nat.le_refl _, ?_, fun long => by omega⟩
        rw [Nat.sub_self, List.replicate_zero, List.append_nil]
        exact packedTo

theorem packSingles_returns {len : Nat} (small : len < 16) {run : Nat}
    (packedTo : PackedTo old before packed)
    (room : before.length + run ≤ numLiterals + numDistances) :
    Checked.Returns (PackedTo old (before ++ List.replicate run len)) (packSingles len run packed) := by
  induction run generalizing packed before with
  | zero =>
      apply Checked.Returns.ok
      rw [List.replicate_zero, List.append_nil]
      exact packedTo
  | succ run induction =>
      apply (packedTo.push (.length small) (by omega)).bind
      rintro grown ⟨packedTo', -⟩
      have room' : (before ++ [len]).length + run ≤ numLiterals + numDistances := by
        rw [List.length_append, List.length_singleton]
        omega
      have rest := induction packedTo' room'
      rwa [List.append_assoc, List.singleton_append, ← List.replicate_succ] at rest

/-- The steps of a run of this length. Four of a length that is not zero are repeated. -/
theorem packRun_returns {len run : Nat} (small : len < 16) (positive : 0 < run)
    (packedTo : PackedTo old before packed)
    (room : before.length + run ≤ numLiterals + numDistances) :
    Checked.Returns (fun result => PackedTo old (before ++ List.replicate run len) result ∧
      (len ≠ 0 → 4 ≤ run → 16 ∈ result.map Prod.fst)) (packRun len run packed) := by
  rw [packRun]
  split
  · rename_i isZero
    subst isZero
    apply (packRepeats_returns repeater_manyZeros (Nat.le_refl run) trivial packedTo room).bind
    rintro ⟨rest, packed'⟩ ⟨-, atMost, packedTo', -⟩
    dsimp only at atMost packedTo' ⊢
    have room' : (before ++ List.replicate (run - rest) 0).length + rest ≤
        numLiterals + numDistances := by
      rw [List.length_append, List.length_replicate]
      omega
    apply (packRepeats_returns repeater_zeros (Nat.le_refl rest) trivial packedTo' room').bind
    rintro ⟨rest', packed''⟩ ⟨-, atMost', packedTo'', -⟩
    dsimp only at atMost' packedTo'' ⊢
    rw [List.append_assoc, List.replicate_append_replicate] at packedTo''
    have room'' : (before ++ List.replicate (run - rest + (rest - rest')) 0).length + rest' ≤
        numLiterals + numDistances := by
      rw [List.length_append, List.length_replicate]
      omega
    apply (packSingles_returns small packedTo'' room'').mono
    intro result final
    rw [List.append_assoc, List.replicate_append_replicate,
      show run - rest + (rest - rest') + rest' = run by omega] at final
    exact ⟨final, fun notZero => absurd rfl notZero⟩
  · apply (packedTo.push (.length small) (by omega)).bind
    rintro packed' ⟨packedTo', -⟩
    have room' : (before ++ [len]).length + (run - 1) ≤ numLiterals + numDistances := by
      rw [List.length_append, List.length_singleton]
      omega
    apply (packRepeats_returns (repeater_again len) (Nat.le_refl (run - 1)) List.getLast?_concat
      packedTo' room').bind
    rintro ⟨rest, packed''⟩ ⟨-, atMost, packedTo'', isRepeated⟩
    dsimp only at atMost packedTo'' isRepeated ⊢
    rw [List.append_assoc, List.singleton_append, ← List.replicate_succ] at packedTo''
    have room'' : (before ++ List.replicate (run - 1 - rest + 1) len).length + rest ≤
        numLiterals + numDistances := by
      rw [List.length_append, List.length_replicate]
      omega
    apply (packSingles_returns small packedTo''.restart room'').mono
    intro result final
    refine ⟨packedTo''.trans ?_, fun _ long => ?_⟩
    · rwa [List.append_assoc, List.replicate_append_replicate,
        show run - 1 - rest + 1 + rest = run by omega] at final
    · exact (final.kept.map Prod.fst).subset (isRepeated (by omega))

/-- The run is the longest one from here. -/
structure IsRun (lengths : List Nat) (n i len run : Nat) : Prop where
  inside : i + run ≤ n
  same : ∀ j, i ≤ j → j < i + run → lengths[j]? = some len
  longest : i + run = n ∨ lengths[i + run]? ≠ some len

theorem extendRun_returns {lengths : List Nat} {n i len turns run : Nat}
    (enough : n ≤ i + run + turns) (fits : n ≤ lengths.length) (inside : i + run ≤ n)
    (same : ∀ j, i ≤ j → j < i + run → lengths[j]? = some len) :
    Checked.Returns (fun run' => run ≤ run' ∧ IsRun lengths n i len run')
      (extendRun lengths n i len turns run) := by
  induction turns generalizing run with
  | zero =>
      rw [extendRun, if_neg (by omega)]
      exact Checked.Returns.ok ⟨Nat.le_refl _, inside, same, .inl (by omega)⟩
  | succ turns induction =>
      rw [extendRun]
      split
      · rename_i further
        apply (Checked.returns_get (by omega)).bind
        intro length isLength
        split
        · rename_i isSame
          subst isSame
          have more : ∀ j, i ≤ j → j < i + (run + 1) → lengths[j]? = some length := by
            intro j lower upper
            rcases Nat.lt_or_ge j (i + run) with old | new
            · exact same j lower old
            · rw [show j = i + run by omega, isLength]
          apply (induction (by omega) (by omega) more).mono
          rintro run' ⟨grown, isRun⟩
          exact ⟨by omega, isRun⟩
        · rename_i different
          refine Checked.Returns.ok ⟨Nat.le_refl _, inside, same, .inr ?_⟩
          rw [isLength]
          intro isSame
          exact different (Option.some.inj isSame)
      · exact Checked.Returns.ok ⟨Nat.le_refl _, inside, same, .inl (by omega)⟩

theorem IsRun.take {lengths : List Nat} {n i len run : Nat} (isRun : IsRun lengths n i len run) :
    lengths.take (i + run) = lengths.take i ++ List.replicate run len := by
  have inside := isRun.inside
  rw [List.take_add]
  congr 1
  apply List.ext_getElem?
  intro j
  by_cases inRun : j < run
  · rw [List.getElem?_take_of_lt inRun, List.getElem?_drop,
      isRun.same (i + j) (Nat.le_add_right _ _) (by omega), List.getElem?_replicate_of_lt inRun]
  · rw [List.getElem?_eq_none (by rw [List.length_take]; omega),
      List.getElem?_eq_none (by rw [List.length_replicate]; omega)]

/-- One turn of the loop packs one run. -/
theorem packTurn_returns {lengths : List Nat} {n i turns : Nat} {post : PackedLengths → Prop}
    (small : ∀ len ∈ lengths, len < 16) (fits : n ≤ lengths.length)
    (room : n ≤ numLiterals + numDistances) (inside : i < n)
    (packedTo : PackedTo old (lengths.take i) packed)
    (rest : ∀ len run packed', IsRun lengths n i len run → 1 ≤ run →
      PackedTo old (lengths.take (i + run)) packed' →
      (len ≠ 0 → 4 ≤ run → 16 ∈ packed'.map Prod.fst) →
      Checked.Returns post (packFrom lengths n turns (i + run) packed')) :
    Checked.Returns post (packFrom lengths n (turns + 1) i packed) := by
  rw [packFrom, if_pos inside]
  apply (Checked.returns_get (by omega)).bind
  intro len isLength
  have first : ∀ j, i ≤ j → j < i + 1 → lengths[j]? = some len := by
    intro j lower upper
    rw [show j = i by omega, isLength]
  apply (extendRun_returns (by omega) fits inside first).bind
  rintro run ⟨positive, isRun⟩
  have isInside := isRun.inside
  have room' : (lengths.take i).length + run ≤ numLiterals + numDistances := by
    rw [List.length_take]
    omega
  apply (packRun_returns (small len (List.mem_of_getElem? isLength)) positive packedTo room').bind
  rintro packed' ⟨packedTo', repeated⟩
  rw [← isRun.take] at packedTo'
  exact rest len run packed' isRun positive packedTo' repeated

theorem packFrom_returns {lengths : List Nat} {n i turns : Nat}
    (small : ∀ len ∈ lengths, len < 16) (fits : n ≤ lengths.length)
    (room : n ≤ numLiterals + numDistances) (inside : i ≤ n) (enough : n ≤ i + turns)
    (packedTo : PackedTo old (lengths.take i) packed) :
    Checked.Returns (PackedTo old (lengths.take n)) (packFrom lengths n turns i packed) := by
  induction turns generalizing i packed with
  | zero =>
      obtain rfl : i = n := by omega
      rw [packFrom, if_neg (Nat.lt_irrefl _)]
      exact Checked.Returns.ok packedTo
  | succ turns induction =>
      rcases Nat.lt_or_eq_of_le inside with less | rfl
      · apply packTurn_returns small fits room less packedTo
        intro len run packed' isRun positive packedTo' _
        exact induction isRun.inside (by omega) packedTo'
      · rw [packFrom, if_neg (Nat.lt_irrefl _)]
        exact Checked.Returns.ok packedTo

/-- The packed lengths unpack to the lengths, and there are no more of them. -/
theorem packCodeLengths_returns {lengths : List Nat} {n : Nat} (small : ∀ len ∈ lengths, len < 16)
    (fits : n ≤ lengths.length) (room : n ≤ numLiterals + numDistances) :
    Checked.Returns (fun packed => Unpacks [] packed (lengths.take n) ∧ packed.length ≤ n)
      (packCodeLengths lengths n) := by
  have none : PackedTo [] (lengths.take 0) [] := ⟨.done _, List.prefix_refl _⟩
  apply (packFrom_returns small fits room (Nat.zero_le n) (by omega) none).mono
  intro packed packedTo
  have atMost := packedTo.length_le
  rw [List.length_take] at atMost
  exact ⟨packedTo.unpacks, by omega⟩

/-! ## Two different symbols -/

/-- A single long run is not sent as copies of its length. -/
theorem packCodeLengths_replicate {n len : Nat} (small : len < 16) (notZero : len ≠ 0) (long : 4 ≤ n)
    (room : n ≤ numLiterals + numDistances) :
    Checked.Returns (fun packed => 16 ∈ packed.map Prod.fst)
      (packCodeLengths (List.replicate n len) n) := by
  have fits : n ≤ (List.replicate n len).length := Nat.le_of_eq List.length_replicate.symm
  have none : PackedTo [] ((List.replicate n len).take 0) [] := ⟨.done _, List.prefix_refl _⟩
  have small' : ∀ x ∈ List.replicate n len, x < 16 := fun x member => by
    rw [List.eq_of_mem_replicate member]
    exact small
  obtain ⟨turns, rfl⟩ := Nat.exists_eq_add_one.mpr (by omega : 0 < n)
  apply packTurn_returns small' fits room (Nat.succ_pos turns) none
  intro len' run packed' isRun positive _ repeated
  have same := isRun.same 0 (Nat.le_refl 0) (by omega)
  rw [List.getElem?_replicate_of_lt (Nat.succ_pos turns)] at same
  obtain rfl := Option.some.inj same
  have isInside := isRun.inside
  have whole : 0 + run = turns + 1 := by
    rcases isRun.longest with isEnd | different
    · exact isEnd
    · by_contra notEnd
      exact different (List.getElem?_replicate_of_lt (by omega))
  rw [whole]
  cases turns with
  | zero => omega
  | succ turns =>
      rw [packFrom, if_neg (Nat.lt_irrefl _)]
      exact Checked.Returns.ok (repeated notZero (by omega))

/-- Lengths that are sent one by one. -/
theorem Unpacks.of_lengths {before after : List Nat} (unpacks : Unpacks before packed after)
    {symbol : Nat} (same : ∀ entry ∈ packed, entry.1 = symbol) (small : symbol < 16) :
    after = before ++ List.replicate packed.length symbol := by
  induction unpacks with
  | done lengths => exact (List.append_nil _).symm
  | step adds rest induction =>
      have isSymbol := same _ List.mem_cons_self
      rw [induction fun entry member => same entry (.tail _ member)]
      cases adds with
      | length _ =>
          dsimp only at isSymbol
          rw [isSymbol, List.append_assoc, List.singleton_append, ← List.replicate_succ,
            List.length_cons]
      | again _ _ =>
          dsimp only at isSymbol
          omega
      | zeros _ =>
          dsimp only at isSymbol
          omega
      | manyZeros _ =>
          dsimp only at isSymbol
          omega

/-- Repeated zeros add nothing but zeros. -/
theorem Unpacks.of_zeros {before after : List Nat} (unpacks : Unpacks before packed after)
    (large : ∀ entry ∈ packed, 16 < entry.1) : ∀ len ∈ after, len ∈ before ∨ len = 0 := by
  induction unpacks with
  | done lengths => exact fun len member => .inl member
  | step adds rest induction =>
      have isSymbol := large _ List.mem_cons_self
      intro len member
      rcases induction (fun entry member => large entry (.tail _ member)) len member with old | isZero
      · cases adds with
        | length small =>
            dsimp only at isSymbol
            omega
        | again _ _ =>
            dsimp only at isSymbol
            omega
        | zeros _ => exact (List.mem_append.mp old).imp_right List.eq_of_mem_replicate
        | manyZeros _ => exact (List.mem_append.mp old).imp_right List.eq_of_mem_replicate
      · exact .inr isZero

/-- Lengths that are not all zero take two different symbols at least. -/
theorem packCodeLengths_two {lengths : List Nat} (small : ∀ len ∈ lengths, len < 16)
    (long : 4 ≤ lengths.length) (room : lengths.length ≤ numLiterals + numDistances)
    (some : ∃ len ∈ lengths, len ≠ 0) (packs : packCodeLengths lengths lengths.length = .ok packed)
    (unpacks : Unpacks [] packed lengths) :
    ∃ entry ∈ packed, ∃ entry' ∈ packed, entry.1 ≠ entry'.1 := by
  obtain ⟨len, isLength, notZero⟩ := some
  by_contra noTwo
  have allSame : ∀ entry ∈ packed, ∀ entry' ∈ packed, entry.1 = entry'.1 := by
    intro entry member entry' member'
    by_contra different
    exact noTwo ⟨entry, member, entry', member', different⟩
  cases unpacks with
  | done => cases isLength
  | @step _ middle _ first rest adds unpacks' =>
      have same := fun entry member => (allSame first List.mem_cons_self entry member).symm
      rcases Nat.lt_trichotomy first.1 16 with isSmall | is16 | isLarge
      · have areCopies := Unpacks.of_lengths (.step adds unpacks') same isSmall
        rw [List.nil_append] at areCopies
        have isSymbol : first.1 ≠ 0 := by
          rw [areCopies] at isLength
          rw [← List.eq_of_mem_replicate isLength]
          exact notZero
        have count : (first :: rest).length = lengths.length := by rw [areCopies, List.length_replicate]
        rw [count] at areCopies
        obtain ⟨packed', packs', has16⟩ := packCodeLengths_replicate isSmall isSymbol long room
        rw [← areCopies, packs] at packs'
        obtain rfl := Except.ok.inj packs'
        obtain ⟨entry, member, is16⟩ := List.mem_map.mp has16
        have isSame := same entry member
        omega
      · cases adds with
        | again last _ => cases last
        | length small' =>
            dsimp only at is16
            omega
        | zeros _ =>
            dsimp only at is16
            omega
        | manyZeros _ =>
            dsimp only at is16
            omega
      · have areZero := Unpacks.of_zeros (.step adds unpacks') fun entry member => by
          rw [same entry member]
          exact isLarge
        rcases areZero len isLength with inNil | isZero
        · cases inNil
        · exact notZero isZero

end FoundationsLab.Deflate
