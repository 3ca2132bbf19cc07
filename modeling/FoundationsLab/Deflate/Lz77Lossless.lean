import FoundationsLab.Deflate.Lz77

/-! # The parse is lossless

Every position that a chain names was inserted before, so the search reads inside the
input, and what it finds repeats itself. The tokens spell the input up to the position,
or up to the match that is held back. -/

namespace FoundationsLab.Deflate

open Foundation.SlidingWindow

variable {input : List UInt8}

/-! ## Chains -/

/-- An entry is empty, or a position below the bound whose slot was written. -/
def Linked (prev : List (Option Int)) (bound : Nat) (entry : Int) : Prop :=
  0 ≤ entry → entry.toNat < bound ∧ ∃ next, prev[entry.toNat % windowSize]? = some (some next)

structure ChainsSound (bound : Nat) (chains : Chains) : Prop where
  headSize : chains.head.length = hashSize
  prevSize : chains.prev.length = windowSize
  heads : ∀ entry ∈ chains.head, Linked chains.prev bound entry
  links : ∀ entry, some entry ∈ chains.prev → Linked chains.prev bound entry

theorem chainsSound_initial : ChainsSound 0 initialChains where
  headSize := List.length_replicate
  prevSize := List.length_replicate
  heads entry member := by
    intro positive
    rw [List.eq_of_mem_replicate member] at positive
    exact absurd positive (by decide)
  links entry member := by
    have isNone := List.eq_of_mem_replicate member
    cases isNone

theorem ChainsSound.mono {bound bound' : Nat} {chains : Chains} (sound : ChainsSound bound chains)
    (less : bound ≤ bound') : ChainsSound bound' chains where
  headSize := sound.headSize
  prevSize := sound.prevSize
  heads entry member positive := by
    obtain ⟨below, isWritten⟩ := sound.heads entry member positive
    exact ⟨Nat.lt_of_lt_of_le below less, isWritten⟩
  links entry member positive := by
    obtain ⟨below, isWritten⟩ := sound.links entry member positive
    exact ⟨Nat.lt_of_lt_of_le below less, isWritten⟩

theorem toInt32_toNat {pos : Nat} (positive : 0 ≤ toInt32 pos) : (toInt32 pos).toNat = pos % 2 ^ 32 := by
  rw [toInt32] at positive ⊢
  split
  · omega
  · rename_i large
    rw [if_neg large] at positive
    omega

theorem slot_eq (pos : Nat) : pos &&& (windowSize - 1) = pos % windowSize :=
  Nat.and_two_pow_sub_one_eq_mod pos 15

theorem hash3_returns {p : Nat} (inside : p + minMatch ≤ input.length) :
    Checked.Returns (fun h => h < hashSize) (hash3 input p) := by
  have three : minMatch = 3 := rfl
  apply (Checked.returns_get (by omega)).bind
  intro first _
  apply (Checked.returns_get (by omega)).bind
  intro second _
  apply (Checked.returns_get (by omega)).bind
  intro third _
  apply Checked.Returns.ok
  have masked : ∀ value : Nat, value &&& (hashSize - 1) < hashSize := by
    intro value
    rw [show value &&& (hashSize - 1) = value % hashSize from Nat.and_two_pow_sub_one_eq_mod value 15]
    exact Nat.mod_lt _ (Nat.two_pow_pos 15)
  exact masked _

/-- Insertion keeps the chains sound. -/
theorem insertPos_returns {pos : Nat} {chains : Chains} (sound : ChainsSound pos chains)
    (inside : pos + minMatch ≤ input.length) :
    Checked.Returns (ChainsSound (pos + 1)) (insertPos input pos chains) := by
  have headSize := sound.headSize
  have prevSize := sound.prevSize
  have inWindow : pos % windowSize < windowSize := Nat.mod_lt _ (Nat.two_pow_pos 15)
  apply (hash3_returns inside).bind
  intro h inTable
  apply (Checked.returns_get (by omega)).bind
  intro old isOld
  have isOldHead := List.mem_of_getElem? isOld
  rw [slot_eq]
  apply (Checked.returns_set (by omega) _).bind
  rintro _ rfl
  apply (Checked.returns_set (by omega) _).bind
  rintro _ rfl
  apply Checked.Returns.ok
  -- Slots that were written stay written.
  have kept : ∀ slot : Nat, (∃ next, chains.prev[slot]? = some (some next)) →
      ∃ next, (chains.prev.set (pos % windowSize) (some old))[slot]? = some (some next) := by
    rintro slot ⟨next, isNext⟩
    rw [List.getElem?_set]
    split
    · rename_i same
      rw [if_pos (by omega)]
      exact ⟨old, rfl⟩
    · exact ⟨next, isNext⟩
  have linked : ∀ entry, Linked chains.prev pos entry →
      Linked (chains.prev.set (pos % windowSize) (some old)) (pos + 1) entry := by
    intro entry link positive
    obtain ⟨below, isWritten⟩ := link positive
    exact ⟨by omega, kept _ isWritten⟩
  have ofPos : Linked (chains.prev.set (pos % windowSize) (some old)) (pos + 1) (toInt32 pos) := by
    intro positive
    rw [toInt32_toNat positive]
    have sameSlot : pos % 2 ^ 32 % windowSize = pos % windowSize := by
      rw [windowSize]
      omega
    refine ⟨Nat.lt_succ_of_le (Nat.mod_le _ _), old, ?_⟩
    rw [sameSlot, List.getElem?_set_self (by omega)]
  refine ⟨by rw [List.length_set, headSize], by rw [List.length_set, prevSize], ?_, ?_⟩
  · intro entry member
    rcases List.mem_or_eq_of_mem_set member with isOther | isPos
    · exact linked entry (sound.heads entry isOther)
    · rw [isPos]
      exact ofPos
  · intro entry member
    rcases List.mem_or_eq_of_mem_set member with isOther | isOld
    · exact linked entry (sound.links entry isOther)
    · rw [Option.some.inj isOld]
      exact linked old (sound.heads old isOldHead)

theorem insertAt_returns {pos : Nat} {chains : Chains} (sound : ChainsSound pos chains) :
    Checked.Returns (ChainsSound (pos + 1)) (insertAt input pos chains) := by
  rw [insertAt]
  split
  · rename_i inside
    exact insertPos_returns sound inside
  · exact Checked.Returns.ok (sound.mono (Nat.le_succ pos))

theorem insertRun_returns {stop k : Nat} {chains : Chains} (sound : ChainsSound k chains)
    (before : k ≤ stop) : Checked.Returns (ChainsSound stop) (insertRun input stop k chains) := by
  induction k, chains using insertRun.induct input stop with
  | case1 k chains inside induction =>
      rw [insertRun, if_pos inside]
      apply (insertPos_returns sound inside.2).bind
      intro chains' sound'
      exact induction chains' sound' inside.1
  | case2 k chains outside =>
      rw [insertRun, if_neg outside]
      exact Checked.Returns.ok (sound.mono before)

/-! ## Searching -/

theorem extend_returns {a b maxLen len : Nat} (inside : a + maxLen ≤ input.length) (order : b ≤ a)
    (fits : len ≤ maxLen) (same : ∀ i < len, input[a + i]? = input[b + i]?) :
    Checked.Returns (fun len' => len' ≤ maxLen ∧ ∀ i < len', input[a + i]? = input[b + i]?)
      (extend input a b maxLen len) := by
  induction len using extend.induct maxLen with
  | case1 len less induction =>
      rw [extend, if_pos less]
      apply (Checked.returns_get (by omega)).bind
      intro left isLeft
      apply (Checked.returns_get (by omega)).bind
      intro right isRight
      split
      · rename_i equal
        apply induction less
        intro i before
        rcases Nat.lt_succ_iff_lt_or_eq.mp before with earlier | rfl
        · exact same i earlier
        · rw [isLeft, isRight, equal]
      · exact Checked.Returns.ok ⟨fits, same⟩
  | case2 len full =>
      rw [extend, if_neg full]
      exact Checked.Returns.ok ⟨fits, same⟩

theorem misses_returns {a b bestLen : Nat} (inside : a + bestLen < input.length) (order : b ≤ a) :
    Checked.Returns (fun _ => True) (misses input a b bestLen) := by
  rw [misses]
  split
  · apply (Checked.returns_get (by omega)).bind
    intro left _
    apply (Checked.returns_get (by omega)).bind
    intro right _
    exact Checked.Returns.ok trivial
  · exact Checked.Returns.ok trivial

/-- No match so far, or one that repeats what stands in the window. -/
def IsBest (input : List UInt8) (pos maxLen : Nat) (best : Nat × Nat) : Prop :=
  best.1 ≤ maxLen ∧ (best.1 = 0 ∨ best.2 ≤ windowSize ∧ Repeats input pos best.1 best.2)

theorem searchChain_returns {pos maxLen goodLength : Nat} {chains : Chains}
    (sound : ChainsSound pos chains) (inside : pos + maxLen ≤ input.length) {candidate : Int}
    {bestLen bestDist chain : Nat} (linked : Linked chains.prev pos candidate)
    (isBest : IsBest input pos maxLen (bestLen, bestDist)) :
    Checked.Returns (IsBest input pos maxLen)
      (searchChain input pos maxLen goodLength chains.prev candidate bestLen bestDist chain) := by
  induction chain using Nat.strongRecOn generalizing candidate bestLen bestDist with
  | _ chain induction =>
      cases chain with
      | zero =>
          rw [searchChain]
          exact Checked.Returns.ok isBest
      | succ chain =>
          rw [searchChain]
          split
          · exact Checked.Returns.ok isBest
          rename_i notNegative
          split
          · exact Checked.Returns.ok isBest
          rename_i notFull
          dsimp only
          split
          · exact Checked.Returns.ok isBest
          rename_i inWindow
          obtain ⟨before, next, isNext⟩ := linked (Int.not_lt.mp notNegative)
          rw [slot_eq]
          have isRead : Checked.Returns (Linked chains.prev pos)
              (Checked.getInit chains.prev (candidate.toNat % windowSize) : Df Int) := by
            rw [Checked.getInit, isNext]
            exact Checked.Returns.ok (sound.links next (List.mem_of_getElem? isNext))
          apply (misses_returns (by omega) (by omega)).bind
          intro isMiss _
          split
          · apply isRead.bind
            intro next linked'
            exact induction chain (Nat.lt_succ_self _) linked' isBest
          · apply (extend_returns inside (Nat.le_of_lt before) (Nat.zero_le _)
              fun i less => absurd less (Nat.not_lt_zero _)).bind
            rintro len ⟨fits, same⟩
            apply isRead.bind
            intro next linked'
            split
            · apply induction _ (shorten_lt ..) linked'
              refine ⟨fits, .inr ⟨by dsimp only; omega, by dsimp only; omega, by dsimp only; omega,
                by dsimp only; omega, fun i less => ?_⟩⟩
              rw [show pos - (pos - candidate.toNat) = candidate.toNat by omega]
              exact same i less
            · exact induction chain (Nat.lt_succ_self _) linked' isBest

/-- A match as it may be sent. -/
structure IsMatch (input : List UInt8) (pos length distance : Nat) : Prop where
  short : minMatch ≤ length
  long : length ≤ maxMatch
  near : distance ≤ windowSize
  repeats : Repeats input pos length distance

theorem findAt_returns {pos : Nat} {chains : Chains} (cfg : LevelConfig)
    (sound : ChainsSound pos chains) :
    Checked.Returns (fun found => found.1 = 0 ∨ IsMatch input pos found.1 found.2)
      (findAt input pos chains cfg) := by
  have headSize := sound.headSize
  rw [findAt]
  split
  · rename_i inside
    rw [findMatch]
    dsimp only
    split
    · exact Checked.Returns.ok (.inl rfl)
    · apply (hash3_returns inside).bind
      intro h inTable
      apply (Checked.returns_get (by omega)).bind
      intro candidate isCandidate
      have linked := sound.heads candidate (List.mem_of_getElem? isCandidate)
      apply (searchChain_returns sound (by omega) linked ⟨Nat.zero_le _, .inl rfl⟩).bind
      rintro ⟨bestLen, bestDist⟩ ⟨fits, isBest⟩
      dsimp only at fits isBest ⊢
      split
      · rename_i long
        apply Checked.Returns.ok
        rcases isBest with isZero | ⟨near, repeats⟩
        · exact .inl isZero
        · exact .inr ⟨long, by omega, near, repeats⟩
      · exact Checked.Returns.ok (.inl rfl)
  · exact Checked.Returns.ok (.inl rfl)

/-! ## Tokens -/

/-- What a token means. -/
def Token.piece (token : Token) : Piece UInt8 :=
  if token.length = 0 then .literal token.literal else .copy token.length token.distance

/-- The text that the tokens spell. -/
def expandTokens (tokens : List Token) : Option (List UInt8) := expand (tokens.map Token.piece)

/-- A literal, or a match within the format's bounds that stays in what was produced. -/
def Token.Fits (produced : Nat) (token : Token) : Prop :=
  token.length = 0 ∨ minMatch ≤ token.length ∧ token.length ≤ maxMatch ∧
    1 ≤ token.distance ∧ token.distance ≤ min windowSize produced

/-- The tokens spell the input up to a place. -/
structure Spells (input : List UInt8) (tokens : List Token) (place : Nat) : Prop where
  expands : expandTokens tokens = some (input.take place)
  few : tokens.length ≤ place
  inside : place ≤ input.length
  fit : ∀ before token after, tokens = before ++ token :: after →
    ∃ out, expandTokens before = some out ∧ token.Fits out.length

theorem spells_nothing (input : List UInt8) : Spells input [] 0 where
  expands := rfl
  few := Nat.zero_le _
  inside := Nat.zero_le _
  fit before token after isSplit := absurd isSplit (by simp)

theorem expandTokens_concat (tokens : List Token) (token : Token) :
    expandTokens (tokens ++ [token]) = expand (tokens.map Token.piece ++ [token.piece]) := by
  rw [expandTokens, List.map_append]
  rfl

section Tokens

variable {tokens : List Token} {place : Nat}

/-- One more token. -/
theorem Spells.concat (spells : Spells input tokens place) {token : Token} {place' : Nat}
    (expands : expandTokens (tokens ++ [token]) = some (input.take place')) (more : place < place')
    (inside : place' ≤ input.length) (fits : token.Fits place) :
    Spells input (tokens ++ [token]) place' where
  expands := expands
  few := by
    have few := spells.few
    rw [List.length_append, List.length_singleton]
    omega
  inside := inside
  fit before other after isSplit := by
    rcases List.append_eq_append_iff.mp isSplit with ⟨middle, rfl, isRest⟩ | ⟨middle, isFront, isRest⟩
    · cases middle with
      | nil =>
          obtain rfl := (List.cons.inj isRest).1
          rw [List.append_nil]
          refine ⟨input.take place, spells.expands, ?_⟩
          have inside := spells.inside
          rw [List.length_take, Nat.min_eq_left inside]
          exact fits
      | cons head tail => cases tail <;> simp at isRest
    · cases middle with
      | nil =>
          obtain rfl := (List.cons.inj isRest).1
          rw [List.append_nil] at isFront
          subst isFront
          refine ⟨input.take place, spells.expands, ?_⟩
          have inside := spells.inside
          rw [List.length_take, Nat.min_eq_left inside]
          exact fits
      | cons head tail =>
          obtain ⟨rfl, -⟩ := List.cons.inj isRest
          exact spells.fit before other tail isFront

theorem Spells.literal (spells : Spells input tokens place) (inside : place < input.length) :
    Spells input (tokens ++ [literalToken input[place]]) (place + 1) := by
  apply spells.concat _ (Nat.lt_succ_self _) inside (.inl rfl)
  rw [expandTokens_concat]
  exact expand_literal spells.expands inside

theorem Spells.copy (spells : Spells input tokens place) {length distance : Nat}
    (isMatch : IsMatch input place length distance) :
    Spells input (tokens ++ [matchToken length distance]) (place + length) := by
  obtain ⟨short, long, near, repeats⟩ := isMatch
  have positive := repeats.positive
  have inText := repeats.inText
  have bound : maxMatch < 2 ^ 16 := by decide
  have bound' : windowSize < 2 ^ 16 := by decide
  have three : minMatch = 3 := rfl
  have isToken : matchToken length distance = ⟨length, distance, 0⟩ := by
    rw [matchToken, Nat.mod_eq_of_lt (by omega), Nat.mod_eq_of_lt (by omega)]
  rw [isToken]
  apply spells.concat _ (by omega) repeats.fits (.inr ⟨short, long, positive, by dsimp only; omega⟩)
  rw [expandTokens_concat]
  have isPiece : (⟨length, distance, 0⟩ : Token).piece = .copy length distance :=
    if_neg (by dsimp only; omega)
  rw [isPiece]
  exact expand_copy spells.expands repeats

end Tokens

/-! ## The parse -/

/-- The tokens spell the input up to the position, or to the match that is held back at
the position before. -/
structure ParseSound (input : List UInt8) (parse : Parse) : Prop where
  chains : ChainsSound parse.pos parse.chains
  ahead : parse.prev = none → Spells input parse.tokens parse.pos
  held : ∀ held, parse.prev = some held → held.pos + 1 = parse.pos ∧
    Spells input parse.tokens held.pos ∧ IsMatch input held.pos held.length held.distance

theorem literalAt_returns {parse : Parse} {pos : Nat} (inside : pos < input.length) :
    Checked.Returns (fun parse' => parse' = { parse with
      tokens := parse.tokens ++ [literalToken input[pos]], pos := parse.pos + 1 })
      (literalAt input pos parse) := by
  apply (Checked.returns_get inside).bind
  intro byte isByte
  rw [List.getElem?_eq_getElem inside] at isByte
  rw [← Option.some.inj isByte]
  exact Checked.Returns.ok rfl

/-- What a turn of the loop leaves. -/
def StepsTo (input : List UInt8) (parse parse' : Parse) : Prop :=
  ParseSound input parse' ∧ parse.pos < parse'.pos

section Steps

variable {parse : Parse} {len dist : Nat}

/-- After the position was inserted, with what was found at it. -/
structure Searched (input : List UInt8) (parse : Parse) (len dist : Nat) : Prop where
  chains : ChainsSound (parse.pos + 1) parse.chains
  inside : parse.pos < input.length
  found : len = 0 ∨ IsMatch input parse.pos len dist

theorem literal_step (searched : Searched input parse len dist) (isNone : parse.prev = none)
    (spells : Spells input parse.tokens parse.pos) :
    Checked.Returns (fun parse' => StepsTo input parse parse' ∧ parse'.prev = none)
      (literalAt input parse.pos parse) := by
  apply (literalAt_returns searched.inside).mono
  rintro _ rfl
  refine ⟨⟨⟨searched.chains, fun _ => spells.literal searched.inside, ?_⟩, Nat.lt_succ_self _⟩, isNone⟩
  intro held isHeld
  rw [isNone] at isHeld
  cases isHeld

theorem Searched.isMatch (searched : Searched input parse len dist) (long : minMatch ≤ len) :
    IsMatch input parse.pos len dist := by
  rcases searched.found with isZero | isMatch
  · rw [isZero] at long
    exact absurd long (by decide)
  · exact isMatch

theorem greedyStep_returns (searched : Searched input parse len dist) (isNone : parse.prev = none)
    (spells : Spells input parse.tokens parse.pos) :
    Checked.Returns (fun parse' => StepsTo input parse parse' ∧ parse'.prev = none)
      (greedyStep input len dist parse) := by
  rw [greedyStep]
  split
  · rename_i long
    have isMatch := searched.isMatch long
    have three : minMatch = 3 := rfl
    apply (insertRun_returns searched.chains (by omega)).bind
    intro chains sound
    apply Checked.Returns.ok
    refine ⟨⟨⟨sound, fun _ => spells.copy isMatch, ?_⟩, by dsimp only; omega⟩, isNone⟩
    intro held isHeld
    have isHeld' : parse.prev = some held := isHeld
    rw [isNone] at isHeld'
    cases isHeld'
  · exact literal_step searched isNone spells

theorem lazyStep_returns (searched : Searched input parse len dist)
    (ahead : parse.prev = none → Spells input parse.tokens parse.pos)
    (areHeld : ∀ held, parse.prev = some held → held.pos + 1 = parse.pos ∧
      Spells input parse.tokens held.pos ∧ IsMatch input held.pos held.length held.distance) :
    Checked.Returns (StepsTo input parse) (lazyStep input len dist parse) := by
  have three : minMatch = 3 := rfl
  have inside := searched.inside
  rw [lazyStep]
  cases isPrev : parse.prev with
  | none =>
      dsimp only
      split
      · rename_i long
        apply Checked.Returns.ok
        refine ⟨⟨searched.chains, (fun isNone => by cases isNone), ?_⟩, Nat.lt_succ_self _⟩
        intro held isHeld
        obtain rfl := Option.some.inj isHeld
        exact ⟨rfl, ahead isPrev, searched.isMatch long⟩
      · exact (literal_step searched isPrev (ahead isPrev)).mono fun _ steps => steps.1
  | some held =>
      obtain ⟨isNext, spells, isMatch⟩ := areHeld held isPrev
      have short := isMatch.short
      dsimp only
      split
      · rename_i better
        apply (literalAt_returns (by omega : held.pos < input.length)).bind
        rintro _ rfl
        apply Checked.Returns.ok
        refine ⟨⟨searched.chains, (fun isNone => by cases isNone), ?_⟩, Nat.lt_succ_self _⟩
        intro held' isHeld
        obtain rfl := Option.some.inj isHeld
        refine ⟨rfl, ?_, searched.isMatch (by omega)⟩
        have spelled := spells.literal (by omega)
        rw [isNext] at spelled
        exact spelled
      · apply (insertRun_returns searched.chains (by omega)).bind
        intro chains sound
        apply Checked.Returns.ok
        refine ⟨⟨sound, fun _ => spells.copy isMatch, ?_⟩, by dsimp only; omega⟩
        intro held' isHeld
        cases isHeld

theorem parseStep_returns (cfg : LevelConfig) (sound : ParseSound input parse)
    (inside : parse.pos < input.length) (greedy : cfg.isLazy = false → parse.prev = none) :
    Checked.Returns (fun parse' => StepsTo input parse parse' ∧
      (cfg.isLazy = false → parse'.prev = none)) (parseStep input cfg parse) := by
  apply (findAt_returns cfg sound.chains).bind
  rintro ⟨len, dist⟩ found
  apply (insertAt_returns sound.chains).bind
  intro chains sound'
  have searched : Searched input { parse with chains := chains } len dist := ⟨sound', inside, found⟩
  dsimp only
  split
  · rename_i isLazy
    apply (lazyStep_returns searched sound.ahead sound.held).mono
    intro parse' steps
    exact ⟨steps, fun notLazy => absurd isLazy (by simp [notLazy])⟩
  · rename_i notLazy
    have isNone := greedy (Bool.eq_false_iff.mpr notLazy)
    apply (greedyStep_returns searched isNone (sound.ahead isNone)).mono
    rintro parse' ⟨steps, isNone'⟩
    exact ⟨steps, fun _ => isNone'⟩

theorem parseLoop_returns (cfg : LevelConfig) (fuel : Nat) {parse : Parse}
    (sound : ParseSound input parse) (greedy : cfg.isLazy = false → parse.prev = none)
    (enough : input.length ≤ parse.pos + fuel) :
    Checked.Returns (fun parse' => ParseSound input parse' ∧ input.length ≤ parse'.pos)
      (parseLoop input cfg fuel parse) := by
  induction fuel generalizing parse with
  | zero =>
      rw [parseLoop, if_neg (by omega)]
      exact Checked.Returns.ok ⟨sound, enough⟩
  | succ fuel induction =>
      rw [parseLoop]
      split
      · rename_i inside
        apply (parseStep_returns cfg sound inside greedy).bind
        rintro parse' ⟨⟨sound', further⟩, greedy'⟩
        exact induction sound' greedy' (by omega)
      · rename_i atEnd
        exact Checked.Returns.ok ⟨sound, Nat.le_of_not_lt atEnd⟩

end Steps

/-- The parse returns at every level without a read outside of the input, and its
tokens spell the input. -/
theorem lz77Parse_spells (input : List UInt8) {level : Nat} (isLevel : level ≤ 9) :
    Checked.Returns (fun tokens => Spells input tokens input.length) (lz77Parse input level) := by
  apply (Checked.returns_get (Nat.lt_succ_of_le isLevel)).bind
  intro cfg _
  have sound : ParseSound input ⟨initialChains, [], 0, none⟩ :=
    ⟨chainsSound_initial, fun _ => spells_nothing input, (fun _ isHeld => by cases isHeld)⟩
  apply (parseLoop_returns cfg input.length sound (fun _ => rfl) (Nat.le_add_left _ _)).bind
  rintro parse ⟨sound', atEnd⟩
  cases isPrev : parse.prev with
  | none =>
      have spells := sound'.ahead isPrev
      have same := Nat.le_antisymm spells.inside atEnd
      exact Checked.Returns.ok (same ▸ spells)
  | some held =>
      obtain ⟨isNext, spells, isMatch⟩ := sound'.held held isPrev
      have spelled := spells.copy isMatch
      have short := isMatch.short
      have fits := isMatch.repeats.fits
      have three : minMatch = 3 := rfl
      have same : held.pos + held.length = input.length := by omega
      exact Checked.Returns.ok (same ▸ spelled)

/-- At every level the parse returns, having read nothing outside of the input, with no
more tokens than bytes; they expand to the input, and every match is within the bounds
of the format and reaches back into what was produced before it. -/
theorem lz77_is_lossless (input : List UInt8) {level : Nat} (isLevel : level ≤ 9) :
    ∃ tokens, lz77Parse input level = .ok tokens ∧ tokens.length ≤ input.length ∧
      expandTokens tokens = some input ∧
      ∀ before token after, tokens = before ++ token :: after → token.length ≠ 0 →
        3 ≤ token.length ∧ token.length ≤ 258 ∧ 1 ≤ token.distance ∧
        ∃ out, expandTokens before = some out ∧ token.distance ≤ min 32768 out.length := by
  obtain ⟨tokens, parsed, spells⟩ := lz77Parse_spells input isLevel
  refine ⟨tokens, parsed, spells.few, ?_, ?_⟩
  · rw [spells.expands, List.take_length]
  · intro before token after isSplit isCopy
    obtain ⟨out, expanded, fits⟩ := spells.fit before token after isSplit
    rcases fits with isLiteral | ⟨short, long, positive, near⟩
    · exact absurd isLiteral isCopy
    · exact ⟨short, long, positive, out, expanded, near⟩

theorem lz77_is_lossless_repeated : ∃ tokens, lz77Parse [1, 2, 1, 2, 1, 2] 6 = .ok tokens ∧
    expandTokens tokens = some [1, 2, 1, 2, 1, 2] := by
  obtain ⟨tokens, parsed, -, expanded, -⟩ := lz77_is_lossless [1, 2, 1, 2, 1, 2] (by decide : 6 ≤ 9)
  exact ⟨tokens, parsed, expanded⟩

end FoundationsLab.Deflate
