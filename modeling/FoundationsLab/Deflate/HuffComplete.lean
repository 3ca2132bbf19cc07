import FoundationsLab.Deflate.HuffNodes
import FoundationsLab.Foundation.CanonicalCode

/-! # Complete codes within the limit

Each turn maps the lengths from the leaves to the symbols. Once all frequencies are one
the tree is as low as it can be, so the loop ends. -/

namespace FoundationsLab.Deflate

open Foundation.HuffmanTree Foundation.CanonicalCode

variable {freqs scaled : List Nat} {limit : Nat}

/-! ## From leaves to symbols -/

theorem map_range_getD (xs : List Nat) : (List.range xs.length).map (xs.getD · 0) = xs := by
  apply List.ext_getElem?
  intro i
  rw [List.getElem?_map]
  by_cases inside : i < xs.length
  · rw [List.getElem?_range inside, List.getElem?_eq_getElem inside, Option.map_some,
      List.getD_eq_getElem _ _ inside]
  · rw [List.getElem?_eq_none (Nat.le_of_not_lt inside), List.getElem?_eq_none (by simpa using inside)]
    rfl

theorem usedSymbols_map (scaled : List Nat) :
    (usedSymbols scaled).map (scaled.getD · 0) = scaled.filter (· ≠ 0) := by
  conv_rhs => rw [← map_range_getD scaled]
  rw [List.filter_map]
  rfl

theorem length_usedSymbols (scaled : List Nat) :
    (usedSymbols scaled).length = (scaled.filter (· ≠ 0)).length := by
  rw [← usedSymbols_map, List.length_map]

theorem mem_usedSymbols {symbol : Nat} :
    symbol ∈ usedSymbols scaled ↔ symbol < scaled.length ∧ scaled.getD symbol 0 ≠ 0 := by
  rw [usedSymbols, List.mem_filter, List.mem_range, decide_eq_true_eq]

theorem nodup_usedSymbols (scaled : List Nat) : (usedSymbols scaled).Nodup :=
  List.nodup_range.filter _

/-- The first used symbols have their lengths. -/
structure Mapped (scaled leafLen : List Nat) (i : Nat) (lengths : List Nat) : Prop where
  size : lengths.length = scaled.length
  used : ∀ k < i, ∀ symbol, (usedSymbols scaled)[k]? = some symbol → lengths[symbol]? = leafLen[k]?
  unused : ∀ symbol < scaled.length, symbol ∉ usedSymbols scaled → lengths[symbol]? = some 0

theorem mapLength_returns {leafLen : List Nat} {i : Nat} {lengths : List Nat}
    (mapped : Mapped scaled leafLen i lengths) (inside : i < (usedSymbols scaled).length)
    (room : (usedSymbols scaled).length ≤ leafLen.length) :
    Checked.Returns (Mapped scaled leafLen (i + 1))
      (mapLength (usedSymbols scaled) leafLen i lengths) := by
  obtain ⟨size, areUsed, areUnused⟩ := mapped
  apply (Checked.returns_get inside).bind
  intro symbol isSymbol
  apply (Checked.returns_get (by omega)).bind
  intro length isLength
  have isUsed := List.mem_of_getElem? isSymbol
  have isInside := (mem_usedSymbols.mp isUsed).1
  apply (Checked.returns_set (by omega) _).mono
  rintro _ rfl
  constructor
  · rw [List.length_set, size]
  · intro k earlier other isOther
    rcases Nat.lt_succ_iff_lt_or_eq.mp earlier with less | rfl
    · have different : symbol ≠ other := by
        rintro rfl
        have same := (List.getElem?_inj inside (nodup_usedSymbols scaled)).mp (isSymbol.trans isOther.symm)
        omega
      rw [List.getElem?_set_ne different]
      exact areUsed k less other isOther
    · rw [isSymbol] at isOther
      obtain rfl := Option.some.inj isOther
      rw [List.getElem?_set_self (by omega), isLength]
  · intro other inside' isUnused
    have different : symbol ≠ other := by
      rintro rfl
      exact isUnused isUsed
    rw [List.getElem?_set_ne different]
    exact areUnused other inside' isUnused

theorem buildTurn_returns {post : Nat × List Nat → Prop}
    (built : Checked.Returns (fun built => built.2.length = scaled.length ∧ ∀ lengths,
      Mapped scaled built.2 (usedSymbols scaled).length lengths → post (built.1, lengths))
      (buildOnce scaled)) : Checked.Returns post (buildTurn scaled) := by
  apply built.bind
  rintro ⟨maxLen, leafLen⟩ ⟨size, then'⟩
  dsimp only at size then'
  have atMost := List.length_filter_le (· ≠ 0) scaled
  rw [← length_usedSymbols] at atMost
  apply (Checked.returns_forFrom (Mapped scaled leafLen) ?_ fun i lengths _ upper mapped =>
    mapLength_returns mapped (by omega) (by omega)).bind
  · intro lengths mapped
    rw [Nat.zero_add] at mapped
    exact Checked.Returns.ok (then' lengths mapped)
  · refine ⟨List.length_replicate, fun k earlier => absurd earlier (Nat.not_lt_zero _),
      fun symbol inside _ => List.getElem?_replicate_of_lt inside⟩

theorem Mapped.getD {leafLen lengths : List Nat}
    (mapped : Mapped scaled leafLen (usedSymbols scaled).length lengths) {k : Nat}
    (inside : k < (usedSymbols scaled).length) :
    lengths.getD ((usedSymbols scaled).getD k 0) 0 = leafLen.getD k 0 := by
  rw [List.getD_eq_getElem?_getD, List.getD_eq_getElem?_getD (l := leafLen),
    mapped.used k inside _ (by rw [List.getD_eq_getElem _ _ inside, List.getElem?_eq_getElem inside])]

theorem Mapped.getD_unused {leafLen lengths : List Nat}
    (mapped : Mapped scaled leafLen (usedSymbols scaled).length lengths) {symbol : Nat}
    (isUnused : symbol ∉ usedSymbols scaled) : lengths.getD symbol 0 = 0 := by
  rw [List.getD_eq_getElem?_getD]
  by_cases inside : symbol < scaled.length
  · rw [mapped.unused symbol inside isUnused]
    rfl
  · rw [List.getElem?_eq_none (by rw [mapped.size]; omega)]
    rfl

/-- A length comes from a leaf, or there is none. -/
theorem Mapped.cases {leafLen lengths : List Nat}
    (mapped : Mapped scaled leafLen (usedSymbols scaled).length lengths) {x : Nat}
    (member : x ∈ lengths) : x = 0 ∨ ∃ k < (usedSymbols scaled).length, x = leafLen.getD k 0 := by
  obtain ⟨symbol, isLength⟩ := List.getElem?_of_mem member
  have isLength' : lengths.getD symbol 0 = x := by
    rw [List.getD_eq_getElem?_getD, isLength]
    rfl
  by_cases isUsed : symbol ∈ usedSymbols scaled
  · obtain ⟨k, inside, rfl⟩ := List.getElem_of_mem isUsed
    have same := mapped.getD inside
    rw [List.getD_eq_getElem _ _ inside, isLength'] at same
    exact .inr ⟨k, inside, same⟩
  · rw [mapped.getD_unused isUsed] at isLength'
    exact .inl isLength'.symm

section Positive

variable {leafLen lengths : List Nat}
  (mapped : Mapped scaled leafLen (usedSymbols scaled).length lengths)
  (positive : ∀ k < (usedSymbols scaled).length, leafLen.getD k 0 ≠ 0)
include mapped positive

theorem Mapped.used_iff (symbol : Nat) : lengths.getD symbol 0 ≠ 0 ↔ symbol ∈ usedSymbols scaled := by
  constructor
  · intro notZero
    by_contra isUnused
    exact notZero (mapped.getD_unused isUnused)
  · intro isUsed
    obtain ⟨k, inside, rfl⟩ := List.getElem_of_mem isUsed
    have same := mapped.getD inside
    rw [List.getD_eq_getElem _ _ inside] at same
    rw [same]
    exact positive k inside

/-- The lengths of the used symbols are those of the leaves. -/
theorem Mapped.filter_eq : lengths.filter (· ≠ 0) =
    (List.range (usedSymbols scaled).length).map (leafLen.getD · 0) := by
  conv_lhs => rw [← map_range_getD lengths]
  have areUsed : (List.range lengths.length).filter ((fun x => decide (x ≠ 0)) ∘ (lengths.getD · 0)) =
      usedSymbols scaled := by
    rw [usedSymbols, mapped.size]
    apply List.filter_congr
    intro symbol member
    rw [Function.comp_apply, decide_eq_decide, mapped.used_iff positive, mem_usedSymbols]
    exact and_iff_right (List.mem_range.mp member)
  rw [List.filter_map, areUsed]
  conv_lhs => rw [← map_range_getD (usedSymbols scaled)]
  rw [List.map_map]
  apply List.map_congr_left
  intro k member
  exact mapped.getD (List.mem_range.mp member)

end Positive

/-! ## Depths as lengths -/

section Depths

variable {tree : CodeTree Nat} {maxLen : Nat} {leafLen : List Nat}

theorem Depths.names (depths : Depths scaled tree maxLen leafLen) :
    ((tree.depths 0).map Prod.fst).Perm (List.range (usedSymbols scaled).length) := by
  have areNames := depths.mergesTo.names
  rw [names_leafForest, ← length_usedSymbols] at areNames
  exact (tree.names_depths 0).trans areNames

theorem Depths.two_le (depths : Depths scaled tree maxLen leafLen)
    (two : 2 ≤ (usedSymbols scaled).length) : 2 ≤ tree.names.length := by
  have count := ((tree.names_depths 0).symm.trans depths.names).length_eq
  rw [List.length_range] at count
  omega

theorem Depths.getD (depths : Depths scaled tree maxLen leafLen) {leaf : Nat × Nat}
    (member : leaf ∈ tree.depths 0) : leafLen.getD leaf.1 0 = leaf.2 % 2 ^ 8 := by
  rw [List.getD_eq_getElem?_getD, depths.depths leaf member]
  rfl

theorem Depths.leaf (depths : Depths scaled tree maxLen leafLen) {k : Nat}
    (inside : k < (usedSymbols scaled).length) :
    ∃ leaf ∈ tree.depths 0, leafLen.getD k 0 = leaf.2 % 2 ^ 8 := by
  have isName := depths.names.symm.subset (List.mem_range.mpr inside)
  obtain ⟨leaf, member, rfl⟩ := List.mem_map.mp isName
  exact ⟨leaf, member, depths.getD member⟩

/-- A byte holds the depths of a low tree. -/
theorem Depths.perm (depths : Depths scaled tree maxLen leafLen) (low : tree.height < 2 ^ 8) :
    ((List.range (usedSymbols scaled).length).map (leafLen.getD · 0)).Perm
      ((tree.depths 0).map Prod.snd) := by
  apply (depths.names.symm.map _).trans
  apply List.Perm.of_eq
  rw [List.map_map]
  apply List.map_congr_left
  intro leaf member
  have bound := (CodeTree.depth_le member).2
  rw [Function.comp_apply, depths.getD member, Nat.mod_eq_of_lt (by omega)]

theorem Depths.positive (depths : Depths scaled tree maxLen leafLen) (low : tree.height < 2 ^ 8)
    (two : 2 ≤ (usedSymbols scaled).length) {k : Nat} (inside : k < (usedSymbols scaled).length) :
    leafLen.getD k 0 ≠ 0 := by
  obtain ⟨leaf, member, same⟩ := depths.leaf inside
  have deep := one_le_depth (depths.two_le two) member
  have bound := (CodeTree.depth_le member).2
  rw [same, Nat.mod_eq_of_lt (by omega)]
  omega

theorem sum_filter_ne_zero (xs : List Nat) : (xs.filter (· ≠ 0)).sum = xs.sum := by
  induction xs with
  | nil => rfl
  | cons x xs induction =>
      rw [List.filter_cons, List.sum_cons]
      split
      · rw [List.sum_cons, induction]
      · rename_i isZero
        have zero : x = 0 := by simpa using isZero
        rw [induction, zero, Nat.zero_add]

/-- Without wrapping the frequencies in the nodes are weights. -/
theorem Depths.exact (depths : Depths scaled tree maxLen leafLen) (small : scaled.sum < 2 ^ 32) :
    MergesTo CodeTree.weight (leafForest scaled) tree := by
  have isWeight := weight_leafForest scaled
  rw [sum_filter_ne_zero] at isWeight
  have notHeavier : weight (leafForest scaled) ≤ 2 ^ 32 - 1 := by omega
  exact depths.mergesTo.congr notHeavier fun tree light => rootFreq_eq (by omega)

theorem freq_of_mem_leafForest {other : CodeTree Nat} (member : other ∈ leafForest scaled) :
    ∃ freq name, other = .leaf freq name ∧ freq ∈ scaled ∧ freq ≠ 0 := by
  obtain ⟨entry, isEntry, rfl⟩ := List.mem_map.mp member
  have isFreq := (List.mem_zipIdx' isEntry).2
  have isUsed : entry.1 ∈ scaled.filter (· ≠ 0) := isFreq ▸ List.getElem_mem _
  obtain ⟨isMember, notZero⟩ := List.mem_filter.mp isUsed
  exact ⟨entry.1, entry.2, rfl, isMember, of_decide_eq_true notZero⟩

/-- A tree is low if its frequencies do not wrap. -/
theorem Depths.low (depths : Depths scaled tree maxLen leafLen) (small : scaled.sum < 2 ^ 32) :
    tree.height < 2 ^ 8 := by
  have mergesTo := depths.exact small
  have isWeight := mergesTo.weight
  rw [weight_leafForest, sum_filter_ne_zero] at isWeight
  have heavy := mergesTo.two_pow_le (grownForest_leaves fun entry member => by
    obtain ⟨freq, name, same, -, notZero⟩ := freq_of_mem_leafForest
      (List.mem_map_of_mem (f := fun entry => CodeTree.leaf entry.1 entry.2) member)
    injection same with isFreq
    rw [isFreq]
    exact Nat.pos_of_ne_zero notZero)
  have less : 2 ^ (tree.height / 2) < 2 ^ 32 := by omega
  have bound := (Nat.pow_lt_pow_iff_right (by decide)).mp less
  omega

/-- A tree over frequencies of one is as low as it can be. -/
theorem Depths.lowest (depths : Depths scaled tree maxLen leafLen)
    (few : scaled.length ≤ numLiterals) (ones : ∀ freq ∈ scaled, freq ≤ 1)
    (room : (usedSymbols scaled).length ≤ 2 ^ limit) : tree.height ≤ limit := by
  have areOnes : scaled.filter (· ≠ 0) = List.replicate (usedSymbols scaled).length 1 := by
    rw [length_usedSymbols]
    apply List.eq_replicate_of_mem
    intro freq member
    obtain ⟨isMember, notZero⟩ := List.mem_filter.mp member
    have atMost := ones freq isMember
    have different : freq ≠ 0 := of_decide_eq_true notZero
    omega
  have total : (scaled.filter (· ≠ 0)).sum = (usedSymbols scaled).length := by
    rw [areOnes, List.sum_replicate_nat, Nat.mul_one]
  have atMost := List.length_filter_le (· ≠ 0) scaled
  rw [← length_usedSymbols] at atMost
  have isSum := sum_filter_ne_zero scaled
  have small : numLiterals < 2 ^ 32 := by decide
  apply (depths.exact (by omega)).height_le
  · intro other member
    obtain ⟨freq, name, rfl, isMember, notZero⟩ := freq_of_mem_leafForest member
    have atMost := ones freq isMember
    exact ⟨by rw [CodeTree.weight]; omega, rfl⟩
  · rw [weight_leafForest, total]
    exact room

end Depths

/-! ## One turn -/

/-- What one turn of the loop achieves. -/
structure Turn (scaled : List Nat) (built : Nat × List Nat) : Prop where
  size : built.2.length = scaled.length
  bounded : ∀ length ∈ built.2, length ≤ built.1
  kraft : built.1 < 2 ^ 8 → ∀ limit, built.1 ≤ limit → kraftSum limit built.2 ≤ 2 ^ limit
  complete : 2 ≤ (usedSymbols scaled).length → built.1 < 2 ^ 8 →
    (∀ limit, built.1 ≤ limit → kraftSum limit built.2 = 2 ^ limit) ∧
    ∀ symbol, built.2.getD symbol 0 ≠ 0 ↔ scaled.getD symbol 0 ≠ 0
  byte : scaled.sum < 2 ^ 32 → built.1 < 2 ^ 8
  low : (∀ freq ∈ scaled, freq ≤ 1) → ∀ limit, 1 ≤ limit →
    (usedSymbols scaled).length ≤ 2 ^ limit → built.1 ≤ limit

theorem mem_usedSymbols_iff {symbol : Nat} :
    symbol ∈ usedSymbols scaled ↔ scaled.getD symbol 0 ≠ 0 := by
  rw [mem_usedSymbols, and_iff_right_iff_imp]
  intro notZero
  by_contra outside
  exact notZero (List.getD_eq_default _ _ (Nat.le_of_not_lt outside))

theorem complete_of_tree {tree : CodeTree Nat} {maxLen : Nat} {leafLen lengths : List Nat}
    (depths : Depths scaled tree maxLen leafLen)
    (mapped : Mapped scaled leafLen (usedSymbols scaled).length lengths)
    (two : 2 ≤ (usedSymbols scaled).length) (low : tree.height < 2 ^ 8) :
    (∀ limit, tree.height ≤ limit → kraftSum limit lengths = 2 ^ limit) ∧
    ∀ symbol, lengths.getD symbol 0 ≠ 0 ↔ scaled.getD symbol 0 ≠ 0 := by
  have positive : ∀ k < (usedSymbols scaled).length, leafLen.getD k 0 ≠ 0 :=
    fun k inside => depths.positive low two inside
  constructor
  · intro limit fits
    rw [kraftSum, mapped.filter_eq positive, ((depths.perm low).map _).sum_nat, List.map_map]
    have fits' : 0 + tree.height ≤ limit := by omega
    exact tree.sum_depths fits'
  · intro symbol
    rw [mapped.used_iff positive, mem_usedSymbols_iff]

theorem turn_of_tree {tree : CodeTree Nat} {maxLen : Nat} {leafLen lengths : List Nat}
    (few : scaled.length ≤ numLiterals) (depths : Depths scaled tree maxLen leafLen)
    (mapped : Mapped scaled leafLen (usedSymbols scaled).length lengths)
    (two : 2 ≤ (usedSymbols scaled).length) : Turn scaled (maxLen, lengths) := by
  have greatest := depths.greatest
  subst greatest
  constructor
  · exact mapped.size
  · intro length member
    dsimp only
    rcases mapped.cases member with rfl | ⟨k, inside, rfl⟩
    · exact Nat.zero_le _
    · obtain ⟨leaf, isLeaf, same⟩ := depths.leaf inside
      have bound := (CodeTree.depth_le isLeaf).2
      have atMost := Nat.mod_le leaf.2 (2 ^ 8)
      omega
  · intro low limit fits
    exact Nat.le_of_eq ((complete_of_tree depths mapped two low).1 limit fits)
  · exact fun _ low => complete_of_tree depths mapped two low
  · exact depths.low
  · exact fun ones limit _ room => depths.lowest few ones room

/-- The lengths of unused symbols do not count. -/
theorem Mapped.kraftSum_le {leafLen lengths : List Nat} (limit : Nat)
    (mapped : Mapped scaled leafLen (usedSymbols scaled).length lengths) :
    kraftSum limit lengths ≤ (usedSymbols scaled).length * 2 ^ limit := by
  have fewer : ((List.range lengths.length).filter
      ((fun x => decide (x ≠ 0)) ∘ (lengths.getD · 0))).length ≤ (usedSymbols scaled).length := by
    rw [usedSymbols, mapped.size]
    apply List.Sublist.length_le
    apply List.monotone_filter_right
    intro symbol notZero
    rw [Function.comp_apply, decide_eq_true_eq] at notZero
    rw [decide_eq_true_eq, ← mem_usedSymbols_iff]
    by_contra isUnused
    exact notZero (mapped.getD_unused isUnused)
  have each : ∀ xs : List Nat, (xs.map fun x => 2 ^ (limit - x)).sum ≤ xs.length * 2 ^ limit := by
    intro xs
    induction xs with
    | nil => exact Nat.zero_le _
    | cons x xs induction =>
        have atMost := Nat.pow_le_pow_right Nat.two_pos (Nat.sub_le limit x)
        rw [List.map_cons, List.sum_cons, List.length_cons, Nat.succ_mul]
        omega
  conv_lhs => rw [← map_range_getD lengths]
  rw [kraftSum, List.filter_map]
  apply Nat.le_trans (each _)
  rw [List.length_map]
  exact Nat.mul_le_mul_right _ fewer

theorem turn_of_few {leafLen lengths : List Nat} {maxLen : Nat} (one : maxLen ≤ 1)
    (few : (usedSymbols scaled).length ≤ 1) (bounded : ∀ length ∈ leafLen, length ≤ maxLen)
    (mapped : Mapped scaled leafLen (usedSymbols scaled).length lengths) :
    Turn scaled (maxLen, lengths) := by
  constructor
  · exact mapped.size
  · intro length member
    rcases mapped.cases member with rfl | ⟨k, inside, rfl⟩
    · exact Nat.zero_le _
    · by_cases isLeaf : k < leafLen.length
      · rw [List.getD_eq_getElem _ _ isLeaf]
        exact bounded _ (List.getElem_mem isLeaf)
      · rw [List.getD_eq_default _ _ (Nat.le_of_not_lt isLeaf)]
        exact Nat.zero_le _
  · intro _ limit _
    have atMost := Nat.mul_le_mul_right (2 ^ limit) few
    rw [Nat.one_mul] at atMost
    exact Nat.le_trans (mapped.kraftSum_le limit) atMost
  · intro two
    omega
  · intro _
    dsimp only
    omega
  · intro _ limit positive _
    exact Nat.le_trans one positive

/-- If at most one symbol is used, no tree is built. -/
theorem buildOnce_few (few : scaled.length ≤ numLiterals) (one : (usedSymbols scaled).length ≤ 1) :
    buildOnce scaled = .ok ((usedSymbols scaled).length,
      if (usedSymbols scaled).length = 0 then List.replicate scaled.length 0
      else (List.replicate scaled.length 0).set (scaled.findIdx (· ≠ 0)) 1) := by
  rw [length_usedSymbols] at one ⊢
  rcases Nat.le_one_iff_eq_zero_or_eq_one.mp one with isNone | isOne
  · rw [buildOnce_none few isNone, if_pos isNone, isNone]
  · rw [buildOnce_one few isOne, if_neg (by omega), isOne]

theorem buildTurn_turn (few : scaled.length ≤ numLiterals) :
    Checked.Returns (Turn scaled) (buildTurn scaled) := by
  apply buildTurn_returns
  by_cases one : (usedSymbols scaled).length ≤ 1
  · rw [buildOnce_few few one]
    apply Checked.Returns.ok
    constructor
    · dsimp only
      split
      · exact List.length_replicate
      · rw [List.length_set, List.length_replicate]
    · intro lengths mapped
      refine turn_of_few one one (fun length member => ?_) mapped
      dsimp only at member
      split at member
      · rw [List.eq_of_mem_replicate member]
        exact Nat.zero_le _
      · rcases List.mem_or_eq_of_mem_set member with old | rfl
        · rw [List.eq_of_mem_replicate old]
          exact Nat.zero_le _
        · exact Nat.one_le_iff_ne_zero.mpr ‹_›
  · have two : 2 ≤ (scaled.filter (· ≠ 0)).length := by
      rw [← length_usedSymbols]
      omega
    apply (buildOnce_tree few two).mono
    rintro ⟨maxLen, leafLen⟩ ⟨tree, depths⟩
    exact ⟨depths.size, fun lengths mapped => turn_of_tree few depths mapped (by omega)⟩

/-! ## Halving -/

theorem rescale_le {freq bound : Nat} (small : freq ≤ 2 * bound) : rescale freq ≤ bound := by
  rw [rescale]
  split
  · have atMost := Nat.mod_le (freq + 1) (2 ^ 32)
    omega
  · omega

theorem rescale_zero : rescale 0 = 0 := rfl

theorem rescale_eq {freq : Nat} (small : freq + 1 < 2 ^ 32) : rescale freq = (freq + 1) / 2 := by
  rw [rescale]
  split
  · rw [Nat.mod_eq_of_lt small]
  · rename_i isZero
    rw [not_not.mp isZero]

theorem getD_map_rescale (scaled : List Nat) (symbol : Nat) :
    (scaled.map rescale).getD symbol 0 = rescale (scaled.getD symbol 0) := by
  rw [List.getD_eq_getElem?_getD, List.getD_eq_getElem?_getD, List.getElem?_map]
  cases scaled[symbol]? with
  | none => rfl
  | some freq => rfl

theorem usedSymbols_rescale_sublist (scaled : List Nat) :
    List.Sublist (usedSymbols (scaled.map rescale)) (usedSymbols scaled) := by
  rw [usedSymbols, usedSymbols, List.length_map]
  apply List.monotone_filter_right
  intro symbol notZero
  rw [getD_map_rescale, decide_eq_true_eq] at notZero
  rw [decide_eq_true_eq]
  intro isZero
  rw [isZero] at notZero
  exact notZero rescale_zero

theorem length_used_rescale (scaled : List Nat) :
    (usedSymbols (scaled.map rescale)).length ≤ (usedSymbols scaled).length :=
  (usedSymbols_rescale_sublist scaled).length_le

theorem length_filter_le_sum (xs : List Nat) : (xs.filter (· ≠ 0)).length ≤ xs.sum := by
  induction xs with
  | nil => exact Nat.zero_le _
  | cons x xs induction =>
      rw [List.filter_cons, List.sum_cons]
      split
      · rename_i notZero
        have positive : x ≠ 0 := of_decide_eq_true notZero
        rw [List.length_cons]
        omega
      · omega

/-- Two used symbols leave room in the total for one more. -/
theorem lt_sum_of_two {freq : Nat} (two : 2 ≤ (usedSymbols scaled).length)
    (member : freq ∈ scaled) : freq < scaled.sum := by
  obtain ⟨before, after, rfl⟩ := List.append_of_mem member
  rw [length_usedSymbols, List.filter_append, List.filter_cons, List.length_append] at two
  rw [List.sum_append, List.sum_cons]
  have inBefore := length_filter_le_sum before
  have inAfter := length_filter_le_sum after
  split at two
  · rw [List.length_cons] at two
    omega
  · omega

section Unwrapped

variable (two : 2 ≤ (usedSymbols scaled).length) (small : scaled.sum < 2 ^ 32)
include two small

theorem rescale_of_small (symbol : Nat) :
    (scaled.map rescale).getD symbol 0 = (scaled.getD symbol 0 + 1) / 2 := by
  rw [getD_map_rescale]
  apply rescale_eq
  by_cases inside : symbol < scaled.length
  · rw [List.getD_eq_getElem _ _ inside]
    have less := lt_sum_of_two two (List.getElem_mem inside)
    omega
  · rw [List.getD_eq_default _ _ (Nat.le_of_not_lt inside)]
    decide

theorem rescale_iff (symbol : Nat) :
    (scaled.map rescale).getD symbol 0 ≠ 0 ↔ scaled.getD symbol 0 ≠ 0 := by
  rw [rescale_of_small two small]
  omega

theorem usedSymbols_rescale : usedSymbols (scaled.map rescale) = usedSymbols scaled := by
  rw [usedSymbols, usedSymbols, List.length_map]
  apply List.filter_congr
  intro symbol _
  rw [decide_eq_decide]
  exact rescale_iff two small symbol

end Unwrapped

theorem sum_rescale_le (scaled : List Nat) : (scaled.map rescale).sum ≤ scaled.sum := by
  induction scaled with
  | nil => exact Nat.le_refl _
  | cons freq scaled induction =>
      have atMost : rescale freq ≤ freq := rescale_le (by omega)
      rw [List.map_cons, List.sum_cons, List.sum_cons]
      omega

/-! ## The loop -/

/-- The lengths within the limit. Those of two symbols or more make a complete code. -/
structure Coded (limit : Nat) (freqs lengths : List Nat) : Prop where
  size : lengths.length = freqs.length
  bounded : ∀ length ∈ lengths, length ≤ limit
  kraft : limit < 2 ^ 8 → ∀ longer, limit ≤ longer → kraftSum longer lengths ≤ 2 ^ longer
  complete : 2 ≤ (usedSymbols freqs).length → freqs.sum < 2 ^ 32 →
    (∀ longer, limit ≤ longer → kraftSum longer lengths = 2 ^ longer) ∧
    ∀ symbol, lengths.getD symbol 0 ≠ 0 ↔ freqs.getD symbol 0 ≠ 0

theorem Turn.coded {maxLen : Nat} {lengths : List Nat} (turn : Turn scaled (maxLen, lengths))
    (low : maxLen ≤ limit) : Coded limit scaled lengths := by
  constructor
  · exact turn.size
  · exact fun length member => Nat.le_trans (turn.bounded length member) low
  · exact fun small longer fits =>
      turn.kraft (Nat.lt_of_le_of_lt low small) longer (Nat.le_trans low fits)
  · intro two small
    obtain ⟨complete, areUsed⟩ := turn.complete two (turn.byte small)
    exact ⟨fun longer fits => complete longer (Nat.le_trans low fits), areUsed⟩

/-- Frequencies up to a power of two are all one after so many turns. -/
theorem huffBuildLengths_returns {turns : Nat} (few : scaled.length ≤ numLiterals)
    (positive : 1 ≤ limit) (room : (usedSymbols scaled).length ≤ 2 ^ limit)
    (small : ∀ freq ∈ scaled, freq ≤ 2 ^ turns) :
    Checked.Returns (Coded limit scaled) (huffBuildLengths limit (turns + 1) scaled) := by
  induction turns generalizing scaled with
  | zero =>
      rw [huffBuildLengths]
      apply (buildTurn_turn few).bind
      rintro ⟨maxLen, lengths⟩ turn
      have low := turn.low small limit positive room
      dsimp only at low ⊢
      rw [if_pos low]
      exact Checked.Returns.ok (turn.coded low)
  | succ turns induction =>
      rw [huffBuildLengths]
      apply (buildTurn_turn few).bind
      rintro ⟨maxLen, lengths⟩ turn
      dsimp only
      split
      · rename_i low
        exact Checked.Returns.ok (turn.coded low)
      · have halved : ∀ freq ∈ scaled.map rescale, freq ≤ 2 ^ turns := by
          intro freq member
          obtain ⟨old, isOld, rfl⟩ := List.mem_map.mp member
          apply rescale_le
          rw [Nat.mul_comm, ← Nat.pow_succ]
          exact small old isOld
        apply (induction (by rw [List.length_map]; exact few)
          (Nat.le_trans (length_used_rescale scaled) room) halved).mono
        intro lengths' coded
        refine ⟨by rw [coded.size, List.length_map], coded.bounded, coded.kraft, fun two light => ?_⟩
        obtain ⟨complete, areUsed⟩ := coded.complete
          (by rw [usedSymbols_rescale two light]; exact two)
          (Nat.lt_of_le_of_lt (sum_rescale_le scaled) light)
        refine ⟨complete, fun symbol => ?_⟩
        rw [areUsed, rescale_iff two light]

theorem huffBuildLengths_coded (few : freqs.length ≤ numLiterals) (positive : 1 ≤ limit)
    (room : freqs.length ≤ 2 ^ limit) (small : ∀ freq ∈ freqs, freq < 2 ^ 32) :
    Checked.Returns (Coded limit freqs) (huffBuildLengths limit buildTurns freqs) := by
  apply huffBuildLengths_returns few positive
  · rw [length_usedSymbols]
    exact Nat.le_trans (List.length_filter_le _ _) room
  · exact fun freq member => Nat.le_of_lt (small freq member)

/-- The construction ends, with no length over the limit, and the lengths leave no word
unused. -/
theorem huffman_lengths_are_complete (limit : Nat) (freqs : List Nat)
    (few : freqs.length ≤ numLiterals) (small : freqs.sum < 2 ^ 32)
    (two : 2 ≤ freqs.countP (· ≠ 0)) (room : freqs.countP (· ≠ 0) ≤ 2 ^ limit) :
    ∃ turns lengths, huffBuildLengths limit turns freqs = .ok lengths ∧
      lengths.length = freqs.length ∧ (∀ length ∈ lengths, length ≤ limit) ∧
      kraftSum limit lengths = 2 ^ limit := by
  rw [List.countP_eq_length_filter, ← length_usedSymbols] at two room
  have positive : 1 ≤ limit := by
    by_contra isZero
    rw [Nat.lt_one_iff.mp (Nat.lt_of_not_le isZero)] at room
    omega
  obtain ⟨lengths, built, coded⟩ := huffBuildLengths_returns few positive room
    (fun freq member => Nat.le_of_lt (Nat.lt_trans (lt_sum_of_two two member) small))
  exact ⟨_, lengths, built, coded.size, coded.bounded,
    (coded.complete two small).1 limit (Nat.le_refl _)⟩

theorem huffman_lengths_are_complete_skewed : ∃ turns lengths,
    huffBuildLengths 3 turns [1, 1, 2, 3, 5, 8, 13, 0] = .ok lengths ∧ kraftSum 3 lengths = 2 ^ 3 := by
  obtain ⟨turns, lengths, built, -, -, complete⟩ :=
    huffman_lengths_are_complete 3 [1, 1, 2, 3, 5, 8, 13, 0] (by decide) (by decide) (by decide)
      (by decide)
  exact ⟨turns, lengths, built, complete⟩

/-! ## A single symbol -/

/-- The length of the only symbol is found under the number zero only if it is there. -/
theorem onlyLength_iff (notEmpty : 0 < scaled.length) :
    ((List.replicate scaled.length 0).set (scaled.findIdx (· ≠ 0)) 1).getD 0 0 ≠ 0 ↔
      scaled.getD 0 0 ≠ 0 := by
  cases scaled with
  | nil => exact absurd notEmpty (Nat.lt_irrefl 0)
  | cons freq scaled =>
      rw [List.findIdx_cons, List.length_cons, List.replicate_succ, List.getD_cons_zero]
      by_cases isZero : freq = 0
      · simp [isZero]
      · simp [isZero]

theorem buildTurn_one (few : scaled.length ≤ numLiterals) (one : (usedSymbols scaled).length = 1) :
    Checked.Returns (fun built => built.1 = 1 ∧ built.2.length = scaled.length ∧
      ((∀ symbol, built.2.getD symbol 0 ≠ 0 ↔ scaled.getD symbol 0 ≠ 0) ↔ scaled.getD 0 0 ≠ 0))
      (buildTurn scaled) := by
  obtain ⟨symbol, isUsed⟩ := List.length_eq_one_iff.mp one
  have isMember : symbol ∈ usedSymbols scaled := by
    rw [isUsed]
    exact List.mem_singleton_self _
  have notEmpty := Nat.zero_lt_of_lt (mem_usedSymbols.mp isMember).1
  apply buildTurn_returns
  rw [buildOnce_few few (Nat.le_of_eq one), if_neg (by omega)]
  apply Checked.Returns.ok
  refine ⟨by rw [List.length_set, List.length_replicate], fun lengths mapped => ⟨one, mapped.size, ?_⟩⟩
  dsimp only at mapped ⊢
  rw [← onlyLength_iff notEmpty]
  constructor
  · intro areUsed isZero
    have found := mapped.getD (by omega : 0 < (usedSymbols scaled).length)
    rw [isUsed, List.getD_cons_zero, isZero] at found
    exact (areUsed symbol).mpr (mem_usedSymbols.mp isMember).2 found
  · intro isLength other
    rw [mapped.used_iff, mem_usedSymbols_iff]
    intro k inside
    obtain rfl : k = 0 := by omega
    exact isLength

theorem buildTurn_none (few : scaled.length ≤ numLiterals) (none : (usedSymbols scaled).length = 0) :
    Checked.Returns (fun built => built.1 = 0 ∧ built.2.length = scaled.length ∧
      ∀ symbol, built.2.getD symbol 0 = 0 ∧ scaled.getD symbol 0 = 0) (buildTurn scaled) := by
  apply buildTurn_returns
  rw [buildOnce_few few (by omega), if_pos none]
  apply Checked.Returns.ok
  refine ⟨List.length_replicate, fun lengths mapped => ⟨none, mapped.size, fun symbol => ?_⟩⟩
  have isUnused : symbol ∉ usedSymbols scaled := by
    rw [List.eq_nil_of_length_eq_zero none]
    exact List.not_mem_nil
  refine ⟨mapped.getD_unused isUnused, ?_⟩
  rw [mem_usedSymbols_iff, not_not] at isUnused
  exact isUnused

/-- No code of length zero: a single symbol never gets one within the limit zero. -/
theorem huffBuildLengths_zero (turns : Nat) (few : scaled.length ≤ numLiterals)
    (one : (usedSymbols scaled).length ≤ 1) {lengths : List Nat}
    (built : huffBuildLengths 0 turns scaled = .ok lengths) (symbol : Nat) :
    lengths.getD symbol 0 = 0 := by
  induction turns generalizing scaled with
  | zero => cases built
  | succ turns induction =>
      rw [huffBuildLengths] at built
      rcases Nat.le_one_iff_eq_zero_or_eq_one.mp one with isNone | isOne
      · obtain ⟨⟨maxLen, lengths'⟩, returned, isZero, -, areZero⟩ := buildTurn_none few isNone
        dsimp only at isZero areZero
        rw [returned] at built
        dsimp only [bind, Except.bind] at built
        rw [if_pos (by omega)] at built
        obtain rfl := Except.ok.inj built
        exact (areZero symbol).1
      · obtain ⟨⟨maxLen, lengths'⟩, returned, isOne', -⟩ := buildTurn_one few isOne
        dsimp only at isOne'
        rw [returned] at built
        dsimp only [bind, Except.bind] at built
        rw [if_neg (by omega)] at built
        exact induction (by rw [List.length_map]; exact few)
          (Nat.le_trans (length_used_rescale scaled) one) built

/-- Exactly the used symbols get a code, unless a single one is used that is not the
first symbol. -/
theorem used_symbols_get_codes (limit : Nat) (freqs : List Nat)
    (few : freqs.length ≤ numLiterals) (small : freqs.sum < 2 ^ 32)
    (room : freqs.countP (· ≠ 0) ≤ 2 ^ limit) :
    (∃ turns lengths, huffBuildLengths limit turns freqs = .ok lengths ∧
      lengths.length = freqs.length ∧
      ∀ symbol, lengths.getD symbol 0 ≠ 0 ↔ freqs.getD symbol 0 ≠ 0) ↔
    freqs.countP (· ≠ 0) ≠ 1 ∨ freqs.getD 0 0 ≠ 0 ∧ 1 ≤ limit := by
  rw [List.countP_eq_length_filter, ← length_usedSymbols] at room ⊢
  rcases Nat.lt_trichotomy (usedSymbols freqs).length 1 with less | one | more
  · have isNone : (usedSymbols freqs).length = 0 := by omega
    refine iff_of_true ?_ (.inl (by omega))
    obtain ⟨⟨maxLen, lengths⟩, returned, isZero, size, areZero⟩ := buildTurn_none few isNone
    dsimp only at isZero size areZero
    refine ⟨1, lengths, ?_, size, fun symbol => ?_⟩
    · rw [huffBuildLengths, returned]
      dsimp only [bind, Except.bind]
      rw [if_pos (by omega)]
      rfl
    · obtain ⟨noLength, noFreq⟩ := areZero symbol
      rw [noLength, noFreq]
  · obtain ⟨⟨maxLen, lengths⟩, returned, isOne, size, iff⟩ := buildTurn_one few one
    dsimp only at isOne size iff
    have first : ∀ turns, 1 ≤ limit → huffBuildLengths limit (turns + 1) freqs = .ok lengths := by
      intro turns positive
      rw [huffBuildLengths, returned]
      dsimp only [bind, Except.bind]
      rw [if_pos (by omega)]
      rfl
    constructor
    · rintro ⟨turns, lengths', built, -, areUsed⟩
      right
      rcases Nat.eq_zero_or_pos limit with rfl | positive
      · obtain ⟨symbol, isUsed⟩ := List.length_eq_one_iff.mp one
        have isMember : symbol ∈ usedSymbols freqs := by
          rw [isUsed]
          exact List.mem_singleton_self _
        have isZero := huffBuildLengths_zero turns few (Nat.le_of_eq one) built symbol
        exact absurd isZero ((areUsed symbol).mpr (mem_usedSymbols_iff.mp isMember))
      · cases turns with
        | zero => cases built
        | succ turns =>
            rw [first turns positive] at built
            obtain rfl := Except.ok.inj built
            exact ⟨iff.mp areUsed, positive⟩
    · rintro (notOne | ⟨isFirst, positive⟩)
      · exact absurd one notOne
      · exact ⟨1, lengths, first 0 positive, size, iff.mpr isFirst⟩
  · refine iff_of_true ?_ (.inl (by omega))
    have positive : 1 ≤ limit := by
      by_contra isZero
      rw [Nat.lt_one_iff.mp (Nat.lt_of_not_le isZero)] at room
      omega
    obtain ⟨lengths, built, coded⟩ := huffBuildLengths_returns few positive room
      (fun freq member => Nat.le_of_lt (Nat.lt_trans (lt_sum_of_two more member) small))
    exact ⟨_, lengths, built, coded.size, (coded.complete more small).2⟩

theorem used_symbols_get_codes_pair : ∃ turns lengths,
    huffBuildLengths 15 turns [0, 5, 0, 8] = .ok lengths ∧ lengths.length = 4 ∧
    ∀ symbol, lengths.getD symbol 0 ≠ 0 ↔ [0, 5, 0, 8].getD symbol 0 ≠ 0 :=
  (used_symbols_get_codes 15 [0, 5, 0, 8] (by decide) (by decide) (by decide)).mpr
    (.inl (by decide))

/-- The only symbol that is used gets no code. -/
theorem only_symbol_gets_no_code : ¬ ∃ turns lengths,
    huffBuildLengths 15 turns [0, 5] = .ok lengths ∧ lengths.length = 2 ∧
    ∀ symbol, lengths.getD symbol 0 ≠ 0 ↔ [0, 5].getD symbol 0 ≠ 0 := by
  rintro ⟨turns, lengths, built, -, areUsed⟩
  cases turns with
  | zero => cases built
  | succ turns =>
      have isResult : huffBuildLengths 15 (turns + 1) [0, 5] = .ok [0, 0] := rfl
      rw [isResult] at built
      obtain rfl := Except.ok.inj built
      exact (areUsed 1).mpr (by decide) rfl

end FoundationsLab.Deflate
