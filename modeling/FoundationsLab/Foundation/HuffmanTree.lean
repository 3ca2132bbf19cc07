import Mathlib.Algebra.Group.Nat.Defs
import Mathlib.Algebra.GroupWithZero.Nat
import Mathlib.Data.List.Basic
import Mathlib.Tactic.Common

/-! # Huffman trees

A Huffman tree grows in a forest: the two trees of the least cost become one, until a
single tree is left. What is proved here holds however ties are broken. -/

namespace FoundationsLab.Foundation.HuffmanTree

inductive CodeTree (α : Type) where
  | leaf (weight : Nat) (name : α)
  | node (left right : CodeTree α)

namespace CodeTree

variable {α : Type}

def weight : CodeTree α → Nat
  | leaf weight _ => weight
  | node left right => left.weight + right.weight

def height : CodeTree α → Nat
  | leaf _ _ => 0
  | node left right => max left.height right.height + 1

def names : CodeTree α → List α
  | leaf _ name => [name]
  | node left right => left.names ++ right.names

/-- How many nodes the tree has, the leaves among them. -/
def size : CodeTree α → Nat
  | leaf _ _ => 1
  | node left right => left.size + right.size + 1

/-- The leaves and their depths, the right ones first, in a tree at this depth. -/
def depths : (depth : Nat) → CodeTree α → List (α × Nat)
  | depth, leaf _ name => [(name, depth)]
  | depth, node left right => right.depths (depth + 1) ++ left.depths (depth + 1)

def children : CodeTree α → List (CodeTree α)
  | leaf _ _ => []
  | node left right => [left, right]

theorem names_ne_nil (tree : CodeTree α) : tree.names ≠ [] := by
  induction tree with
  | leaf weight name => exact List.cons_ne_nil _ _
  | node left right induction _ => exact List.append_ne_nil_of_left_ne_nil induction _

theorem one_le_length_names (tree : CodeTree α) : 1 ≤ tree.names.length :=
  List.length_pos_of_ne_nil tree.names_ne_nil

theorem size_eq (tree : CodeTree α) : tree.size + 1 = 2 * tree.names.length := by
  induction tree with
  | leaf weight name => rfl
  | node left right left' right' =>
      rw [size, names, List.length_append]
      omega

theorem names_depths (depth : Nat) (tree : CodeTree α) :
    ((tree.depths depth).map Prod.fst).Perm tree.names := by
  induction tree generalizing depth with
  | leaf weight name => exact .refl _
  | node left right left' right' =>
      rw [depths, names, List.map_append]
      exact List.perm_append_comm.trans ((left' (depth + 1)).append (right' (depth + 1)))

theorem depth_le {depth : Nat} {tree : CodeTree α} {entry : α × Nat}
    (member : entry ∈ tree.depths depth) : depth ≤ entry.2 ∧ entry.2 ≤ depth + tree.height := by
  induction tree generalizing depth with
  | leaf weight name =>
      rw [depths, List.mem_singleton] at member
      subst member
      exact ⟨Nat.le_refl _, Nat.le_refl _⟩
  | node left right left' right' =>
      rw [depths, List.mem_append] at member
      rw [height]
      rcases member with inRight | inLeft
      · have bounds := right' inRight
        omega
      · have bounds := left' inLeft
        omega

/-- A leaf is as deep as the tree is high. -/
theorem height_mem_depths (depth : Nat) (tree : CodeTree α) :
    ∃ name, (name, depth + tree.height) ∈ tree.depths depth := by
  induction tree generalizing depth with
  | leaf weight name => exact ⟨name, List.mem_singleton_self _⟩
  | node left right left' right' =>
      rw [height, depths]
      rcases Nat.le_total left.height right.height with leftLow | rightLow
      · obtain ⟨name, member⟩ := right' (depth + 1)
        refine ⟨name, List.mem_append_left _ ?_⟩
        rwa [Nat.max_eq_right leftLow, Nat.add_comm right.height, ← Nat.add_assoc]
      · obtain ⟨name, member⟩ := left' (depth + 1)
        refine ⟨name, List.mem_append_right _ ?_⟩
        rwa [Nat.max_eq_left rightLow, Nat.add_comm left.height, ← Nat.add_assoc]

/-- The leaves of a tree share all words: Kraft's inequality is an equality. -/
theorem sum_depths {depth limit : Nat} (tree : CodeTree α) (fits : depth + tree.height ≤ limit) :
    ((tree.depths depth).map fun entry => 2 ^ (limit - entry.2)).sum = 2 ^ (limit - depth) := by
  induction tree generalizing depth with
  | leaf weight name => simp [depths]
  | node left right left' right' =>
      rw [height] at fits
      rw [depths, List.map_append, List.sum_append, left' (by omega), right' (by omega)]
      have halves : limit - depth = limit - (depth + 1) + 1 := by omega
      rw [halves, Nat.pow_succ]
      omega

end CodeTree

/-! ## Forests -/

variable {α : Type} {cost cost' : CodeTree α → Nat} {forest forest' : List (CodeTree α)} {tree : CodeTree α}

def names (forest : List (CodeTree α)) : List α := forest.flatMap CodeTree.names

def weight (forest : List (CodeTree α)) : Nat := (forest.map CodeTree.weight).sum

/-- Two trees of the least cost become one. -/
def Merges (cost : CodeTree α → Nat) (forest forest' : List (CodeTree α)) : Prop :=
  ∃ first second rest, forest.Perm (first :: second :: rest) ∧
    (∀ other ∈ second :: rest, cost first ≤ cost other) ∧
    (∀ other ∈ rest, cost second ≤ cost other) ∧
    forest'.Perm (.node first second :: rest)

inductive MergesTo (cost : CodeTree α → Nat) : List (CodeTree α) → CodeTree α → Prop
  | done (tree : CodeTree α) : MergesTo cost [tree] tree
  | step {forest forest' : List (CodeTree α)} {tree : CodeTree α} (merges : Merges cost forest forest')
      (rest : MergesTo cost forest' tree) : MergesTo cost forest tree

/-- What every merge preserves holds of the tree that is left. -/
theorem MergesTo.preserves (inv : List (CodeTree α) → Prop) (mergesTo : MergesTo cost forest tree)
    (first : inv forest)
    (step : ∀ forest forest', Merges cost forest forest' → inv forest → inv forest') :
    inv [tree] := by
  induction mergesTo with
  | done tree => exact first
  | step merges rest induction => exact induction (step _ _ merges first)

theorem Merges.names (merges : Merges cost forest forest') : (names forest').Perm (names forest) := by
  obtain ⟨first, second, rest, before, -, -, after⟩ := merges
  have same : HuffmanTree.names (.node first second :: rest) =
      HuffmanTree.names (first :: second :: rest) := by
    rw [HuffmanTree.names, HuffmanTree.names, List.flatMap_cons, List.flatMap_cons,
      List.flatMap_cons, CodeTree.names, List.append_assoc]
  exact (after.flatMap_right _).trans ((List.Perm.of_eq same).trans (before.flatMap_right _).symm)

theorem Merges.weight (merges : Merges cost forest forest') : weight forest' = weight forest := by
  obtain ⟨first, second, rest, before, -, -, after⟩ := merges
  rw [HuffmanTree.weight, HuffmanTree.weight, (after.map _).sum_nat, (before.map _).sum_nat,
    List.map_cons, List.map_cons, List.map_cons, List.sum_cons, List.sum_cons, List.sum_cons,
    CodeTree.weight, Nat.add_assoc]

theorem MergesTo.names (mergesTo : MergesTo cost forest tree) : tree.names.Perm (names forest) := by
  have kept := mergesTo.preserves (fun forest' => (HuffmanTree.names forest').Perm
    (HuffmanTree.names forest)) (.refl _) fun _ _ merges before => merges.names.trans before
  rwa [HuffmanTree.names, List.flatMap_cons, List.flatMap_nil, List.append_nil] at kept

theorem MergesTo.weight (mergesTo : MergesTo cost forest tree) :
    tree.weight = weight forest := by
  have kept := mergesTo.preserves (fun forest' => HuffmanTree.weight forest' =
    HuffmanTree.weight forest) rfl fun _ _ merges before => merges.weight.trans before
  rwa [HuffmanTree.weight, List.map_cons, List.map_nil, List.sum_cons, List.sum_nil,
    Nat.add_zero] at kept

theorem weight_le_of_mem (member : tree ∈ forest) : tree.weight ≤ weight forest := by
  obtain ⟨before, after, rfl⟩ := List.append_of_mem member
  rw [weight, List.map_append, List.map_cons, List.sum_append, List.sum_cons]
  omega

/-- Costs may differ on trees that are heavier than the forest. -/
theorem MergesTo.congr {limit : Nat} (mergesTo : MergesTo cost forest tree)
    (small : HuffmanTree.weight forest ≤ limit)
    (same : ∀ tree : CodeTree α, tree.weight ≤ limit → cost tree = cost' tree) :
    MergesTo cost' forest tree := by
  induction mergesTo with
  | done tree => exact .done tree
  | step merges rest induction =>
      have kept := merges.weight
      refine .step ?_ (induction (kept ▸ small))
      obtain ⟨first, second, others, before, least, next, after⟩ := merges
      have sameCost : ∀ other ∈ first :: second :: others, cost other = cost' other := by
        intro other member
        exact same other (Nat.le_trans (weight_le_of_mem (before.symm.subset member)) small)
      refine ⟨first, second, others, before, fun other member => ?_, fun other member => ?_, after⟩
      · rw [← sameCost first List.mem_cons_self, ← sameCost other (.tail _ member)]
        exact least other member
      · rw [← sameCost second (.tail _ List.mem_cons_self),
          ← sameCost other (.tail _ (.tail _ member))]
        exact next other member

/-! ## High trees are heavy

The two trees of a merge are the lightest, so a tree's children are no heavier than its
sibling. Two levels up the weight has doubled. -/

namespace CodeTree

/-- No child is heavier than the sibling of its parent. -/
def Grown : CodeTree α → Prop
  | leaf weight _ => 0 < weight
  | node left right => left.Grown ∧ right.Grown ∧
      (∀ child ∈ left.children, child.weight ≤ right.weight) ∧
      ∀ child ∈ right.children, child.weight ≤ left.weight

theorem weight_child_le {child : CodeTree α} (member : child ∈ tree.children) :
    child.weight ≤ tree.weight := by
  cases tree with
  | leaf weight name => cases member
  | node left right =>
      rw [children, List.mem_cons, List.mem_singleton] at member
      rcases member with rfl | rfl
      · exact Nat.le_add_right _ _
      · exact Nat.le_add_left _ _

theorem exists_high_child (left right : CodeTree α) :
    ∃ child ∈ (node left right).children, (node left right).height = child.height + 1 := by
  rcases Nat.le_total left.height right.height with leftLow | rightLow
  · exact ⟨right, .tail _ List.mem_cons_self, by rw [height, Nat.max_eq_right leftLow]⟩
  · exact ⟨left, List.mem_cons_self, by rw [height, Nat.max_eq_left rightLow]⟩

/-- A tree and its sibling, which weighs at least as much as each child of the tree. -/
theorem two_pow_le_add {sibling : Nat} (heavy : 2 ^ (tree.height / 2) ≤ tree.weight)
    (childrenHeavy : ∀ child ∈ tree.children, 2 ^ (child.height / 2) ≤ child.weight)
    (light : ∀ child ∈ tree.children, child.weight ≤ sibling) :
    2 ^ ((tree.height + 1) / 2) ≤ tree.weight + sibling := by
  cases tree with
  | leaf weight name =>
      have half : (0 + 1) / 2 = 0 / 2 := rfl
      rw [height] at heavy ⊢
      rw [half]
      exact Nat.le_trans heavy (Nat.le_add_right _ _)
  | node left right =>
      obtain ⟨child, isChild, isHigh⟩ := exists_high_child left right
      have two : (child.height + 1 + 1) / 2 = child.height / 2 + 1 := by omega
      have inTree := weight_child_le isChild
      have inSibling := light child isChild
      have heavyChild := childrenHeavy child isChild
      rw [isHigh, two, Nat.pow_succ]
      omega

theorem Grown.two_pow_le (grown : tree.Grown) :
    2 ^ (tree.height / 2) ≤ tree.weight ∧
    ∀ child ∈ tree.children, 2 ^ (child.height / 2) ≤ child.weight := by
  induction tree with
  | leaf weight name =>
      have positive : 0 < weight := grown
      refine ⟨?_, fun child member => absurd member List.not_mem_nil⟩
      simpa [height, CodeTree.weight, Nat.one_le_iff_ne_zero, Nat.pos_iff_ne_zero] using positive
  | node left right left' right' =>
      obtain ⟨grownLeft, grownRight, lightLeft, lightRight⟩ := grown
      obtain ⟨heavyLeft, childrenLeft⟩ := left' grownLeft
      obtain ⟨heavyRight, childrenRight⟩ := right' grownRight
      constructor
      · rw [height, weight]
        rcases Nat.le_total left.height right.height with leftLow | rightLow
        · rw [Nat.max_eq_right leftLow, Nat.add_comm left.weight]
          exact two_pow_le_add heavyRight childrenRight lightRight
        · rw [Nat.max_eq_left rightLow]
          exact two_pow_le_add heavyLeft childrenLeft lightLeft
      · intro child member
        rw [children, List.mem_cons, List.mem_singleton] at member
        rcases member with rfl | rfl
        · exact heavyLeft
        · exact heavyRight

end CodeTree

/-- Every tree of the forest weighs at least as much as each child. -/
structure GrownForest (forest : List (CodeTree α)) : Prop where
  grown : ∀ tree ∈ forest, tree.Grown
  light : ∀ tree ∈ forest, ∀ child ∈ tree.children, ∀ other ∈ forest, child.weight ≤ other.weight

theorem Merges.grown (merges : Merges CodeTree.weight forest forest') (grown : GrownForest forest) :
    GrownForest forest' := by
  obtain ⟨first, second, rest, before, least, next, after⟩ := merges
  have old : ∀ tree ∈ first :: second :: rest, tree ∈ forest := fun tree member =>
    before.symm.subset member
  have isFirst := old first List.mem_cons_self
  have isSecond := old second (.tail _ List.mem_cons_self)
  have isOther : ∀ other ∈ rest, other ∈ forest := fun other member =>
    old other (.tail _ (.tail _ member))
  constructor
  · intro tree member
    rcases List.mem_cons.mp (after.subset member) with rfl | inRest
    · exact ⟨grown.grown first isFirst, grown.grown second isSecond,
        fun child isChild => grown.light first isFirst child isChild second isSecond,
        fun child isChild => grown.light second isSecond child isChild first isFirst⟩
    · exact grown.grown tree (isOther tree inRest)
  · intro tree member child isChild other member'
    rcases List.mem_cons.mp (after.subset member) with rfl | inRest
    · have bounds : child.weight ≤ first.weight ∨ child.weight ≤ second.weight := by
        rw [CodeTree.children, List.mem_cons, List.mem_singleton] at isChild
        rcases isChild with rfl | rfl
        · exact .inl (Nat.le_refl _)
        · exact .inr (Nat.le_refl _)
      rcases List.mem_cons.mp (after.subset member') with rfl | inRest'
      · rw [CodeTree.weight]
        omega
      · have aboveFirst := least other (.tail _ inRest')
        have aboveSecond := next other inRest'
        omega
    · have light := grown.light tree (isOther tree inRest) child isChild
      rcases List.mem_cons.mp (after.subset member') with rfl | inRest'
      · exact Nat.le_trans (light first isFirst) (Nat.le_add_right _ _)
      · exact light other (isOther other inRest')

/-- Leaves alone are grown. -/
theorem grownForest_leaves {leaves : List (Nat × α)} (positive : ∀ entry ∈ leaves, 0 < entry.1) :
    GrownForest (leaves.map fun entry => CodeTree.leaf entry.1 entry.2) := by
  constructor
  · intro tree member
    obtain ⟨entry, isEntry, rfl⟩ := List.mem_map.mp member
    exact positive entry isEntry
  · intro tree member child isChild
    obtain ⟨entry, isEntry, rfl⟩ := List.mem_map.mp member
    cases isChild

theorem MergesTo.two_pow_le (mergesTo : MergesTo CodeTree.weight forest tree)
    (grown : GrownForest forest) : 2 ^ (tree.height / 2) ≤ tree.weight := by
  have kept := mergesTo.preserves GrownForest grown fun _ _ merges => merges.grown
  exact (kept.grown tree (List.mem_singleton_self _)).two_pow_le.1

/-! ## Leaves of the same weight

The forest passes through levels: at each of them a tree weighs one of two neighbouring
powers of two, or at most one tree lies between them. -/

def Between (level : Nat) (tree : CodeTree α) : Prop :=
  2 ^ level < tree.weight ∧ tree.weight < 2 ^ (level + 1)

instance (level : Nat) (tree : CodeTree α) : Decidable (Between level tree) :=
  inferInstanceAs (Decidable (_ ∧ _))

/-- A tree that is no higher than its weight allows. -/
structure AtLevel (level : Nat) (tree : CodeTree α) : Prop where
  least : 2 ^ level ≤ tree.weight
  most : tree.weight ≤ 2 ^ (level + 1)
  low : tree.height ≤ level + 1
  lower : tree.weight = 2 ^ level → tree.height ≤ level

structure Level (level : Nat) (forest : List (CodeTree α)) : Prop where
  all : ∀ tree ∈ forest, AtLevel level tree
  between : forest.countP (Between level ·) ≤ 1

theorem Level.perm {level : Nat} (same : forest.Perm forest') (atLevel : Level level forest) :
    Level level forest' :=
  ⟨fun tree member => atLevel.all tree (same.symm.subset member),
    same.countP_eq _ ▸ atLevel.between⟩

/-- If the other trees have the upper weight and the new one exceeds it, a level is done. -/
theorem level_succ {level : Nat} {first second : CodeTree α} {rest : List (CodeTree α)}
    (isFirst : AtLevel level first) (isSecond : AtLevel level second)
    (exceeds : 2 ^ (level + 1) < first.weight + second.weight)
    (areRest : ∀ tree ∈ rest, AtLevel level tree ∧ 2 ^ (level + 1) ≤ tree.weight) :
    Level (level + 1) (.node first second :: rest) := by
  have twice : 2 ^ (level + 1 + 1) = 2 * 2 ^ (level + 1) := by rw [Nat.pow_succ, Nat.mul_comm]
  have positive := Nat.two_pow_pos (level + 1)
  constructor
  · intro tree member
    rcases List.mem_cons.mp member with rfl | inRest
    · have most := isFirst.most
      have most' := isSecond.most
      have low := isFirst.low
      have low' := isSecond.low
      constructor
      · exact Nat.le_of_lt exceeds
      · rw [CodeTree.weight]
        omega
      · rw [CodeTree.height]
        omega
      · intro same
        rw [CodeTree.weight] at same
        omega
    · obtain ⟨atLevel, heavy⟩ := areRest tree inRest
      have most := atLevel.most
      have low := atLevel.low
      exact ⟨heavy, by omega, by omega, fun _ => low⟩
  · have none : rest.countP (Between (level + 1) ·) = 0 := by
      apply List.countP_eq_zero.mpr
      intro tree member
      have most := (areRest tree member).1.most
      rw [decide_eq_true_eq, Between]
      omega
    rw [List.countP_cons, none]
    split
    · exact Nat.le_refl _
    · exact Nat.zero_le _

/-- A merge stays at its level or leads to the next one. -/
theorem Merges.level {level : Nat} (merges : Merges CodeTree.weight forest forest')
    (atLevel : Level level forest) : Level level forest' ∨ Level (level + 1) forest' := by
  obtain ⟨first, second, rest, before, least, next, after⟩ := merges
  replace atLevel := atLevel.perm before
  have isFirst := atLevel.all first List.mem_cons_self
  have isSecond := atLevel.all second (.tail _ List.mem_cons_self)
  have isOther : ∀ other ∈ rest, AtLevel level other := fun other member =>
    atLevel.all other (.tail _ (.tail _ member))
  have ordered := least second List.mem_cons_self
  have twice : 2 ^ (level + 1) = 2 * 2 ^ level := by rw [Nat.pow_succ, Nat.mul_comm]
  have few := atLevel.between
  rw [List.countP_cons, List.countP_cons] at few
  have leastFirst := isFirst.least
  have mostSecond := isSecond.most
  by_cases light : second.weight = 2 ^ level
  · -- Two of the lower weight become one of the upper weight.
    left
    apply Level.perm after.symm
    have lowFirst := isFirst.lower (by omega)
    have lowSecond := isSecond.lower light
    have notBetween : ¬ Between level (.node first second) := by
      rw [Between, CodeTree.weight]
      omega
    constructor
    · intro tree member
      rcases List.mem_cons.mp member with rfl | inRest
      · constructor
        · rw [CodeTree.weight]
          omega
        · rw [CodeTree.weight]
          omega
        · rw [CodeTree.height]
          omega
        · intro same
          rw [CodeTree.weight] at same
          have positive := Nat.two_pow_pos level
          omega
      · exact isOther tree inRest
    · rw [List.countP_cons, if_neg (by simpa using notBetween)]
      omega
  · right
    apply Level.perm after.symm
    have leastSecond := isSecond.least
    by_cases heavy : second.weight = 2 ^ (level + 1)
    · apply level_succ isFirst isSecond
      · have positive := Nat.two_pow_pos level
        omega
      · intro tree member
        exact ⟨isOther tree member, heavy ▸ next tree member⟩
    · -- The second tree is the one between, so no other one is.
      have isBetween : Between level second := ⟨by omega, by omega⟩
      rw [if_pos (decide_eq_true isBetween)] at few
      have noOther : rest.countP (Between level ·) = 0 := by omega
      have notFirst : ¬ Between level first := by
        intro isBetween'
        rw [if_pos (decide_eq_true isBetween')] at few
        omega
      rw [Between] at notFirst
      apply level_succ isFirst isSecond
      · omega
      · intro tree member
        have notBetween := List.countP_eq_zero.mp noOther tree member
        rw [decide_eq_true_eq, Between] at notBetween
        have above := next tree member
        exact ⟨isOther tree member, by omega⟩

theorem MergesTo.level {level : Nat} (mergesTo : MergesTo CodeTree.weight forest tree)
    (atLevel : Level level forest) : ∃ level, AtLevel level tree := by
  have kept := mergesTo.preserves (fun forest => ∃ level, Level level forest) ⟨level, atLevel⟩
    fun _ _ merges before => by
      obtain ⟨level, atLevel⟩ := before
      rcases merges.level atLevel with same | next
      · exact ⟨level, same⟩
      · exact ⟨level + 1, next⟩
  obtain ⟨level, atLevel⟩ := kept
  exact ⟨level, atLevel.all tree (List.mem_singleton_self _)⟩

/-- A tree at a level is no higher than a power of two above its weight. -/
theorem AtLevel.height_le {level limit : Nat} (atLevel : AtLevel level tree)
    (small : tree.weight ≤ 2 ^ limit) : tree.height ≤ limit := by
  have least := atLevel.least
  have low := atLevel.low
  by_cases same : tree.weight = 2 ^ level
  · rw [same] at small
    exact Nat.le_trans (atLevel.lower same) ((Nat.pow_le_pow_iff_right (by decide)).mp small)
  · have less : 2 ^ level < 2 ^ limit := by omega
    have bound := (Nat.pow_lt_pow_iff_right (by decide)).mp less
    omega

/-- Leaves of weight one make a tree of the least height. -/
theorem MergesTo.height_le {limit : Nat} (mergesTo : MergesTo CodeTree.weight forest tree)
    (ones : ∀ tree ∈ forest, tree.weight = 1 ∧ tree.height = 0)
    (few : HuffmanTree.weight forest ≤ 2 ^ limit) : tree.height ≤ limit := by
  have atLevel : Level 0 forest := by
    constructor
    · intro other member
      obtain ⟨isOne, isLeaf⟩ := ones other member
      exact ⟨by simp [isOne], by simp [isOne], by omega, fun _ => by omega⟩
    · rw [List.countP_eq_zero.mpr]
      · exact Nat.zero_le _
      · intro other member
        have isOne := (ones other member).1
        rw [decide_eq_true_eq, Between, isOne]
        decide
  obtain ⟨level, atLevel⟩ := mergesTo.level atLevel
  apply atLevel.height_le
  rw [mergesTo.weight]
  exact few

end FoundationsLab.Foundation.HuffmanTree
