import Mathlib.Data.List.Sort

/-! # Walks of a forest

A forest is given by the list of children that hang on each key; a walk lists every
child before what hangs on it. Where every node hangs on one key and ranks go up on
the way down, a walk meets each node once, and more children only fill gaps. -/

namespace FoundationsLab.Foundation.Forest

variable {K N : Type*}

/-- The children in turn, each with its subtree. -/
def walkAll (key : N → K) (walk : K → Option (List N)) : List N → Option (List N)
  | [] => some []
  | child :: rest => do
      let below ← walk (key child)
      let after ← walkAll key walk rest
      some (child :: below ++ after)

/-- What hangs on a key, no deeper than the bound. -/
def walk (key : N → K) (children : K → List N) : (fuel : Nat) → K → Option (List N)
  | 0, _ => none
  | fuel + 1, place => walkAll key (walk key children fuel) (children place)

/-- The node hangs on the key, directly or further down. -/
inductive Under (key : N → K) (children : K → List N) : K → N → Prop
  | child {place : K} {node : N} (member : node ∈ children place) : Under key children place node
  | deeper {place : K} {child node : N} (member : child ∈ children place)
      (under : Under key children (key child) node) : Under key children place node

/-- Every node hangs on one key only, and ranks go up on the way down. -/
structure WellFounded (key : N → K) (children : K → List N) (rank : N → Nat) : Prop where
  nodup : ∀ place, (children place).Nodup
  unique : ∀ {place place' node node'}, node ∈ children place → node' ∈ children place' →
    key node = key node' → node = node' ∧ place = place'
  ranked : ∀ {place parent child}, parent ∈ children place → child ∈ children (key parent) →
    rank parent < rank child

section Walks

variable {key : N → K} {children : K → List N}

theorem walkAll_cons {walk : K → Option (List N)} {child : N} {rest nodes : List N}
    (walked : walkAll key walk (child :: rest) = some nodes) :
    ∃ below after, walk (key child) = some below ∧ walkAll key walk rest = some after ∧
      nodes = child :: below ++ after := by
  obtain ⟨below, isBelow, walked⟩ := Option.bind_eq_some_iff.mp walked
  obtain ⟨after, isAfter, walked⟩ := Option.bind_eq_some_iff.mp walked
  exact ⟨below, after, isBelow, isAfter, (Option.some.inj walked).symm⟩

theorem mem_walkAll {walk : K → Option (List N)} {roots : List N} :
    ∀ {nodes : List N}, walkAll key walk roots = some nodes → ∀ node, node ∈ nodes ↔
      node ∈ roots ∨ ∃ root ∈ roots, ∃ below, walk (key root) = some below ∧ node ∈ below := by
  induction roots with
  | nil =>
      intro nodes walked node
      obtain rfl := Option.some.inj walked
      simp
  | cons root rest induction =>
      intro nodes walked node
      obtain ⟨below, after, isBelow, isAfter, rfl⟩ := walkAll_cons walked
      rw [List.cons_append, List.mem_cons, List.mem_append, induction isAfter node]
      simp only [List.mem_cons, exists_eq_or_imp, isBelow, Option.some.injEq, exists_eq_left']
      tauto

/-- The walk of every child returned, or the whole walk would not have. -/
theorem walkAll_returned {walk : K → Option (List N)} {roots : List N} :
    ∀ {nodes : List N}, walkAll key walk roots = some nodes → ∀ root ∈ roots,
      ∃ below, walk (key root) = some below := by
  induction roots with
  | nil =>
      intro nodes _ root member
      exact absurd member List.not_mem_nil
  | cons head tail induction =>
      intro nodes walked root member
      obtain ⟨below, after, isBelow, isAfter, -⟩ := walkAll_cons walked
      rcases List.mem_cons.mp member with rfl | isLater
      · exact ⟨below, isBelow⟩
      · exact induction isAfter root isLater

theorem Under.split {place : K} {node : N} (under : Under key children place node) :
    node ∈ children place ∨ ∃ child ∈ children place, Under key children (key child) node := by
  cases under with
  | child member => exact .inl member
  | deeper member under => exact .inr ⟨_, member, under⟩

theorem mem_walk : ∀ {fuel : Nat} {place : K} {nodes : List N},
    walk key children fuel place = some nodes →
      ∀ node, node ∈ nodes ↔ Under key children place node
  | 0, _, _, walked => nomatch walked
  | fuel + 1, place, nodes, walked => by
      intro node
      rw [mem_walkAll walked node]
      constructor
      · rintro (isChild | ⟨child, isChild, below, isBelow, member⟩)
        · exact .child isChild
        · exact .deeper isChild ((mem_walk isBelow node).mp member)
      · intro under
        rcases under.split with isChild | ⟨child, isChild, under⟩
        · exact .inl isChild
        · right
          obtain ⟨below, isBelow⟩ := walkAll_returned walked child isChild
          exact ⟨child, isChild, below, isBelow, (mem_walk isBelow node).mpr under⟩

/-- The last edge of a path. -/
theorem Under.last {place : K} {node : N} (under : Under key children place node) :
    node ∈ children place ∨ ∃ parent, Under key children place parent ∧
      node ∈ children (key parent) := by
  induction under with
  | child member => exact .inl member
  | deeper member under induction =>
      right
      rcases induction with isChild | ⟨parent, isUnder, isChild⟩
      · exact ⟨_, .child member, isChild⟩
      · exact ⟨parent, .deeper member isUnder, isChild⟩

theorem Under.snoc {place : K} {parent node : N} (under : Under key children place parent)
    (member : node ∈ children (key parent)) : Under key children place node := by
  induction under with
  | child isChild => exact .deeper isChild (.child member)
  | deeper isChild _ induction => exact .deeper isChild (induction member)

theorem Under.mem {place : K} {node : N} (under : Under key children place node) :
    ∃ place', node ∈ children place' := by
  rcases under.last with isChild | ⟨parent, -, isChild⟩
  · exact ⟨place, isChild⟩
  · exact ⟨key parent, isChild⟩

end Walks

/-! ## Each node once -/

section Once

variable {key : N → K} {children : K → List N} {rank : N → Nat}

theorem WellFounded.rank_lt (wellFounded : WellFounded key children rank) {node : N}
    {place : K} (under : Under key children place node) : ∀ {parent : N} {above : K},
      parent ∈ children above → key parent = place → rank parent < rank node := by
  induction under with
  | child member =>
      rintro parent above isParent rfl
      exact wellFounded.ranked isParent member
  | deeper member _ induction =>
      rintro parent above isParent rfl
      exact (wellFounded.ranked isParent member).trans (induction member rfl)

/-- A child does not hang on one of its siblings. -/
theorem WellFounded.not_under (wellFounded : WellFounded key children rank) {place : K}
    {sibling child : N} (isSibling : sibling ∈ children place) (isChild : child ∈ children place) :
    ¬ Under key children (key sibling) child := by
  intro under
  rcases under.last with isBelow | ⟨parent, isUnder, isBelow⟩
  · have samePlace := (wellFounded.unique isChild isBelow rfl).2
    rw [samePlace] at isSibling
    exact (wellFounded.ranked isSibling isSibling).false
  · have samePlace := (wellFounded.unique isChild isBelow rfl).2
    obtain ⟨above, isParent⟩ := isUnder.mem
    have less := wellFounded.rank_lt isUnder isSibling rfl
    rw [samePlace] at isSibling
    exact (less.trans (wellFounded.ranked isParent isSibling)).false

/-- The subtrees of two siblings have no node in common. -/
theorem WellFounded.disjoint (wellFounded : WellFounded key children rank) {place : K}
    {left right : N} (isLeft : left ∈ children place) (isRight : right ∈ children place)
    (different : left ≠ right) {node : N} (underLeft : Under key children (key left) node) :
    ¬ Under key children (key right) node := by
  obtain ⟨bound, isBound⟩ : ∃ bound, rank node ≤ bound := ⟨_, le_rfl⟩
  induction bound generalizing node with
  | zero =>
      have less := wellFounded.rank_lt underLeft isLeft rfl
      omega
  | succ bound induction =>
      intro underRight
      rcases underLeft.last with ofLeft | ⟨parent, aboveLeft, ofParent⟩
      · rcases underRight.last with ofRight | ⟨parent', aboveRight, ofParent'⟩
        · exact different (wellFounded.unique isLeft isRight
            (wellFounded.unique ofLeft ofRight rfl).2).1
        · obtain ⟨above, isParent⟩ := aboveRight.mem
          have same := (wellFounded.unique isLeft isParent
            (wellFounded.unique ofLeft ofParent' rfl).2).1
          exact wellFounded.not_under isRight isLeft (same ▸ aboveRight)
      · obtain ⟨above, isParent⟩ := aboveLeft.mem
        rcases underRight.last with ofRight | ⟨parent', aboveRight, ofParent'⟩
        · have same := (wellFounded.unique isRight isParent
            (wellFounded.unique ofRight ofParent rfl).2).1
          exact wellFounded.not_under isLeft isRight (same ▸ aboveLeft)
        · obtain ⟨above', isParent'⟩ := aboveRight.mem
          have same := (wellFounded.unique isParent isParent'
            (wellFounded.unique ofParent ofParent' rfl).2).1
          have less := wellFounded.ranked isParent ofParent
          exact induction aboveLeft (by omega) (same ▸ aboveRight)

theorem WellFounded.walkAll_nodup (wellFounded : WellFounded key children rank) {place : K}
    {walk : K → Option (List N)} (once : ∀ root nodes, walk (key root) = some nodes → nodes.Nodup)
    (isUnder : ∀ root nodes, walk (key root) = some nodes → ∀ node ∈ nodes,
      Under key children (key root) node) {roots : List N} :
    ∀ {nodes : List N}, (∀ root ∈ roots, root ∈ children place) → roots.Nodup →
      walkAll key walk roots = some nodes → nodes.Nodup := by
  induction roots with
  | nil =>
      intro nodes _ _ walked
      obtain rfl := Option.some.inj walked
      exact List.nodup_nil
  | cons root rest induction =>
      intro nodes areChildren nodup walked
      obtain ⟨below, after, isBelow, isAfter, rfl⟩ := walkAll_cons walked
      obtain ⟨notRest, nodupRest⟩ := List.nodup_cons.mp nodup
      have isRoot := areChildren root List.mem_cons_self
      have areRest : ∀ other ∈ rest, other ∈ children place := fun other member =>
        areChildren other (.tail _ member)
      rw [List.cons_append, List.nodup_cons, List.mem_append, List.nodup_append]
      refine ⟨?_, once root below isBelow, induction areRest nodupRest isAfter, ?_⟩
      · rintro (inBelow | inAfter)
        · exact wellFounded.not_under isRoot isRoot (isUnder root below isBelow root inBelow)
        · rcases (mem_walkAll isAfter root).mp inAfter with isOther | ⟨other, isOther, nodes,
            isNodes, member⟩
          · exact notRest isOther
          · exact wellFounded.not_under (areRest other isOther) isRoot
              (isUnder other nodes isNodes root member)
      · intro node inBelow node' inAfter same
        subst same
        have under := isUnder root below isBelow node inBelow
        rcases (mem_walkAll isAfter node).mp inAfter with isOther | ⟨other, isOther, nodes,
          isNodes, member⟩
        · exact wellFounded.not_under isRoot (areRest node isOther) under
        · have different : root ≠ other := fun same => notRest (same ▸ isOther)
          exact wellFounded.disjoint isRoot (areRest other isOther) different under
            (isUnder other nodes isNodes node member)

theorem WellFounded.walk_nodup (wellFounded : WellFounded key children rank) :
    ∀ {fuel : Nat} {place : K} {nodes : List N},
      walk key children fuel place = some nodes → nodes.Nodup
  | 0, _, _, walked => nomatch walked
  | _ + 1, place, _, walked => wellFounded.walkAll_nodup (fun _ _ => walk_nodup wellFounded)
      (fun _ _ isNodes node => (mem_walk isNodes node).mp) (fun _ member => member)
      (wellFounded.nodup place) walked

end Once

/-! ## More children -/

section Grown

variable {key : N → K} {children children' : K → List N}

theorem walkAll_sublist {walk walk' : K → Option (List N)}
    (deeper : ∀ {place nodes nodes'}, walk place = some nodes → walk' place = some nodes' →
      (nodes.map key).Sublist (nodes'.map key)) {roots' : List N} :
    ∀ {roots nodes nodes' : List N}, (roots.map key).Sublist (roots'.map key) →
      walkAll key walk roots = some nodes → walkAll key walk' roots' = some nodes' →
        (nodes.map key).Sublist (nodes'.map key) := by
  induction roots' with
  | nil =>
      intro roots nodes nodes' sublist walked walked'
      obtain rfl := List.map_eq_nil_iff.mp (List.sublist_nil.mp sublist)
      obtain rfl := Option.some.inj walked
      exact List.nil_sublist _
  | cons root' rest' induction =>
      intro roots nodes nodes' sublist walked walked'
      obtain ⟨below', after', isBelow', isAfter', rfl⟩ := walkAll_cons walked'
      rw [List.map_append, List.map_cons]
      cases roots with
      | nil =>
          obtain rfl := Option.some.inj walked
          exact List.nil_sublist _
      | cons root rest =>
          by_cases same : key root = key root'
          · obtain ⟨below, after, isBelow, isAfter, rfl⟩ := walkAll_cons walked
            rw [List.map_cons, List.map_cons, same, List.cons_sublist_cons] at sublist
            rw [List.map_append, List.map_cons, same]
            rw [same] at isBelow
            apply List.Sublist.append
            · exact (deeper isBelow isBelow').cons_cons _
            · exact induction sublist isAfter isAfter'
          · -- The new child and its subtree are skipped.
            have later : ((root :: rest).map key).Sublist (rest'.map key) := by
              rw [List.map_cons, List.map_cons] at sublist
              rw [List.map_cons]
              rcases List.sublist_cons_iff.mp sublist with skipped | ⟨tail, isTail, -⟩
              · exact skipped
              · exact absurd (List.cons.inj isTail).1 same
            exact (induction later walked isAfter').trans (List.sublist_append_right _ _)

/-- Where the children only become more, so does the walk, and what was there keeps
its order. -/
theorem walk_sublist
    (grown : ∀ place, ((children place).map key).Sublist ((children' place).map key)) :
    ∀ {fuel fuel' : Nat} {place : K} {nodes nodes' : List N},
      walk key children fuel place = some nodes → walk key children' fuel' place = some nodes' →
        (nodes.map key).Sublist (nodes'.map key)
  | 0, _, _, _, _, walked, _ => nomatch walked
  | _ + 1, 0, _, _, _, _, walked' => nomatch walked'
  | _ + 1, _ + 1, place, _, _, walked, walked' =>
      walkAll_sublist (walk_sublist grown) (grown place) walked walked'

end Grown

/-! ## One more leaf -/

section Sprout

variable [DecidableEq K] {key : N → K} {children children' : K → List N} {spot : K} {leaf : N}

/-- The leaf becomes the first child of the spot. -/
structure Sprouts (key : N → K) (children children' : K → List N) (spot : K) (leaf : N) :
    Prop where
  atSpot : children' spot = leaf :: children spot
  others : ∀ place, place ≠ spot → children' place = children place
  bare : children (key leaf) = []
  different : key leaf ≠ spot

/-- The leaf behind every node of the spot. -/
def sprout (key : N → K) (spot : K) (leaf : N) (nodes : List N) : List N :=
  nodes.flatMap fun node => if key node = spot then [node, leaf] else [node]

theorem sprout_append (front back : List N) :
    sprout key spot leaf (front ++ back) = sprout key spot leaf front ++ sprout key spot leaf back :=
  List.flatMap_append

theorem sprout_of_absent {nodes : List N} (absent : ∀ node ∈ nodes, key node ≠ spot) :
    sprout key spot leaf nodes = nodes := by
  induction nodes with
  | nil => rfl
  | cons node rest induction =>
      have later := induction fun other member => absent other (List.mem_cons_of_mem _ member)
      have different := absent node List.mem_cons_self
      rw [sprout, List.flatMap_cons, if_neg different]
      exact congrArg (node :: ·) later

/-- Where the keys are different, the leaf comes right behind the one node. -/
theorem sprout_of_nodup {front back : List N} {node : N}
    (nodup : ((front ++ node :: back).map key).Nodup) :
    sprout key (key node) leaf (front ++ node :: back) = front ++ node :: leaf :: back := by
  rw [List.map_append, List.map_cons, List.nodup_append, List.nodup_cons] at nodup
  rcases nodup with ⟨-, ⟨notBack, -⟩, apart⟩
  have inFront : ∀ other ∈ front, key other ≠ key node := fun other member =>
    apart _ (List.mem_map_of_mem member) _ List.mem_cons_self
  have inBack : ∀ other ∈ back, key other ≠ key node := fun other member same =>
    notBack (same ▸ List.mem_map_of_mem member)
  have own : sprout key (key node) leaf (node :: back) =
      node :: leaf :: sprout key (key node) leaf back := by
    rw [sprout, List.flatMap_cons, if_pos rfl]
    rfl
  rw [sprout_append, sprout_of_absent inFront, own, sprout_of_absent inBack]

theorem walkAll_sprout {walk walk' : K → Option (List N)}
    (deeper : ∀ {place nodes nodes'}, walk place = some nodes → walk' place = some nodes' →
      nodes' = (if place = spot then [leaf] else []) ++ sprout key spot leaf nodes)
    {roots : List N} : ∀ {nodes nodes' : List N}, walkAll key walk roots = some nodes →
      walkAll key walk' roots = some nodes' → nodes' = sprout key spot leaf nodes := by
  induction roots with
  | nil =>
      intro nodes nodes' walked walked'
      cases walked
      cases walked'
      rfl
  | cons root rest induction =>
      intro nodes nodes' walked walked'
      rcases walkAll_cons walked with ⟨below, after, isBelow, isAfter, rfl⟩
      rcases walkAll_cons walked' with ⟨below', after', isBelow', isAfter', rfl⟩
      rw [deeper isBelow isBelow', induction isAfter isAfter', sprout_append]
      by_cases atRoot : key root = spot
      · rw [if_pos atRoot]
        simp [sprout, atRoot]
      · rw [if_neg atRoot]
        simp [sprout, atRoot]

/-- The walk with the leaf, from the walk without it. -/
theorem walk_sprout (sprouts : Sprouts key children children' spot leaf) :
    ∀ {fuel fuel' : Nat} {place : K} {nodes nodes' : List N},
      walk key children fuel place = some nodes → walk key children' fuel' place = some nodes' →
        nodes' = (if place = spot then [leaf] else []) ++ sprout key spot leaf nodes
  | 0, _, _, _, _, walked, _ => nomatch walked
  | _ + 1, 0, _, _, _, _, walked' => nomatch walked'
  | fuel + 1, fuel' + 1, place, nodes, nodes', walked, walked' => by
      rw [walk] at walked walked'
      by_cases atSpot : place = spot
      · rw [atSpot, sprouts.atSpot] at walked'
        rw [atSpot] at walked
        rcases walkAll_cons walked' with ⟨below, after, isBelow, isAfter, rfl⟩
        have noBelow : below = [] := by
          cases fuel' with
          | zero => exact nomatch isBelow
          | succ fuel' =>
              rw [walk, sprouts.others _ sprouts.different, sprouts.bare] at isBelow
              exact (Option.some.inj isBelow).symm
        rw [if_pos atSpot, noBelow, walkAll_sprout (walk_sprout sprouts) walked isAfter]
      · rw [sprouts.others place atSpot] at walked'
        rw [if_neg atSpot, List.nil_append]
        exact walkAll_sprout (walk_sprout sprouts) walked walked'

end Sprout

/-! ## Changed nodes -/

section Changed

variable {key : N → K} {children children' : K → List N} {change : N → N}

theorem walkAll_map (sameKey : ∀ node, key (change node) = key node)
    {walk walk' : K → Option (List N)}
    (deeper : ∀ {place nodes nodes'}, walk place = some nodes → walk' place = some nodes' →
      nodes' = nodes.map change)
    {roots : List N} : ∀ {nodes nodes' : List N}, walkAll key walk roots = some nodes →
      walkAll key walk' (roots.map change) = some nodes' → nodes' = nodes.map change := by
  induction roots with
  | nil =>
      intro nodes nodes' walked walked'
      cases walked
      cases walked'
      rfl
  | cons root rest induction =>
      intro nodes nodes' walked walked'
      rcases walkAll_cons walked with ⟨below, after, isBelow, isAfter, rfl⟩
      rcases walkAll_cons walked' with ⟨below', after', isBelow', isAfter', rfl⟩
      rw [sameKey] at isBelow'
      rw [deeper isBelow isBelow', induction isAfter isAfter']
      simp

/-- Nodes that keep their keys and places keep their order. -/
theorem walk_map (sameKey : ∀ node, key (change node) = key node)
    (changed : ∀ place, children' place = (children place).map change) :
    ∀ {fuel fuel' : Nat} {place : K} {nodes nodes' : List N},
      walk key children fuel place = some nodes → walk key children' fuel' place = some nodes' →
        nodes' = nodes.map change
  | 0, _, _, _, _, walked, _ => nomatch walked
  | _ + 1, 0, _, _, _, _, walked' => nomatch walked'
  | _ + 1, _ + 1, place, _, _, walked, walked' => by
      rw [walk] at walked walked'
      rw [changed] at walked'
      exact walkAll_map sameKey (walk_map sameKey changed) walked walked'

end Changed

end FoundationsLab.Foundation.Forest
