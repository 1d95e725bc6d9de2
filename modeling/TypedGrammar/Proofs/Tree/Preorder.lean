import TypedGrammar.Proofs.Tree.LeftRules

/-!
# Nodes and their paths

A walk that keeps each node with its path takes a node off its stack and puts the children there, each
with its own path. What stands at and below a node stands there or at and below one of these children.
`positions` lists the paths of all nodes in the order in which such a walk meets them when the first
child comes first: a node before its children and these from left to right.
-/

namespace TypedGrammar.Tree

variable {t node child : Tree} {path rest : Path} {trees : List Tree} {index : Nat} {r : RuleId}

/-! ### Children with their paths -/

/-- A longer path leads on from the subtree that its start leads to. -/
theorem subtree?_append (t : Tree) (path rest : Path) :
    t.subtree? (path ++ rest) = (t.subtree? path).bind fun node => node.subtree? rest := by
  induction path generalizing t with
  | nil => rfl
  | cons i path ih =>
    rw [List.cons_append, subtree?, subtree?, Option.bind_assoc]
    exact Option.bind_congr fun child _ => ih child

/-- The children with their paths are those at the indices. -/
theorem mem_childrenAt : (rest, child) ∈ t.childrenAt path ↔
    ∃ i, rest = path ++ [i] ∧ t.child? i = some child := by
  rw [childrenAt, List.mem_map]
  constructor
  · rintro ⟨⟨found, i⟩, hmem, hentry⟩
    obtain ⟨rfl, rfl⟩ := Prod.mk.inj hentry
    obtain ⟨hle, hchild⟩ := List.mk_mem_zipIdx_iff_le_and_getElem?_sub.mp hmem
    obtain ⟨k, rfl⟩ := Nat.exists_eq_add_of_le' hle
    exact ⟨k + 1, rfl, hchild⟩
  · rintro ⟨i, rfl, hchild⟩
    cases i with
    | zero => cases hchild
    | succ k =>
      exact ⟨(child, k + 1), List.mk_mem_zipIdx_iff_le_and_getElem?_sub.mpr
        ⟨Nat.le_add_left 1 k, hchild⟩, rfl⟩

/-- A child with its path stands in the tree where its parent does. -/
theorem subtree?_of_mem_childrenAt (h : t.subtree? path = some node)
    (hchild : (rest, child) ∈ node.childrenAt path) : t.subtree? rest = some child := by
  obtain ⟨i, rfl, hi⟩ := mem_childrenAt.mp hchild
  rw [subtree?_append, h, Option.bind_some, subtree?, hi]
  rfl

/-- A rule at or below a node stands at the node itself, or at or below one of its children. -/
theorem exists_ruleAtPath?_childrenAt {p : Path → Prop} :
    (∃ q, p (path ++ q) ∧ t.ruleAtPath? q = some r) ↔ (p path ∧ t.rule? = some r) ∨
      ∃ e ∈ t.childrenAt path, ∃ q, p (e.1 ++ q) ∧ e.2.ruleAtPath? q = some r := by
  constructor
  · rintro ⟨_ | ⟨i, q⟩, hp, hr⟩
    · exact .inl ⟨List.append_nil path ▸ hp, hr⟩
    · obtain ⟨child, hchild, hr⟩ := Option.bind_eq_some_iff.mp (ruleAtPath?_cons t i q ▸ hr)
      refine .inr ⟨(path ++ [i], child), mem_childrenAt.mpr ⟨i, rfl, hchild⟩, q, ?_, hr⟩
      rwa [List.append_assoc]
  · rintro (⟨hp, hr⟩ | ⟨⟨below, child⟩, hmem, q, hp, hr⟩)
    · exact ⟨[], (List.append_nil path).symm ▸ hp, hr⟩
    · obtain ⟨i, rfl, hchild⟩ := mem_childrenAt.mp hmem
      refine ⟨i :: q, ?_, by simp [hchild, hr]⟩
      rwa [List.append_assoc] at hp

/-! ### All nodes in pre-order -/

mutual

/-- The paths of the nodes of a tree, each node before its children and these from left to right. -/
def positions : Tree → List Path
  | apply _ children => [] :: positionsFrom 1 children
  | immediate _ _ => [[]]
  | hole _ => [[]]

/-- The paths of the nodes of the children from an index on. -/
def positionsFrom (index : Nat) : List Tree → List Path
  | [] => []
  | t :: rest => (positions t).map (index :: ·) ++ positionsFrom (index + 1) rest

end

/-- The root comes first, and then the nodes of the children. -/
theorem positions_eq (t : Tree) : t.positions = [] :: positionsFrom 1 t.children := by
  cases t <;> rfl

/-- The nodes of the children from an index on are those of each child, behind the index of the child. -/
theorem mem_positionsFrom : path ∈ positionsFrom index trees ↔
    ∃ i t rest, trees[i]? = some t ∧ rest ∈ t.positions ∧ path = (index + i) :: rest := by
  induction trees generalizing index with
  | nil => simp [positionsFrom]
  | cons t others ih =>
    rw [positionsFrom, List.mem_append, List.mem_map, ih]
    constructor
    · rintro (⟨rest, hrest, rfl⟩ | ⟨i, child, rest, hchild, hrest, rfl⟩)
      · exact ⟨0, t, rest, rfl, hrest, rfl⟩
      · exact ⟨i + 1, child, rest, hchild, hrest, by rw [Nat.add_assoc, Nat.add_comm 1]⟩
    · rintro ⟨_ | i, child, rest, hchild, hrest, rfl⟩
      · obtain rfl : t = child := Option.some.inj hchild
        exact .inl ⟨rest, hrest, rfl⟩
      · exact .inr ⟨i, child, rest, hchild, hrest, by rw [Nat.add_assoc, Nat.add_comm 1]⟩

/-- The list has the paths that lead to a node. -/
theorem mem_positions : path ∈ t.positions ↔ ∃ node, t.subtree? path = some node := by
  induction path generalizing t with
  | nil =>
    rw [positions_eq]
    exact iff_of_true List.mem_cons_self ⟨t, rfl⟩
  | cons i rest ih =>
    rw [positions_eq, List.mem_cons, mem_positionsFrom]
    simp only [subtree?, Option.bind_eq_some_iff]
    constructor
    · rintro (hnil | ⟨k, child, below, hchild, hbelow, hpath⟩)
      · cases hnil
      · obtain ⟨rfl, rfl⟩ := List.cons.inj hpath
        obtain ⟨node, hnode⟩ := ih.mp hbelow
        exact ⟨node, child, by rw [Nat.add_comm]; exact hchild, hnode⟩
    · rintro ⟨node, child, hchild, hnode⟩
      cases i with
      | zero => cases hchild
      | succ k => exact .inr ⟨k, child, rest, hchild, ih.mpr ⟨node, hnode⟩, by rw [Nat.add_comm]⟩

mutual

/-- The paths are listed in lexicographic order. -/
theorem positions_pairwise : ∀ t : Tree, t.positions.Pairwise (· < ·)
  | apply _ children => by
    refine List.pairwise_cons.mpr ⟨fun path hpath => ?_, positionsFrom_pairwise 1 children⟩
    obtain ⟨i, t, rest, -, -, rfl⟩ := mem_positionsFrom.mp hpath
    exact List.nil_lt_cons _ _
  | immediate _ _ => List.pairwise_singleton _ _
  | hole _ => List.pairwise_singleton _ _

/-- The positions in several trees ascend. The first index of a node in a later child is greater. -/
theorem positionsFrom_pairwise (index : Nat) : ∀ trees : List Tree,
    (positionsFrom index trees).Pairwise (· < ·)
  | [] => .nil
  | t :: rest => by
    rw [positionsFrom]
    refine List.pairwise_append.mpr
      ⟨List.pairwise_map.mpr ?_, positionsFrom_pairwise (index + 1) rest, ?_⟩
    · exact (positions_pairwise t).imp fun h => List.cons_lt_cons_iff.mpr (.inr ⟨rfl, h⟩)
    · intro path hpath other hother
      obtain ⟨below, -, rfl⟩ := List.mem_map.mp hpath
      obtain ⟨i, child, below', -, -, rfl⟩ := mem_positionsFrom.mp hother
      exact List.cons_lt_cons_iff.mpr (.inl (by omega))

end

/-- No path is listed twice. -/
theorem nodup_positions (t : Tree) : t.positions.Nodup := by
  refine t.positions_pairwise.imp fun {path other} hlt hsame => ?_
  subst hsame
  exact List.lt_irrefl path hlt

mutual

/-- The list has as many paths as there are nodes. -/
theorem length_positions : ∀ t : Tree, t.positions.length = t.size
  | apply _ children => by
    rw [positions, List.length_cons, length_positionsFrom 1 children, size, Nat.add_comm]
  | immediate _ _ => rfl
  | hole _ => rfl

/-- There are as many positions as nodes in several trees. -/
theorem length_positionsFrom (index : Nat) : ∀ trees : List Tree,
    (positionsFrom index trees).length = totalSize trees
  | [] => rfl
  | t :: rest => by
    rw [positionsFrom, List.length_append, List.length_map, length_positions t,
      length_positionsFrom (index + 1) rest, totalSize]

end

/-- The paths of the nodes of a tree, where the tree itself stands at a path. -/
def positionsAt (path : Path) (t : Tree) : List Path := t.positions.map (path ++ ·)

/-- The nodes at and below a node are the node and those at and below its children. -/
theorem positionsAt_eq (path : Path) (t : Tree) : t.positionsAt path =
    path :: (t.childrenAt path).flatMap fun e => e.2.positionsAt e.1 := by
  have hchildren : ∀ (trees : List Tree) (index : Nat),
      (positionsFrom index trees).map (path ++ ·) =
        ((trees.zipIdx index).map fun e => (path ++ [e.2], e.1)).flatMap
          fun e => e.2.positionsAt e.1 := by
    intro trees
    induction trees with
    | nil => intro index; rfl
    | cons child rest ih =>
      intro index
      rw [positionsFrom, List.map_append, List.map_map, ih, List.zipIdx_cons, List.map_cons,
        List.flatMap_cons, positionsAt]
      congr 2
      funext below
      exact List.append_cons path index below
  rw [positionsAt, positions_eq, List.map_cons, List.append_nil, hchildren]
  rfl

end TypedGrammar.Tree
