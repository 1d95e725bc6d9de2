import TypedGrammar.Proofs.Tree.Places

/-!
# Three walks along a path

A path leads to a node, or goes on below a hole, or asks a filled node for a child that it lacks. The
walk that reads, the walk that changes and the walk that checks end in the same way: where the first
two come to a node, the check passes, where they come to nothing, it reports a hole on the way, and
where they stop at a broken promise, it reports a child out of bounds.
-/

namespace TypedGrammar

/-- How a path ends in a tree. -/
inductive PathEnd : Tree → Path → Prop
  /-- The path leads to a node. -/
  | node (ctx : Context) (found : Tree) : PathEnd (ctx.plug found) ctx.path
  /-- The path goes on below a hole. -/
  | hole (ctx : Context) (h : Hole) (i : Nat) (rest : Path) :
    PathEnd (ctx.plug (.hole h)) (ctx.path ++ i :: rest)
  /-- The path asks a filled node for a child that it lacks. -/
  | lacking (ctx : Context) (found : Tree) (i : Nat) (rest : Path) (hfilled : found.isHole = false)
    (hlacks : found.child? i = none) : PathEnd (ctx.plug found) (ctx.path ++ i :: rest)

namespace Tree

variable {t node : Tree} {path : Path} {i count : Nat} {failure : Failure} {α : Type}
  {f : Tree → α × Tree}

/-- Every path ends in one of the three ways. -/
theorem pathEnd (t : Tree) (path : Path) : PathEnd t path := by
  induction path generalizing t with
  | nil => exact .node [] t
  | cons i rest ih =>
    cases hchild : t.child? i with
    | none =>
      cases t with
      | apply r children => exact .lacking [] _ i rest rfl hchild
      | immediate r value => exact .lacking [] _ i rest rfl hchild
      | hole h => exact .hole [] h i rest
    | some child =>
      obtain ⟨frame, rfl, rfl⟩ := exists_frame hchild
      cases ih child with
      | node ctx found => exact .node (frame :: ctx) found
      | hole ctx h j rest => exact .hole (frame :: ctx) h j rest
      | lacking ctx found j rest hfilled hlacks =>
        exact .lacking (frame :: ctx) found j rest hfilled hlacks

/-! ### Below a hole -/

section Hole

variable (ctx : Context) (h : Hole) (i : Nat) (rest : Path)

/-- There is no node below a hole. -/
theorem nodeAt_below_hole : (ctx.plug (.hole h)).nodeAt (ctx.path ++ i :: rest) = .ok none :=
  ctx.walk_plug_append ..

/-- There is nothing to be edited below a hole. -/
theorem editAt_below_hole (f : Tree → α × Tree) :
    (ctx.plug (.hole h)).editAt f (ctx.path ++ i :: rest) = .ok none :=
  ctx.editWalk_plug_append ..

/-- The check reports a path that goes on below a hole. -/
theorem checkPath_below_hole : (ctx.plug (.hole h)).checkPath (ctx.path ++ i :: rest) =
    report (.invalidPath (ctx.path ++ i :: rest) .throughHole) := by
  rw [checkPath, Context.pathFault?_plug_append]
  rfl

end Hole

/-! ### A child that is not there -/

section Lacking

variable (ctx : Context) (rest : Path)

/-- Going to a child that a filled node lacks breaks a promise. -/
theorem nodeAt_lacking (hfilled : node.isHole = false) (hlacks : node.child? i = none) :
    (ctx.plug node).nodeAt (ctx.path ++ i :: rest) =
      breached (.childOutOfBounds i node.children.length (ctx.path ++ i :: rest)) := by
  rw [nodeAt, Context.walk_plug_append, walk, hfilled, hlacks]
  rfl

/-- Editing a child that a filled node lacks breaks the same promise. -/
theorem editAt_lacking (f : Tree → α × Tree) (hfilled : node.isHole = false)
    (hlacks : node.child? i = none) : (ctx.plug node).editAt f (ctx.path ++ i :: rest) =
      breached (.childOutOfBounds i node.children.length (ctx.path ++ i :: rest)) := by
  rw [editAt, Context.editWalk_plug_append, editWalk, hfilled, hlacks]
  rfl

/-- The check reports a child that a filled node lacks. -/
theorem checkPath_lacking (hfilled : node.isHole = false) (hlacks : node.child? i = none) :
    (ctx.plug node).checkPath (ctx.path ++ i :: rest) =
      report (.invalidPath (ctx.path ++ i :: rest) .outOfBounds) := by
  rw [checkPath, Context.pathFault?_plug_append, pathFault?, hfilled, hlacks]
  rfl

end Lacking

/-! ### The walks agree -/

/-- There is a node to read exactly when the check passes. -/
theorem exists_nodeAt_iff : (∃ node, t.nodeAt path = .ok (some node)) ↔ t.checkPath path = .ok () := by
  cases t.pathEnd path with
  | node ctx found => exact iff_of_true ⟨found, ctx.nodeAt_plug found⟩ (ctx.checkPath_plug found)
  | hole ctx h i rest =>
    rw [nodeAt_below_hole, checkPath_below_hole]
    exact iff_of_false nofun nofun
  | lacking ctx found i rest hfilled hlacks =>
    rw [nodeAt_lacking ctx rest hfilled hlacks, checkPath_lacking ctx rest hfilled hlacks]
    exact iff_of_false nofun nofun

/-- The node that is read is the one that is changed, and what stands around it stays. -/
theorem exists_context_of_nodeAt (h : t.nodeAt path = .ok (some node)) :
    ∃ ctx : Context, t = ctx.plug node ∧ path = ctx.path ∧ ∀ (α : Type) (f : Tree → α × Tree),
      t.editAt f path = .ok (some ((f node).1, ctx.plug (f node).2)) := by
  obtain ⟨ctx, found, rfl, rfl⟩ := exists_context_of_checkPath (exists_nodeAt_iff.mp ⟨node, h⟩)
  obtain rfl := Option.some.inj (Except.ok.inj ((ctx.nodeAt_plug found).symm.trans h))
  exact ⟨ctx, rfl, rfl, fun α f => ctx.editWalk_plug found ctx.path f⟩

/-- There is nothing to read exactly when the check reports a hole on the way. -/
theorem nodeAt_eq_none_iff :
    t.nodeAt path = .ok none ↔ t.checkPath path = report (.invalidPath path .throughHole) := by
  cases t.pathEnd path with
  | node ctx found =>
    rw [Context.nodeAt_plug, Context.checkPath_plug]
    exact iff_of_false nofun nofun
  | hole ctx h i rest => exact iff_of_true (nodeAt_below_hole ..) (checkPath_below_hole ..)
  | lacking ctx found i rest hfilled hlacks =>
    rw [nodeAt_lacking ctx rest hfilled hlacks, checkPath_lacking ctx rest hfilled hlacks]
    exact iff_of_false nofun nofun

/-- There is nothing to change exactly when there is nothing to read. -/
theorem editAt_eq_none_iff : t.editAt f path = .ok none ↔ t.nodeAt path = .ok none := by
  cases t.pathEnd path with
  | node ctx found =>
    rw [editAt, Context.editWalk_plug, Context.nodeAt_plug]
    simp
  | hole ctx h i rest => exact iff_of_true (editAt_below_hole ..) (nodeAt_below_hole ..)
  | lacking ctx found i rest hfilled hlacks =>
    rw [editAt_lacking ctx rest f hfilled hlacks, nodeAt_lacking ctx rest hfilled hlacks]
    simp [breached]

/-- A change stops where reading does, and for the same reason. -/
theorem editAt_eq_error_iff : t.editAt f path = .error failure ↔ t.nodeAt path = .error failure := by
  cases t.pathEnd path with
  | node ctx found =>
    rw [editAt, Context.editWalk_plug, Context.nodeAt_plug]
    simp
  | hole ctx h i rest =>
    rw [editAt_below_hole, nodeAt_below_hole]
    simp
  | lacking ctx found i rest hfilled hlacks =>
    rw [editAt_lacking ctx rest f hfilled hlacks, nodeAt_lacking ctx rest hfilled hlacks]
    simp [breached]

/-! ### The first bad step -/

/-- The path leads to a filled node and goes on with an index that its children do not have. Here are
the index and the number of the children. -/
def FirstBadStep (t : Tree) (path : Path) (i count : Nat) : Prop :=
  ∃ (before rest : Path) (node : Tree), path = before ++ i :: rest ∧
    t.subtree? before = some node ∧ node.isHole = false ∧ node.children.length = count ∧
    (i = 0 ∨ count < i)

/-- A node lacks the child zero and those above the number of its children. -/
theorem child?_eq_none_iff : t.child? i = none ↔ i = 0 ∨ t.children.length < i := by
  cases i with
  | zero => exact iff_of_true rfl (.inl rfl)
  | succ i =>
    rw [child?, List.getElem?_eq_none_iff]
    omega

/-- Reading stops at the first bad step, and only there. -/
theorem nodeAt_eq_error_iff : t.nodeAt path = .error failure ↔ ∃ i count,
    t.FirstBadStep path i count ∧ failure = .breach (.childOutOfBounds i count path) := by
  constructor
  · intro herror
    cases t.pathEnd path with
    | node ctx found =>
      rw [Context.nodeAt_plug] at herror
      cases herror
    | hole ctx h i rest =>
      rw [nodeAt_below_hole] at herror
      cases herror
    | lacking ctx found i rest hfilled hlacks =>
      rw [nodeAt_lacking ctx rest hfilled hlacks] at herror
      exact ⟨i, found.children.length, ⟨ctx.path, rest, found, rfl, ctx.subtree?_plug found, hfilled,
        rfl, child?_eq_none_iff.mp hlacks⟩, (Except.error.inj herror).symm⟩
  · rintro ⟨i, count, ⟨before, rest, node, rfl, hnode, hfilled, rfl, hindex⟩, rfl⟩
    obtain ⟨ctx, rfl, rfl⟩ := exists_context_of_subtree? hnode
    exact nodeAt_lacking ctx rest hfilled (child?_eq_none_iff.mpr hindex)

/-- Reading stops exactly when the check reports a child out of bounds. -/
theorem exists_breach_iff : (∃ breach, t.nodeAt path = breached breach) ↔
    t.checkPath path = report (.invalidPath path .outOfBounds) := by
  cases t.pathEnd path with
  | node ctx found =>
    rw [Context.nodeAt_plug, Context.checkPath_plug]
    exact iff_of_false nofun nofun
  | hole ctx h i rest =>
    rw [nodeAt_below_hole, checkPath_below_hole]
    exact iff_of_false nofun nofun
  | lacking ctx found i rest hfilled hlacks =>
    exact iff_of_true ⟨_, nodeAt_lacking ctx rest hfilled hlacks⟩
      (checkPath_lacking ctx rest hfilled hlacks)

end Tree

end TypedGrammar
