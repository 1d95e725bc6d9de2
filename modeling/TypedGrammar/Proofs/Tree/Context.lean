import TypedGrammar.Proofs.Tree.Nodes

/-!
# Trees around a node

A context is a tree with one place left open, kept as the nodes on the way from the root down to the
place. Every walk along the path of the place in a filled context ends at what was filled in, and
changing it leaves the context alone.
-/

namespace TypedGrammar

/-- A node that applies a rule, with an open place among its children. -/
structure Frame where
  /-- The rule of the node. -/
  rule : RuleId
  /-- The children to the left of the place. -/
  left : List Tree
  /-- The children to the right of the place. -/
  right : List Tree

namespace Frame

/-- The node with a tree in its open place. -/
def plug (f : Frame) (t : Tree) : Tree := .apply f.rule (f.left ++ t :: f.right)

/-- The index of the open place, counted from 1. -/
def index (f : Frame) : Nat := f.left.length + 1

/-- The tree that is plugged into a frame is the child at its index. -/
theorem child?_plug (f : Frame) (t : Tree) : (f.plug t).child? f.index = some t := by
  rw [plug, index, Tree.child?, Tree.children, List.getElem?_append_right (Nat.le_refl _), Nat.sub_self]
  rfl

/-- Setting that child plugs another tree into the frame. -/
theorem setChild_plug (f : Frame) (t t' : Tree) : (f.plug t).setChild f.index t' = f.plug t' := by
  rw [plug, index, Tree.setChild, Nat.add_sub_cancel, List.set_append_right _ _ (Nat.le_refl _),
    Nat.sub_self]
  rfl

end Frame

/-- A tree with an open place, as the nodes from the root down to it. -/
abbrev Context := List Frame

namespace Context

/-- The tree with another one in the open place. -/
def plug : Context → Tree → Tree
  | [], t => t
  | f :: rest, t => f.plug (plug rest t)

/-- The path of the open place. -/
def path (ctx : Context) : Path := ctx.map Frame.index

/-- The path to the open place starts with the index of the first frame. -/
@[simp] theorem path_cons (f : Frame) (rest : Context) : path (f :: rest) = f.index :: path rest := rfl

/-- Are there no holes to the left of the open place? -/
def ClosedLeft (ctx : Context) : Prop := ∀ f ∈ ctx, Tree.anyContainsHole f.left = false

/-- The number of nodes around the open place. -/
def size : Context → Nat
  | [] => 0
  | f :: rest => 1 + Tree.totalSize f.left + Tree.totalSize f.right + size rest

/-- The number of holes around the open place. -/
def holeCount : Context → Nat
  | [] => 0
  | f :: rest => Tree.totalHoleCount f.left + Tree.totalHoleCount f.right + holeCount rest

variable (ctx : Context) (t t' : Tree)

/-- The nodes of a filled context are those of the context and those of the tree in its place. -/
theorem size_plug : (ctx.plug t).size = ctx.size + t.size := by
  induction ctx with
  | nil => rw [plug, size, Nat.zero_add]
  | cons f rest ih =>
    rw [plug, Frame.plug, Tree.size, Tree.totalSize_split, ih, size]
    omega

/-- The holes of a filled context are those of the context and those of the tree in its place. -/
theorem holeCount_plug : (ctx.plug t).holeCount = ctx.holeCount + t.holeCount := by
  induction ctx with
  | nil => rw [plug, holeCount, Nat.zero_add]
  | cons f rest ih =>
    rw [plug, Frame.plug, Tree.holeCount, Tree.totalHoleCount_split, ih, holeCount]
    omega

/-! ### Walks along the path -/

/-- A walk comes to the place and goes on in the tree that was filled in. -/
theorem walk_plug_append (whole rest : Path) :
    (ctx.plug t).walk whole (ctx.path ++ rest) = t.walk whole rest := by
  induction ctx with
  | nil => rfl
  | cons f outer ih =>
    rw [path_cons, List.cons_append, plug, Tree.walk, Frame.child?_plug]
    exact ih

/-- What is changed below the place is changed in the tree that was filled in. -/
theorem editWalk_plug_append {α : Type} (whole rest : Path) (f : Tree → α × Tree) :
    (ctx.plug t).editWalk whole f (ctx.path ++ rest) =
      (t.editWalk whole f rest).map (Option.map (Prod.map id ctx.plug)) := by
  induction ctx with
  | nil =>
    rcases hedit : t.editWalk whole f rest with failure | _ | p <;>
      exact hedit
  | cons frame outer ih =>
    rw [path_cons, List.cons_append, plug, Tree.editWalk, Frame.child?_plug]
    simp only [ih]
    rcases t.editWalk whole f rest with failure | _ | ⟨answer, t'⟩
    · rfl
    · rfl
    · simp only [Except.map, Option.map, Prod.map, id, Frame.setChild_plug]
      rfl

/-- Whatever is wrong with a path through the open place is wrong below it. -/
theorem pathFault?_plug_append (rest : Path) :
    (ctx.plug t).pathFault? (ctx.path ++ rest) = t.pathFault? rest := by
  induction ctx with
  | nil => rfl
  | cons f outer ih =>
    rw [path_cons, List.cons_append, plug, Tree.pathFault?, Frame.child?_plug]
    exact ih

/-- The path of the place addresses the tree that was filled in. -/
theorem walk_plug (whole : Path) : (ctx.plug t).walk whole ctx.path = .ok (some t) := by
  rw [← List.append_nil ctx.path, walk_plug_append]
  rfl

/-- Changing the node at the path of the place changes the tree that was filled in. -/
theorem editWalk_plug {α : Type} (whole : Path) (f : Tree → α × Tree) :
    (ctx.plug t).editWalk whole f ctx.path = .ok (some ((f t).1, ctx.plug (f t).2)) := by
  rw [← List.append_nil ctx.path, editWalk_plug_append]
  rfl

/-- Nothing is wrong with the path to the open place. -/
theorem pathFault?_plug : (ctx.plug t).pathFault? ctx.path = none := by
  rw [← List.append_nil ctx.path, pathFault?_plug_append]
  rfl

/-- The path to the open place passes the check. -/
theorem checkPath_plug : (ctx.plug t).checkPath ctx.path = .ok () := by
  rw [Tree.checkPath, pathFault?_plug]

/-- The tree in the open place is the node at its path. -/
theorem nodeAt_plug : (ctx.plug t).nodeAt ctx.path = .ok (some t) := ctx.walk_plug t ctx.path

/-- Changing the node at the path of the place by a function that always answers. -/
theorem editNode_plug {α : Type} (f : Tree → α × Tree) (absent : α) :
    Tree.editNode f absent (ctx.plug t) ctx.path = .done (ctx.plug (f t).2) (f t).1 := by
  rw [Tree.editNode, Tree.editAt, editWalk_plug]

/-- Swapping at a place below the root changes nothing around it and gives back what stood there. -/
theorem swap_plug (hroot : ctx.path ≠ []) :
    (ctx.plug t).swap ctx.path t' = .done (ctx.plug t') t := by
  rw [Tree.swap, if_neg (by simpa using hroot), checkPath_plug, Tree.editAt, editWalk_plug]

/-- A context inside the innermost frame of another one. -/
theorem plug_append (inner : Context) : plug (ctx ++ inner) t = ctx.plug (inner.plug t) := by
  induction ctx with
  | nil => rfl
  | cons f rest ih => rw [List.cons_append, plug, plug, ih]

/-- The path through two contexts is that of the outer one and then that of the inner one. -/
theorem path_append (inner : Context) : path (ctx ++ inner) = ctx.path ++ inner.path :=
  List.map_append

end Context

/-! ### Addressed nodes -/

namespace Tree

variable {t child : Tree} {i : Nat} {path : Path}

/-- A child stands in the open place of a frame. -/
theorem exists_frame (h : t.child? i = some child) : ∃ f : Frame, t = f.plug child ∧ i = f.index := by
  rcases i with _ | i
  · cases h
  · cases t with
    | apply r children =>
      obtain ⟨hlt, hchild⟩ := List.getElem?_eq_some_iff.mp (show children[i]? = some child from h)
      refine ⟨⟨r, children.take i, children.drop (i + 1)⟩, ?_, ?_⟩
      · simp [Frame.plug, ← hchild]
      · simp [Frame.index, Nat.min_eq_left (Nat.le_of_lt hlt)]
    | immediate r value => cases h
    | hole hole => cases h

/-- A path without a fault leads to the open place of a context. -/
theorem exists_context (h : t.pathFault? path = none) :
    ∃ (ctx : Context) (node : Tree), t = ctx.plug node ∧ path = ctx.path := by
  induction path generalizing t with
  | nil => exact ⟨[], t, rfl, rfl⟩
  | cons i rest ih =>
    rw [pathFault?] at h
    split at h
    · cases h
    · split at h
      · rename_i child hchild
        obtain ⟨f, rfl, rfl⟩ := exists_frame hchild
        obtain ⟨ctx, node, rfl, rfl⟩ := ih h
        exact ⟨f :: ctx, node, rfl, rfl⟩
      · cases h

/-- A path that passes the check leads to the open place of a context. -/
theorem exists_context_of_checkPath (h : t.checkPath path = .ok ()) :
    ∃ (ctx : Context) (node : Tree), t = ctx.plug node ∧ path = ctx.path := by
  rw [checkPath] at h
  split at h
  · rename_i hfault
    exact exists_context hfault
  · cases h

/-- Nothing changes along a path with a fault. -/
theorem pathFault?_of_editWalk {α : Type} {whole : Path} {f : Tree → α × Tree} {p : α × Tree}
    (h : t.editWalk whole f path = .ok (some p)) : t.pathFault? path = none := by
  induction path generalizing t p with
  | nil => rfl
  | cons i rest ih =>
    rw [editWalk] at h
    rw [pathFault?]
    split at h
    · cases h
    · rename_i hfilled
      rw [if_neg hfilled]
      cases hchild : t.child? i with
      | none =>
        rw [hchild] at h
        cases h
      | some child =>
        rw [hchild] at h
        dsimp only at h
        split at h
        · rename_i hbelow
          exact ih hbelow
        · cases h
        · cases h

/-- Changing the node at a path leaves the tree as it is, or changes what stands in the open place of
a context. -/
theorem editNode_state {α : Type} (f : Tree → α × Tree) (absent : α) (t : Tree) (path : Path) :
    (editNode f absent t path).state = t ∨ ∃ (ctx : Context) (node : Tree),
      t = ctx.plug node ∧ path = ctx.path ∧
        (editNode f absent t path).state = ctx.plug (f node).2 := by
  cases hedit : t.editAt f path with
  | error failure => exact .inl (by rw [editNode, hedit]; rfl)
  | ok found =>
    cases found with
    | none => exact .inl (by rw [editNode, hedit]; rfl)
    | some p =>
      obtain ⟨ctx, node, rfl, rfl⟩ := exists_context (pathFault?_of_editWalk hedit)
      exact .inr ⟨ctx, node, rfl, rfl, by rw [Context.editNode_plug]; rfl⟩

/-- A swap leaves the tree as it is, or puts the other tree in the open place of a context. -/
theorem swap_state (t : Tree) (path : Path) (subtree : Tree) :
    (swap t path subtree).state = t ∨ ∃ (ctx : Context) (node : Tree),
      t = ctx.plug node ∧ path = ctx.path ∧ (swap t path subtree).state = ctx.plug subtree := by
  unfold swap
  split
  · exact .inl rfl
  · split
    · exact .inl rfl
    · split
      · rename_i hedit
        obtain ⟨ctx, node, rfl, rfl⟩ := exists_context (pathFault?_of_editWalk hedit)
        rw [editAt, Context.editWalk_plug] at hedit
        cases hedit
        exact .inr ⟨ctx, node, rfl, rfl, rfl⟩
      · exact .inl rfl
      · exact .inl rfl

end Tree

end TypedGrammar
