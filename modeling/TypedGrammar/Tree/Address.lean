import TypedGrammar.Outcome
import TypedGrammar.Tree.Basic

/-!
# Addressing and changing nodes

Three walks along a path. `subtree?` finds the node or nothing. `nodeAt` holds the caller to a
promise: an index that a filled node lacks is a breach, whereas a hole on the way means that there is
no node. `checkPath` reports both. `editAt` changes the addressed node in place.
-/

namespace TypedGrammar.Tree

/-- The child with an index that counts from 1. -/
def child? (t : Tree) : Nat → Option Tree
  | 0 => none
  | i + 1 => t.children[i]?

/-- The tree with another child in place of the one with an index that counts from 1. -/
def setChild (t : Tree) (index : Nat) (child : Tree) : Tree :=
  match t with
  | .apply rule children => .apply rule (children.set (index - 1) child)
  | t => t

/-- The children of the node at a path, each with its own path. -/
def childrenAt (path : Path) (t : Tree) : List (Path × Tree) :=
  (t.children.zipIdx 1).map fun (child, index) => (path ++ [index], child)

/-- Without their paths the children of a node are its children. -/
theorem map_snd_childrenAt (path : Path) (t : Tree) :
    (t.childrenAt path).map Prod.snd = t.children := by
  rw [childrenAt, List.map_map]
  exact List.zipIdx_map_fst 1 t.children

/-- The node at a path, if there is one. -/
def subtree? (t : Tree) : Path → Option Tree
  | [] => some t
  | i :: rest => (t.child? i).bind fun child => subtree? child rest

/-- Follow the rest of a path. The whole path serves to report a breach. -/
def walk (whole : Path) (t : Tree) : Path → Except Failure (Option Tree)
  | [] => .ok (some t)
  | i :: rest =>
    if t.isHole then .ok none
    else match t.child? i with
      | some child => walk whole child rest
      | none => breached (.childOutOfBounds i t.children.length whole)

/-- The node at a path, or nothing where a hole comes before the end of the path. The caller promises
that filled nodes on the way have the children asked for. -/
def nodeAt (t : Tree) (path : Path) : Except Failure (Option Tree) := walk path t path

/-- Change the node at the end of the rest of a path. The whole path serves to report a breach. -/
def editWalk {α : Type} (whole : Path) (f : Tree → α × Tree) (t : Tree) :
    Path → Except Failure (Option (α × Tree))
  | [] => .ok (some (f t))
  | i :: rest =>
    if t.isHole then .ok none
    else match t.child? i with
      | some child =>
        match editWalk whole f child rest with
        | .ok (some (answer, child')) => .ok (some (answer, t.setChild i child'))
        | .ok none => .ok none
        | .error failure => .error failure
      | none => breached (.childOutOfBounds i t.children.length whole)

/-- Change the node that `nodeAt` finds, and give back the answer of the change with the new tree. -/
def editAt {α : Type} (f : Tree → α × Tree) (t : Tree) (path : Path) :
    Except Failure (Option (α × Tree)) := editWalk path f t path

/-- What is wrong with the rest of a path. -/
def pathFault? (t : Tree) : Path → Option PathFault
  | [] => none
  | i :: rest =>
    if t.isHole then some .throughHole
    else match t.child? i with
      | some child => pathFault? child rest
      | none => some .outOfBounds

/-- Report a path that does not address a node. -/
def checkPath (t : Tree) (path : Path) : Except Failure Unit :=
  match t.pathFault? path with
  | none => .ok ()
  | some fault => report (.invalidPath path fault)

/-- Put a subtree in place of the node at a path; the answer is the node that was there. The root
has no place, so the empty path is refused. -/
def swap (t : Tree) (path : Path) (subtree : Tree) : Edit Tree Tree :=
  if path.isEmpty then .refused t .emptyPath
  else match t.checkPath path with
    | .error failure => .failed t failure
    | .ok () =>
      match t.editAt (fun old => (old, subtree)) path with
      | .ok (some (old, t')) => .done t' old
      | .ok none => .refused t (.invalidPath path .throughHole)
      | .error failure => .failed t failure

/-- Add a child behind those of a node that applies a rule; the answer tells whether it was one. -/
def appendChild (child : Tree) : Tree → Bool × Tree
  | apply rule children => (true, apply rule (children ++ [child]))
  | t => (false, t)

/-- Narrow the domain of a hole; the answer is the narrowed hole. -/
def narrowRoot (allowed : BitSet) : Tree → Option Hole × Tree
  | hole h => (some (h.narrow allowed), hole (h.narrow allowed))
  | t => (none, t)

/-- Change the node at a path, with an answer of its own for a path that has no node. -/
def editNode {α : Type} (f : Tree → α × Tree) (absent : α) (t : Tree) (path : Path) : Edit Tree α :=
  match t.editAt f path with
  | .ok (some (answer, t')) => .done t' answer
  | .ok none => .done t absent
  | .error failure => .failed t failure

/-- Add a child to the node at a path; the answer tells whether it can have children. -/
def pushChild (t : Tree) (path : Path) (child : Tree) : Edit Tree Bool :=
  editNode (appendChild child) false t path

/-- Narrow the hole at a path; the answer is the narrowed hole, if there is one. -/
def narrowAt (t : Tree) (path : Path) (allowed : BitSet) : Edit Tree (Option Hole) :=
  editNode (narrowRoot allowed) none t path

end TypedGrammar.Tree
