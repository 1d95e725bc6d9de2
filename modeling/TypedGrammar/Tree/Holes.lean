import TypedGrammar.Tree.Address

/-!
# The holes of a tree

`HoleWalk` yields the paths of the holes one at a time, from left to right. It goes down to the first
child that it has not entered, and back when there is none. The nodes on the way are kept on a stack,
next to the path that leads to the current one, so that a search may stop at the first hole. `holePaths`
lists them all.
-/

namespace TypedGrammar

/-- A node that a walk has entered, with the number of its children that were entered as well. -/
structure Visit where
  node : Tree
  entered : Nat

/-- The children that are still to be entered. -/
def Visit.pending (v : Visit) : List Tree := v.node.children.drop v.entered

/-- The next child is the first of them. -/
theorem Visit.pending_eq_cons {v : Visit} {child : Tree} (h : v.node.children[v.entered]? = some child) :
    v.pending = child :: pending ⟨v.node, v.entered + 1⟩ := by
  obtain ⟨hentered, rfl⟩ := List.getElem?_eq_some_iff.mp h
  exact List.drop_eq_getElem_cons hentered

/-- A walk over the holes of a tree. -/
structure HoleWalk where
  /-- The nodes from the current one up to the root. -/
  stack : List Visit
  /-- The path of the current node. -/
  path : Path

namespace HoleWalk

/-- The walk over all holes of a tree. -/
def start (t : Tree) : HoleWalk := ⟨[⟨t, 0⟩], []⟩

/-- Leave the current node for the one above it. No index led to the root. -/
def backtrack (w : HoleWalk) : HoleWalk :=
  match w.stack.tail with
  | [] => ⟨[], w.path⟩
  | v :: above => ⟨v :: above, w.path.dropLast⟩

/-- What one round of the search for the next hole comes to. -/
inductive Round where
  /-- No node is left. -/
  | finished
  /-- The current node is a hole. -/
  | found (path : Path) (left : HoleWalk)
  /-- The search goes on. -/
  | search (left : HoleWalk)

/-- One round of the search for the next hole. A hole is answered and left. Of any other node the next
child is entered, or the node is left if it has no further child. -/
def round (w : HoleWalk) : Round :=
  match w.stack with
  | [] => .finished
  | v :: above =>
    if v.node.isHole then .found w.path w.backtrack
    else
      match v.node.children[v.entered]? with
      | some child =>
        .search ⟨⟨child, 0⟩ :: ⟨v.node, v.entered + 1⟩ :: above, w.path ++ [v.entered + 1]⟩
      | none => .search w.backtrack

/-- What a round comes to, case by case. -/
inductive Takes : HoleWalk → Round → Prop
  | finished (path : Path) : Takes ⟨[], path⟩ .finished
  | found (x : Hole) (entered : Nat) (above : List Visit) (path : Path) :
    Takes ⟨⟨.hole x, entered⟩ :: above, path⟩
      (.found path (backtrack ⟨⟨.hole x, entered⟩ :: above, path⟩))
  | enter {v : Visit} {child : Tree} (above : List Visit) (path : Path)
    (hfilled : v.node.isHole = false) (hchild : v.node.children[v.entered]? = some child) :
    Takes ⟨v :: above, path⟩
      (.search ⟨⟨child, 0⟩ :: ⟨v.node, v.entered + 1⟩ :: above, path ++ [v.entered + 1]⟩)
  | leave {v : Visit} (above : List Visit) (path : Path)
    (hfilled : v.node.isHole = false) (hnone : v.node.children[v.entered]? = none) :
    Takes ⟨v :: above, path⟩ (.search (backtrack ⟨v :: above, path⟩))

/-- A round of the walk takes it one step on. -/
theorem takes_round (w : HoleWalk) : Takes w w.round := by
  obtain ⟨stack, path⟩ := w
  cases stack with
  | nil => exact .finished path
  | cons v above =>
    cases hhole : v.node.isHole with
    | true =>
      obtain ⟨node, entered⟩ := v
      cases node with
      | hole x => exact .found x entered above path
      | apply r children => cases hhole
      | immediate r value => cases hhole
    | false =>
      cases hchild : v.node.children[v.entered]? with
      | some child =>
        simp only [round, hhole, hchild]
        exact .enter above path hhole hchild
      | none =>
        simp only [round, hhole, hchild]
        exact .leave above path hhole hchild

/-- The rounds that are left for the nodes of a stack: two for each child that is still to be entered, and
for each node below it, and one to leave each node of the stack. -/
def workFor : List Visit → Nat
  | [] => 0
  | v :: above => 1 + 2 * Tree.totalSize v.pending + workFor above

/-- The rounds that are left. -/
def work (w : HoleWalk) : Nat := workFor w.stack

/-- A node that is left is not to be left again. -/
theorem work_backtrack_lt (v : Visit) (above : List Visit) (path : Path) :
    (backtrack ⟨v :: above, path⟩).work < work ⟨v :: above, path⟩ := by
  have hstack : (backtrack ⟨v :: above, path⟩).stack = above := by cases above <;> rfl
  rw [work, work, hstack, workFor]
  omega

/-- Each round of a search is one less to do. -/
theorem work_lt_of_search {w left : HoleWalk} (h : w.round = .search left) : left.work < w.work := by
  have htakes := w.takes_round
  rw [h] at htakes
  cases htakes with
  | @enter v child above path hfilled hchild =>
    have hsize : child.size = 1 + Tree.totalSize (Visit.pending ⟨child, 0⟩) := by
      cases child <;> rfl
    simp only [work, workFor, Visit.pending_eq_cons hchild, Tree.totalSize, hsize]
    omega
  | @leave v above path hfilled hnone => exact work_backtrack_lt v above path

/-- A hole that was found is one less to look for. -/
theorem work_lt_of_found {w left : HoleWalk} {path : Path} (h : w.round = .found path left) :
    left.work < w.work := by
  have htakes := w.takes_round
  rw [h] at htakes
  cases htakes with
  | found x entered above path => exact work_backtrack_lt _ above path

/-- The next hole, with the walk over those behind it. A walk without a hole left is over: it answers
nothing from then on. -/
def next (w : HoleWalk) : Option Path × HoleWalk :=
  match _h : w.round with
  | .finished => (none, w)
  | .found path left => (some path, left)
  | .search left => next left
termination_by w.work
decreasing_by exact work_lt_of_search _h

/-- The walk behind a hole has less to do. -/
theorem work_lt_of_next {w left : HoleWalk} {path : Path} (h : w.next = (some path, left)) :
    left.work < w.work := by
  induction w using next.induct with
  | case1 w hround =>
    rw [next, hround] at h
    cases h
  | case2 w found behind hround =>
    rw [next, hround] at h
    cases h
    exact work_lt_of_found hround
  | case3 w behind hround ih =>
    rw [next, hround] at h
    exact Nat.lt_trans (ih h) (work_lt_of_search hround)

/-- The holes of a walk, until it is over. -/
def collect (w : HoleWalk) : List Path :=
  match _h : w.next with
  | (some path, left) => path :: collect left
  | (none, _) => []
termination_by w.work
decreasing_by exact work_lt_of_next _h

end HoleWalk

namespace Tree

/-- The path of the leftmost hole. -/
def firstHole? (t : Tree) : Option Path := (HoleWalk.start t).next.1

/-- The paths of all holes, from left to right. -/
def holePaths (t : Tree) : List Path := (HoleWalk.start t).collect

end Tree

end TypedGrammar
