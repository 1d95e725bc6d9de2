import TypedGrammar.Proofs.Tree.PathWalks
import TypedGrammar.Tree.Holes

/-!
# The walk over the holes

The walk finds the holes one at a time. Each node on its stack still has some holes to offer, those of the
children that were not entered, and the path of a node is that of the one before it without the last
index. So the stack stands for a list of paths. A round of the search leaves the list as it is or answers
its head, and at the start it is the list that the traversal of the tree from left to right gives. This
has the path of every hole, in lexicographic order and thus once.
-/

namespace TypedGrammar

namespace Tree

mutual

/-- The paths of the holes of a tree, by going through its children from left to right. -/
def holePositions : Tree → List Path
  | apply _ children => holePositionsFrom 1 children
  | immediate _ _ => []
  | hole _ => [[]]

/-- The paths of the holes of the children from an index on. -/
def holePositionsFrom (index : Nat) : List Tree → List Path
  | [] => []
  | t :: rest => (holePositions t).map (index :: ·) ++ holePositionsFrom (index + 1) rest

end

variable {t : Tree} {path : Path} {trees left right : List Tree} {index : Nat}

/-! ### The holes and their order -/

/-- The holes of the children after some others. -/
theorem holePositionsFrom_append (index : Nat) (left right : List Tree) :
    holePositionsFrom index (left ++ right) =
      holePositionsFrom index left ++ holePositionsFrom (index + left.length) right := by
  induction left generalizing index with
  | nil => simp [holePositionsFrom]
  | cons t rest ih => simp [holePositionsFrom, ih, Nat.add_assoc, Nat.add_comm 1]

/-- The holes of the children from an index on are those of each child, behind the index of the child. -/
theorem mem_holePositionsFrom : path ∈ holePositionsFrom index trees ↔
    ∃ i t rest, trees[i]? = some t ∧ rest ∈ t.holePositions ∧ path = (index + i) :: rest := by
  induction trees generalizing index with
  | nil => simp [holePositionsFrom]
  | cons t others ih =>
    rw [holePositionsFrom, List.mem_append, List.mem_map, ih]
    constructor
    · rintro (⟨rest, hrest, rfl⟩ | ⟨i, child, rest, hchild, hrest, rfl⟩)
      · exact ⟨0, t, rest, rfl, hrest, rfl⟩
      · exact ⟨i + 1, child, rest, hchild, hrest, by rw [Nat.add_assoc, Nat.add_comm 1]⟩
    · rintro ⟨_ | i, child, rest, hchild, hrest, rfl⟩
      · obtain rfl : t = child := Option.some.inj hchild
        exact .inl ⟨rest, hrest, rfl⟩
      · exact .inr ⟨i, child, rest, hchild, hrest, by rw [Nat.add_assoc, Nat.add_comm 1]⟩

/-- Below the root there are the holes of the children. -/
theorem cons_mem_holePositions {i : Nat} {rest : Path} :
    i :: rest ∈ t.holePositions ↔ ∃ child, t.child? i = some child ∧ rest ∈ child.holePositions := by
  cases t with
  | apply r children =>
    rw [holePositions, mem_holePositionsFrom]
    constructor
    · rintro ⟨k, child, below, hchild, hbelow, hpath⟩
      obtain ⟨rfl, rfl⟩ := List.cons.inj hpath
      exact ⟨child, by rw [Nat.add_comm]; exact hchild, hbelow⟩
    · rintro ⟨child, hchild, hrest⟩
      cases i with
      | zero => cases hchild
      | succ k => exact ⟨k, child, rest, hchild, hrest, by rw [Nat.add_comm]⟩
  | immediate r value =>
    simp [holePositions, child?_eq_none (t := immediate r value) rfl i]
  | hole h => simp [holePositions, child?_eq_none (t := hole h) rfl i]

/-- The traversal lists the paths that lead to a hole. -/
theorem mem_holePositions : path ∈ t.holePositions ↔ ∃ h, t.subtree? path = some (.hole h) := by
  induction path generalizing t with
  | nil =>
    cases t with
    | apply r children => simp [holePositions, mem_holePositionsFrom, subtree?]
    | immediate r value => simp [holePositions, subtree?]
    | hole h => simp [holePositions, subtree?]
  | cons i rest ih =>
    simp only [cons_mem_holePositions, ih, subtree?, Option.bind_eq_some_iff]
    constructor
    · rintro ⟨child, hchild, h, hrest⟩
      exact ⟨h, child, hchild, hrest⟩
    · rintro ⟨h, child, hchild, hrest⟩
      exact ⟨child, hchild, h, hrest⟩

mutual

/-- The traversal lists the paths in lexicographic order. -/
theorem holePositions_pairwise : ∀ t : Tree, t.holePositions.Pairwise (· < ·)
  | apply _ children => holePositionsFrom_pairwise 1 children
  | immediate _ _ => .nil
  | hole _ => List.pairwise_singleton _ _

/-- The positions of holes in several trees ascend. The first index of a hole in a later child is
greater. -/
theorem holePositionsFrom_pairwise (index : Nat) : ∀ trees : List Tree,
    (holePositionsFrom index trees).Pairwise (· < ·)
  | [] => .nil
  | t :: rest => by
    rw [holePositionsFrom]
    refine List.pairwise_append.mpr
      ⟨List.pairwise_map.mpr ?_, holePositionsFrom_pairwise (index + 1) rest, ?_⟩
    · exact (holePositions_pairwise t).imp fun h => List.cons_lt_cons_iff.mpr (.inr ⟨rfl, h⟩)
    · intro path hpath other hother
      obtain ⟨below, -, rfl⟩ := List.mem_map.mp hpath
      obtain ⟨i, child, below', -, -, rfl⟩ := mem_holePositionsFrom.mp hother
      exact List.cons_lt_cons_iff.mpr (.inl (by omega))

end

/-- The traversal lists no path twice. -/
theorem nodup_holePositions (t : Tree) : t.holePositions.Nodup := by
  refine t.holePositions_pairwise.imp fun {path other} hlt hsame => ?_
  subst hsame
  exact List.lt_irrefl path hlt

mutual

/-- The traversal lists as many paths as there are holes. -/
theorem length_holePositions : ∀ t : Tree, t.holePositions.length = t.holeCount
  | apply _ children => length_holePositionsFrom 1 children
  | immediate _ _ => rfl
  | hole _ => rfl

/-- There are as many positions of holes as holes in several trees. -/
theorem length_holePositionsFrom (index : Nat) : ∀ trees : List Tree,
    (holePositionsFrom index trees).length = totalHoleCount trees
  | [] => rfl
  | t :: rest => by
    rw [holePositionsFrom, List.length_append, List.length_map, length_holePositions t,
      length_holePositionsFrom (index + 1) rest, totalHoleCount]

end

mutual

/-- The traversal lists nothing exactly when there is no hole. -/
theorem holePositions_eq_nil_iff : ∀ t : Tree, t.holePositions = [] ↔ t.containsHole = false
  | apply _ children => holePositionsFrom_eq_nil_iff 1 children
  | immediate _ _ => iff_of_true rfl rfl
  | hole _ => iff_of_false nofun nofun

/-- Several trees have no position of a hole when none of them has a hole. -/
theorem holePositionsFrom_eq_nil_iff (index : Nat) : ∀ trees : List Tree,
    holePositionsFrom index trees = [] ↔ anyContainsHole trees = false
  | [] => iff_of_true rfl rfl
  | t :: rest => by
    simp [holePositionsFrom, anyContainsHole, holePositions_eq_nil_iff t,
      holePositionsFrom_eq_nil_iff (index + 1) rest]

end

end Tree

/-! ### The walk -/

/-- The holes that a visited node still has to offer: itself, or those of the children that were not
entered. -/
def Visit.holes (v : Visit) : List Path :=
  match v.node with
  | .hole _ => [[]]
  | _ => Tree.holePositionsFrom (v.entered + 1) v.pending

/-- A node that was just entered has all its holes to offer. -/
theorem Visit.holes_entered (t : Tree) : Visit.holes ⟨t, 0⟩ = t.holePositions := by
  cases t <;> rfl

/-- A node that is no hole offers those of the children that were not entered. -/
theorem Visit.holes_of_filled {v : Visit} (h : v.node.isHole = false) :
    v.holes = Tree.holePositionsFrom (v.entered + 1) v.pending := by
  obtain ⟨node, entered⟩ := v
  cases node with
  | apply r children => rfl
  | immediate r value => rfl
  | hole x => cases h

namespace HoleWalk

variable {w left : HoleWalk} {v : Visit} {above : List Visit} {path : Path}

/-- The paths of the holes that the nodes of a stack still have to offer. One index less leads to the
node above. -/
def remainingFrom : List Visit → Path → List Path
  | [], _ => []
  | v :: above, path => v.holes.map (path ++ ·) ++ remainingFrom above path.dropLast

/-- The paths of the holes that a walk has not found yet. -/
def remaining (w : HoleWalk) : List Path := remainingFrom w.stack w.path

/-- At the start all holes are left. -/
@[simp] theorem remaining_start (t : Tree) : (start t).remaining = t.holePositions := by
  simp [start, remaining, remainingFrom, Visit.holes_entered]

/-- Leaving a node leaves the holes of those above it. -/
theorem remaining_backtrack (v : Visit) (above : List Visit) (path : Path) :
    (backtrack ⟨v :: above, path⟩).remaining = remainingFrom above path.dropLast := by
  cases above <;> rfl

/-! What each kind of round does to the holes that are left. -/

/-- A walk that is finished has no hole left. -/
theorem remaining_of_finished (h : w.round = .finished) : w.remaining = [] := by
  have htakes := w.takes_round
  rw [h] at htakes
  cases htakes with
  | finished path => rfl

/-- A hole that is found is the first of those left. -/
theorem remaining_of_found (h : w.round = .found path left) :
    w.remaining = path :: left.remaining := by
  have htakes := w.takes_round
  rw [h] at htakes
  cases htakes with
  | found x entered above path =>
    rw [remaining_backtrack]
    simp [remaining, remainingFrom, Visit.holes]

/-- Going on with the search leaves out no hole. -/
theorem remaining_of_search (h : w.round = .search left) : left.remaining = w.remaining := by
  have htakes := w.takes_round
  rw [h] at htakes
  cases htakes with
  | @enter v child above path hfilled hchild =>
    have hhere : v.holes = Tree.holePositionsFrom (v.entered + 1) v.pending :=
      Visit.holes_of_filled hfilled
    have hbehind : Visit.holes ⟨v.node, v.entered + 1⟩ =
        Tree.holePositionsFrom (v.entered + 1 + 1) (Visit.pending ⟨v.node, v.entered + 1⟩) :=
      Visit.holes_of_filled hfilled
    simp [remaining, remainingFrom, Visit.holes_entered, hhere, hbehind,
      Visit.pending_eq_cons hchild, Tree.holePositionsFrom, Function.comp_def]
  | @leave v above path hfilled hnone =>
    have hpending : v.pending = [] := List.drop_eq_nil_iff.mpr (List.getElem?_eq_none_iff.mp hnone)
    rw [remaining_backtrack, remaining, remainingFrom, Visit.holes_of_filled hfilled, hpending]
    rfl

/-- The next answer of a walk is the first hole that is left. -/
theorem next_fst (w : HoleWalk) : w.next.1 = w.remaining.head? := by
  induction w using next.induct with
  | case1 w hround => rw [next, hround, remaining_of_finished hround]; rfl
  | case2 w path left hround => rw [next, hround, remaining_of_found hround]; rfl
  | case3 w left hround ih => rw [next, hround, ← remaining_of_search hround]; exact ih

/-- The answer leaves the holes behind the first one. -/
theorem remaining_next (w : HoleWalk) : w.next.2.remaining = w.remaining.tail := by
  induction w using next.induct with
  | case1 w hround => rw [next, hround]; simp only [remaining_of_finished hround, List.tail_nil]
  | case2 w path left hround => rw [next, hround, remaining_of_found hround]; rfl
  | case3 w left hround ih => rw [next, hround, ← remaining_of_search hround]; exact ih

/-- The walk after a number of steps. -/
def after (w : HoleWalk) : Nat → HoleWalk
  | 0 => w
  | n + 1 => after w.next.2 n

/-- Each step of the walk answers one of the holes, in order. -/
theorem next_after (w : HoleWalk) (n : Nat) : (w.after n).next.1 = w.remaining[n]? := by
  induction n generalizing w with
  | zero => rw [after, next_fst, List.head?_eq_getElem?]
  | succ n ih => rw [after, ih, remaining_next, List.getElem?_tail]

/-- The answers of a walk until it is over are the holes that are left. -/
theorem collect_eq (w : HoleWalk) : w.collect = w.remaining := by
  induction w using collect.induct with
  | case1 w path left hnext ih =>
    have hfirst := w.next_fst
    have hbehind := w.remaining_next
    rw [hnext] at hfirst hbehind
    rw [collect, hnext, ← List.cons_head?_tail (Option.mem_def.mpr hfirst.symm), ← hbehind, ← ih]
  | case2 w left hnext =>
    have hfirst := w.next_fst
    rw [hnext] at hfirst
    rw [collect, hnext, List.head?_eq_none_iff.mp hfirst.symm]

end HoleWalk

namespace Tree

/-- The drained walk gives the list of the traversal. -/
theorem holePaths_eq (t : Tree) : t.holePaths = t.holePositions := by
  rw [holePaths, HoleWalk.collect_eq, HoleWalk.remaining_start]

/-- The node at a path is the subtree there. -/
theorem nodeAt_eq_some_iff {t node : Tree} {path : Path} :
    t.nodeAt path = .ok (some node) ↔ t.subtree? path = some node := by
  constructor
  · intro h
    obtain ⟨ctx, rfl, rfl, -⟩ := exists_context_of_nodeAt h
    exact ctx.subtree?_plug node
  · intro h
    obtain ⟨ctx, rfl, rfl⟩ := exists_context_of_subtree? h
    exact ctx.nodeAt_plug node

/-- The walk answers no path twice. -/
theorem nodup_holePaths (t : Tree) : t.holePaths.Nodup := t.holePaths_eq ▸ t.nodup_holePositions

end Tree

/-! ### The leftmost hole -/

namespace Context

variable {ctx : Context}

/-- The paths of the holes to the left of the open place. -/
def holesBefore : Context → List Path
  | [] => []
  | f :: rest => Tree.holePositionsFrom 1 f.left ++ (holesBefore rest).map (f.index :: ·)

/-- There is none when no child to the left of the way has one. -/
theorem holesBefore_eq_nil_iff : ctx.holesBefore = [] ↔ ctx.ClosedLeft := by
  induction ctx with
  | nil => exact iff_of_true rfl nofun
  | cons f rest ih =>
    simp [holesBefore, ClosedLeft, Tree.holePositionsFrom_eq_nil_iff, ih]

/-- The paths of the holes to the right of the open place. -/
def holesBehind : Context → List Path
  | [] => []
  | f :: rest =>
    (holesBehind rest).map (f.index :: ·) ++ Tree.holePositionsFrom (f.index + 1) f.right

/-- The holes of a filled context, from left to right. -/
theorem holePositions_plug (ctx : Context) (t : Tree) : (ctx.plug t).holePositions =
    ctx.holesBefore ++ t.holePositions.map (ctx.path ++ ·) ++ ctx.holesBehind := by
  induction ctx with
  | nil => simp [plug, holesBefore, holesBehind, path]
  | cons f rest ih =>
    have hindex : 1 + f.left.length = f.index := Nat.add_comm 1 f.left.length
    rw [plug, Frame.plug, Tree.holePositions, Tree.holePositionsFrom_append, hindex,
      Tree.holePositionsFrom, ih]
    simp [holesBefore, holesBehind, Function.comp_def]

end Context

namespace Tree

/-- A tree without holes has no first hole, and any other tree is a context, without holes to the left of
its open place, around the first. A hole to the left of the open place would come first in the list, where
the open place is, which comes only once. -/
theorem firstHole?_eq (t : Tree) : (t.containsHole = false ∧ t.firstHole? = none) ∨
    ∃ (ctx : Context) (h : Hole), t = ctx.plug (.hole h) ∧ ctx.ClosedLeft ∧
      t.firstHole? = some ctx.path := by
  have hfirst : t.firstHole? = t.holePositions.head? := by
    rw [firstHole?, HoleWalk.next_fst, HoleWalk.remaining_start]
  cases hholes : t.holePositions with
  | nil => exact .inl ⟨holePositions_eq_nil_iff t |>.mp hholes, by rw [hfirst, hholes]; rfl⟩
  | cons path behind =>
    have hpath : path ∈ t.holePositions := by simp [hholes]
    obtain ⟨h, hhole⟩ := mem_holePositions.mp hpath
    obtain ⟨ctx, rfl, rfl⟩ := exists_context_of_subtree? hhole
    refine .inr ⟨ctx, h, rfl, Context.holesBefore_eq_nil_iff.mp ?_, by rw [hfirst, hholes]; rfl⟩
    have hnodup := (ctx.plug (.hole h)).nodup_holePositions
    rw [Context.holePositions_plug] at hholes hnodup
    cases hbefore : ctx.holesBefore with
    | nil => rfl
    | cons first others =>
      rw [hbefore] at hholes hnodup
      obtain rfl : first = ctx.path := (List.cons.inj hholes).1
      simp [holePositions] at hnodup

/-! ### The whole list -/

/-- The walk over the holes of a tree lists each of them once, from left to right. -/
structure WalksHoles (t : Tree) : Prop where
  /-- The answers of the walk are the paths in the list, and nothing from then on. -/
  answers : ∀ n, ((HoleWalk.start t).after n).next.1 = t.holePaths[n]?
  /-- The walk is over after as many steps as there are paths in the list, and stays so. -/
  ends_iff : ∀ n, ((HoleWalk.start t).after n).next.1 = none ↔ t.holePaths.length ≤ n
  /-- The list is that of the traversal from left to right. -/
  eq_traversal : t.holePaths = t.holePositions
  /-- The list has the paths that lead to a hole. -/
  mem_iff : ∀ path, path ∈ t.holePaths ↔ ∃ h, t.nodeAt path = .ok (some (.hole h))
  /-- The paths are in lexicographic order. -/
  ascending : t.holePaths.Pairwise (· < ·)
  /-- No path comes twice. -/
  nodup : t.holePaths.Nodup
  /-- The list is empty exactly when the tree has no hole. -/
  eq_nil_iff : t.holePaths = [] ↔ t.containsHole = false

/-- For every tree the walk over its holes comes to an end and stays there. Before that it answers the
path of each hole once, in lexicographic order, as the traversal of the tree from left to right does. -/
theorem walksHoles (t : Tree) : WalksHoles t where
  answers n := by rw [HoleWalk.next_after, HoleWalk.remaining_start, holePaths_eq]
  ends_iff n := by
    rw [HoleWalk.next_after, HoleWalk.remaining_start, holePaths_eq, List.getElem?_eq_none_iff]
  eq_traversal := t.holePaths_eq
  mem_iff path := by simp only [holePaths_eq, mem_holePositions, nodeAt_eq_some_iff]
  ascending := t.holePaths_eq ▸ t.holePositions_pairwise
  nodup := t.nodup_holePaths
  eq_nil_iff := by rw [holePaths_eq, holePositions_eq_nil_iff]

end Tree

end TypedGrammar
