import TypedGrammar.Tree.Holes
import Mathlib.Data.List.Forall2

/-!
# Counting over children

The functions on trees come with one on lists of trees each. Here the latter are taken apart, so that
the children of a node can be split where a path goes through.
-/

namespace TypedGrammar.Tree

/-- Trees have no hole when none of them has one. -/
theorem anyContainsHole_eq_false_iff {trees : List Tree} :
    anyContainsHole trees = false ↔ ∀ t ∈ trees, t.containsHole = false := by
  induction trees with
  | nil => simp [anyContainsHole]
  | cons t rest ih => simp [anyContainsHole, ih]

/-- The sizes of the trees on both sides of a tree add up with its own. -/
theorem totalSize_split (left : List Tree) (t : Tree) (right : List Tree) :
    totalSize (left ++ t :: right) = totalSize left + t.size + totalSize right := by
  induction left with
  | nil => rw [List.nil_append, totalSize, totalSize, Nat.zero_add]
  | cons first rest ih =>
    rw [List.cons_append, totalSize, totalSize, ih]
    omega

/-- The holes of the trees on both sides of a tree add up with its own. -/
theorem totalHoleCount_split (left : List Tree) (t : Tree) (right : List Tree) :
    totalHoleCount (left ++ t :: right) =
      totalHoleCount left + t.holeCount + totalHoleCount right := by
  induction left with
  | nil => rw [List.nil_append, totalHoleCount, totalHoleCount, Nat.zero_add]
  | cons first rest ih =>
    rw [List.cons_append, totalHoleCount, totalHoleCount, ih]
    omega

/-- A tree has at least one node. -/
theorem size_pos (t : Tree) : 0 < t.size := by
  cases t with
  | apply r children => exact Nat.lt_of_lt_of_le Nat.zero_lt_one (Nat.le_add_right 1 _)
  | immediate r value => exact Nat.zero_lt_one
  | hole h => exact Nat.zero_lt_one

end TypedGrammar.Tree
