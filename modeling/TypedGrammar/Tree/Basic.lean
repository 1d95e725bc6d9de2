import TypedGrammar.BitSet
import TypedGrammar.Value

/-!
# Derivation trees

A node of a derivation tree applies a rule to children, or holds the literal that an immediately
evaluated rule gave, or is a hole. A hole has a domain, the rules that may still fill it. Nothing
here knows a grammar, so a tree may well apply a rule to the wrong number of children.

A tree with a hole is not equal to any tree in the sense of `same`, itself included: what will fill
the hole is not known.
-/

namespace TypedGrammar

/-- Why a hole is open. -/
inductive HoleKind where
  /-- Nobody has looked at the hole; its domain is that of its type. -/
  | unexpanded
  /-- The domain was narrowed to a real set of candidates. -/
  | constrained
deriving DecidableEq

/-- An open choice. -/
structure Hole where
  /-- The rules that may fill the hole. -/
  domain : BitSet
  kind : HoleKind

namespace Hole

/-- The rule that fills the hole, when there is exactly one candidate. -/
def determined? (h : Hole) : Option RuleId :=
  if h.domain.isSingleton then h.domain.firstRule? else none

/-- Has the hole no candidate at all? -/
def isUnsatisfiable (h : Hole) : Bool := h.domain.isEmpty

/-- Keep the allowed candidates only. A narrowed hole counts as constrained. -/
def narrow (h : Hole) (allowed : BitSet) : Hole := ⟨h.domain.inter allowed, .constrained⟩

end Hole

/-- A derivation tree, finished or not. -/
inductive Tree where
  /-- A rule applied to children. -/
  | apply (rule : RuleId) (children : List Tree)
  /-- An immediately evaluated rule with its literal. -/
  | immediate (rule : RuleId) (value : Value)
  /-- An open choice. -/
  | hole (hole : Hole)

namespace Tree

instance : Inhabited Tree := ⟨.hole ⟨.empty, .unexpanded⟩⟩

/-- A hole that nobody has looked at. -/
def unexpanded (domain : BitSet) : Tree := .hole ⟨domain, .unexpanded⟩

/-- The rule of the root, unless it is a hole. -/
def rule? : Tree → Option RuleId
  | apply rule _ => some rule
  | immediate rule _ => some rule
  | hole _ => none

/-- The children of the root. -/
def children : Tree → List Tree
  | apply _ children => children
  | immediate _ _ => []
  | hole _ => []

/-- The hole that the root is. -/
def hole? : Tree → Option Hole
  | hole h => some h
  | _ => none

/-- Is the root a hole? -/
def isHole (t : Tree) : Bool := t.hole?.isSome

mutual

/-- Is there a hole in the tree? -/
def containsHole : Tree → Bool
  | apply _ children => anyContainsHole children
  | immediate _ _ => false
  | hole _ => true

/-- Is there a hole in one of the trees? -/
def anyContainsHole : List Tree → Bool
  | [] => false
  | t :: rest => containsHole t || anyContainsHole rest

end

mutual

/-- The number of nodes, holes included. -/
def size : Tree → Nat
  | apply _ children => 1 + totalSize children
  | immediate _ _ => 1
  | hole _ => 1

/-- The number of nodes of all the trees. -/
def totalSize : List Tree → Nat
  | [] => 0
  | t :: rest => size t + totalSize rest

end

/-- A tree has one node more than its children together. -/
theorem size_eq (t : Tree) : t.size = 1 + totalSize t.children := by
  cases t <;> rfl

/-- The sizes of two lists of trees add up. -/
theorem totalSize_append (left right : List Tree) :
    totalSize (left ++ right) = totalSize left + totalSize right := by
  induction left with
  | nil => rw [List.nil_append, totalSize, Nat.zero_add]
  | cons t rest ih => rw [List.cons_append, totalSize, totalSize, ih, Nat.add_assoc]

/-- The order of trees does not matter for their size. -/
theorem totalSize_reverse (trees : List Tree) : totalSize trees.reverse = totalSize trees := by
  induction trees with
  | nil => rfl
  | cons t rest ih =>
    rw [List.reverse_cons, totalSize_append, ih, totalSize, totalSize, totalSize, Nat.add_zero,
      Nat.add_comm]

mutual

/-- The number of nodes on the longest way from the root to a leaf. -/
def depth : Tree → Nat
  | apply _ children => 1 + maxDepth children
  | immediate _ _ => 1
  | hole _ => 1

/-- The greatest depth of the trees; zero if there is none. -/
def maxDepth : List Tree → Nat
  | [] => 0
  | t :: rest => max (depth t) (maxDepth rest)

end

mutual

/-- The number of holes. -/
def holeCount : Tree → Nat
  | apply _ children => totalHoleCount children
  | immediate _ _ => 0
  | hole _ => 1

/-- The number of holes of all the trees. -/
def totalHoleCount : List Tree → Nat
  | [] => 0
  | t :: rest => holeCount t + totalHoleCount rest

end

mutual

/-- Are the trees built alike, with the same rules and literals and without a hole? -/
def same : Tree → Tree → Bool
  | apply r children, apply r' children' => r = r' && allSame children children'
  | immediate r v, immediate r' v' => r = r' && v = v'
  | _, _ => false

/-- Are the lists equally long, with trees that are built alike? -/
def allSame : List Tree → List Tree → Bool
  | [], [] => true
  | t :: rest, t' :: rest' => same t t' && allSame rest rest'
  | _, _ => false

end

mutual

/-- The text of a tree: the number of each rule followed by its children between braces, a literal
behind an equals sign, and the domain of a hole behind a question mark. -/
def text : Tree → String
  | apply r [] => r.text
  | apply r (t :: rest) => r.text ++ "\x7b" ++ text t ++ restText rest ++ "\x7d"
  | immediate r v => r.text ++ "=" ++ v.text
  | hole h => "?" ++ h.domain.text

/-- The texts of the further children, each behind a comma. -/
def restText : List Tree → String
  | [] => ""
  | t :: rest => "," ++ text t ++ restText rest

end

end Tree

end TypedGrammar
