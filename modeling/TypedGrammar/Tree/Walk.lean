import TypedGrammar.Tree.Address

/-!
# Rules along and to the left of a path

The rules above a node and those to its left decide which constraints apply to it. These walks take
any path: where it leaves the tree they end with what they have.

A node of a tree is told apart from an equal one by where it stands (`Occurrence`).
-/

namespace TypedGrammar.Tree

mutual

/-- The rules of all filled nodes, each node before its children and these from left to right. -/
def preorderRules : Tree → List RuleId
  | apply rule children => rule :: preorderRulesOfAll children
  | immediate rule _ => [rule]
  | hole _ => []

/-- The rules of all filled nodes of several trees, from left to right. -/
def preorderRulesOfAll : List Tree → List RuleId
  | [] => []
  | t :: rest => preorderRules t ++ preorderRulesOfAll rest

end

/-- The rules met on the way along a path, the root included. The walk ends at a hole, at the end of
the path, and where the child asked for is missing. -/
def ruleSequence (t : Tree) : Path → List RuleId
  | [] => t.rule?.toList
  | i :: rest =>
    match t.rule? with
    | none => []
    | some rule =>
      rule :: match t.child? i with
        | some child => ruleSequence child rest
        | none => []

/-- The rules from the root down to the parent of the node at a path. -/
def ancestors (t : Tree) (path : Path) : List RuleId :=
  if path.isEmpty then [] else t.ruleSequence path.dropLast

/-- The rules met on the way along a path, with all those in the subtrees of earlier siblings, and at
the end of the path with the whole subtree. -/
def leftRules (t : Tree) : Path → List RuleId
  | [] => t.preorderRules
  | i :: rest =>
    match t with
    | .apply rule children =>
      rule :: preorderRulesOfAll (children.take (i - 1)) ++
        match t.child? i with
        | some child => leftRules child rest
        | none => []
    | .immediate rule _ => [rule]
    | .hole _ => []

/-- The set of the rules to the left of a path and on it. -/
def rulesOnLeft (t : Tree) (path : Path) : List RuleId := RuleId.ascending (t.leftRules path)

/-- The set of the rules of a tree. -/
def rules (t : Tree) : List RuleId := t.rulesOnLeft []

/-- Where a node stands that one wants to find again in a tree. -/
inductive Occurrence where
  /-- At a path in the very tree. -/
  | within (path : Path)
  /-- Outside of the tree; it may still be equal to a part of it. -/
  | detached

/-- The path of a node that stands in the tree. -/
def pathOf? (t : Tree) : Occurrence → Option Path
  | .within path => (t.subtree? path).map fun _ => path
  | .detached => none

end TypedGrammar.Tree
