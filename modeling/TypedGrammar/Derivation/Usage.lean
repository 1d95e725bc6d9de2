import TypedGrammar.Grammar.Basic
import TypedGrammar.Tree.Walk

/-!
# Rules of a type in a tree

Which rules of a type does a tree use? One subtree can be left out of the question. It is meant by
where it stands, so that an equal subtree elsewhere still counts.
-/

namespace TypedGrammar.Grammar

/-- The rules of a list that have a type. -/
def rulesWithType (g : Grammar) (type : String) : List RuleId → Except Failure (List RuleId)
  | [] => .ok []
  | r :: rest => do
    let found ← g.returnType r
    let others ← rulesWithType g type rest
    return if found = type then r :: others else others

/-- The set of the rules of a type that a tree uses. -/
def usedRulesOfType (g : Grammar) (t : Tree) (type : String) : Except Failure (List RuleId) :=
  g.rulesWithType type t.rules

/-- The rules of a type that the nodes of a stack use, and those below them, outside of the node at a
path. Each node is kept with the path at which it stands. The children of a node go onto the stack from
left to right, so that the last one is looked at next. -/
def usedFrom (g : Grammar) (type : String) (ignored : Option Path) (stack : List (Path × Tree)) :
    Except Failure (List RuleId) :=
  match stack with
  | [] => .ok []
  | (path, t) :: stack =>
    if ignored = some path then g.usedFrom type ignored stack
    else do
      let own ← g.rulesWithType type t.rule?.toList
      let others ← g.usedFrom type ignored ((t.childrenAt path).reverse ++ stack)
      return own ++ others
termination_by Tree.totalSize (stack.map Prod.snd)
decreasing_by
  · simp only [List.map_cons, Tree.totalSize, Tree.size_eq]
    omega
  · simp only [List.map_append, List.map_reverse, Tree.map_snd_childrenAt, List.map_cons,
      Tree.totalSize_append, Tree.totalSize_reverse, Tree.totalSize, Tree.size_eq]
    omega

/-- The set of the rules of a type that a tree uses outside of one of its nodes. -/
def usedRulesOfTypeIgnoring (g : Grammar) (t : Tree) (type : String) (ignored : Tree.Occurrence) :
    Except Failure (List RuleId) := do
  return RuleId.ascending (← g.usedFrom type (t.pathOf? ignored) [([], t)])

end TypedGrammar.Grammar
