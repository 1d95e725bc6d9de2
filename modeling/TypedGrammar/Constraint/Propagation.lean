import TypedGrammar.Sequence
import TypedGrammar.Tree.Walk

/-!
# Narrowing the domain of a hole

A constraint takes rules out of the domain of a hole, given the tree and the path of the hole. What
is left is part of the domain, and nothing but the tree and the path decides what goes.
-/

namespace TypedGrammar.Constraint

/-- The rules of an order that may not come yet: those behind the first one that is missing on the
left. -/
def blocked (left : List RuleId) (order : List RuleId) : List RuleId :=
  (order.dropWhile fun rule => left.contains rule).drop 1

/-- Narrow the domain of the hole at a path of a tree. -/
def propagate (c : Constraint) (t : Tree) (path : Path) (domain : BitSet) : BitSet :=
  match c with
  | comesAfter rule predecessors =>
    if domain.containsRule rule && !Sequence.isSubsequence predecessors (t.ancestors path) then
      domain.eraseRule rule
    else domain
  | ordered order => (blocked (t.rulesOnLeft path) order).foldl BitSet.eraseRule domain
  | forbidden sequence =>
    match sequence.getLast? with
    | none => domain
    | some last =>
      if domain.containsRule last && Sequence.containsRun sequence.dropLast (t.ancestors path) then
        domain.eraseRule last
      else domain

/-- Narrow a domain by every constraint of a list in turn. -/
def propagateAll (constraints : List Constraint) (t : Tree) (path : Path) (domain : BitSet) :
    BitSet :=
  constraints.foldl (fun narrowed c => c.propagate t path narrowed) domain

end TypedGrammar.Constraint
