import TypedGrammar.Grammar.Probability
import TypedGrammar.Tree.Basic

/-!
# Completeness and probability of trees

A tree is complete when it has no hole and every node has as many children as its rule asks for. The
log-probability of a tree is the sum over its rules. A hole that has one candidate counts as that
rule; any other hole counts nothing as long as nobody has looked at it, and makes the sum ambiguous
once it was narrowed.
-/

namespace TypedGrammar.Grammar

mutual

/-- Has the tree no hole, and every node as many children as its rule asks for? -/
def isComplete (g : Grammar) : Tree → Except Failure Bool
  | .apply rule children => do
    if children.length = (← g.arity rule) then g.allComplete children else return false
  | .immediate _ _ => .ok true
  | .hole _ => .ok false

/-- Are all the trees complete? -/
def allComplete (g : Grammar) : List Tree → Except Failure Bool
  | [] => .ok true
  | t :: rest => do
    if ← g.isComplete t then g.allComplete rest else return false

end

/-- The contribution of a hole to the log-probability of a tree. -/
def holeLogProbability (g : Grammar) (h : Hole) : Logged LogProbability :=
  match h.determined?, h.kind with
  | some rule, _ => g.logProbability rule
  | none, .unexpanded => pure (.exact 0.0)
  | none, .constrained => Logged.ofResult (report (.ambiguousProbability h.domain))

mutual

/-- The sum of the log-probabilities of the rules of a tree. -/
def treeLogProbability (g : Grammar) : Tree → Logged LogProbability
  | .apply rule children => do g.addLogProbabilities (← g.logProbability rule) children
  | .immediate rule _ => g.logProbability rule
  | .hole h => g.holeLogProbability h

/-- Add the log-probabilities of several trees to a sum, from left to right. -/
def addLogProbabilities (g : Grammar) (sum : LogProbability) : List Tree → Logged LogProbability
  | [] => pure sum
  | t :: rest => do g.addLogProbabilities (sum + (← g.treeLogProbability t)) rest

end

end TypedGrammar.Grammar
