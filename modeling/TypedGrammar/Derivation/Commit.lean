import TypedGrammar.Constraint.Propagation
import TypedGrammar.Grammar.Basic

/-!
# Filling holes

An ordinary rule is committed to a hole by `expand`: the hole becomes a node of the rule whose
children are holes with the full domains of their types. An immediately evaluated rule is committed
by `fillImmediate`, together with its literal. The rules to choose from are the `legalDomain` of the
hole: its own domain, narrowed by every constraint of the grammar.
-/

namespace TypedGrammar.Grammar

/-- The hole at a path; a path that leads elsewhere is reported. -/
def holeAt (t : Tree) (path : Path) : Except Failure Hole := do
  t.checkPath path
  match (← t.nodeAt path).bind Tree.hole? with
  | some h => pure h
  | none => report (.invalidPath path .notHole)

/-- Check that a rule may be committed to the hole at a path: the rule was not taken out and is a
candidate. -/
def checkCommit (g : Grammar) (t : Tree) (path : Path) (r : RuleId) : Except Failure Unit := do
  let h ← holeAt t path
  if ← g.isRemoved r then report (.removedRule r)
  else if h.domain.containsRule r then pure ()
  else report (.ruleNotInDomain r h.domain)

/-- A hole for each type of a list, with the full domain of the type. -/
def childHoles (g : Grammar) : List String → Except Failure (List Tree)
  | [] => .ok []
  | type :: rest => do
    let domain ← g.domain type
    let others ← childHoles g rest
    return .unexpanded domain :: others

/-- The node that an expansion by a rule puts in place of a hole. -/
def expansion (g : Grammar) (r : RuleId) : Except Failure Tree := do
  if ← g.isImmediate r then report (.needsValue r)
  else return .apply r (← g.childHoles (← g.childTypes r))

/-- Put a node in place of the one at a path. -/
def commit (t : Tree) (path : Path) (node : Tree) : Edit Tree Unit :=
  Tree.editNode (fun _ => ((), node)) () t path

/-- Fill the hole at a path with an ordinary rule. -/
def expand (g : Grammar) (t : Tree) (path : Path) (r : RuleId) : Edit Tree Unit :=
  let node : Except Failure Tree := do
    g.checkCommit t path r
    g.expansion r
  match node with
  | .ok node => commit t path node
  | .error failure => .failed t failure

/-- Fill the hole at a path with an immediately evaluated rule and its literal. -/
def fillImmediate (g : Grammar) (t : Tree) (path : Path) (r : RuleId) (value : Value) :
    Edit Tree Unit :=
  let check : Except Failure Unit := do
    g.checkCommit t path r
    if ← g.isImmediate r then pure () else report (.notImmediate r)
  match check with
  | .ok () => commit t path (.immediate r value)
  | .error failure => .failed t failure

/-- The rules that may fill the hole at a path. -/
def legalDomain (g : Grammar) (t : Tree) (path : Path) : Except Failure BitSet := do
  let h ← holeAt t path
  return Constraint.propagateAll g.constraints t path h.domain

/-- The tree to start a derivation of a type with: a hole with the full domain of the type. -/
def rootHole (g : Grammar) (type : String) : Except Failure Tree := do
  return .unexpanded (← g.domain type)

end TypedGrammar.Grammar
