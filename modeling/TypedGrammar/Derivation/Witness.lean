import TypedGrammar.Derivation.Count
import TypedGrammar.Tree.Basic

/-!
# A derivation of bounded depth

`oneDerivation` finds a complete tree of a type of at most some depth, with the lower rule first at
every node. Immediately evaluated rules are passed over, since they need a literal. Types that have
no tree of some depth are remembered.
-/

namespace TypedGrammar.Grammar

/-- The types that are known to have no tree of some depth. -/
abbrev DeadEnds := List (String × Nat)

section Step

variable (g : Grammar) (find : String → DeadEnds → Except Failure (Option Tree × DeadEnds))

/-- A tree for each type of a list, unless one of them has none. -/
def findChildren (dead : DeadEnds) : List String → Except Failure (Option (List Tree) × DeadEnds)
  | [] => .ok (some [], dead)
  | type :: rest => do
    match ← find type dead with
    | (none, dead') => return (none, dead')
    | (some t, dead') =>
      let (others, dead'') ← findChildren dead' rest
      return (others.map (t :: ·), dead'')

/-- The first ordinary rule of a list whose children can all be found. -/
def findRuleNode (dead : DeadEnds) : List RuleId → Except Failure (Option Tree × DeadEnds)
  | [] => .ok (none, dead)
  | r :: rest => do
    if ← g.isImmediate r then findRuleNode dead rest
    else
      match ← findChildren find dead (← g.childTypes r) with
      | (some children, dead') => return (some (.apply r children), dead')
      | (none, dead') => findRuleNode dead' rest

end Step

/-- A tree of a type of at most some depth, with the dead ends known so far. -/
def findType (g : Grammar) : Nat → String → DeadEnds → Except Failure (Option Tree × DeadEnds)
  | 0, _, dead => .ok (none, dead)
  | depth + 1, type, dead =>
    if dead.contains (type, depth + 1) then .ok (none, dead)
    else do
      match ← findRuleNode g (findType g depth) dead (g.rulesOrNone type) with
      | (some t, dead') => return (some t, dead')
      | (none, dead') => return (none, (type, depth + 1) :: dead')

/-- A complete tree of a type of at most some depth, without immediately evaluated rules. -/
def oneDerivation (g : Grammar) (type : String) (depth : Nat) : Except Failure (Option Tree) :=
  if g.hasType type then do return (← g.findType depth type []).1
  else report (.unknownType type)

end TypedGrammar.Grammar
