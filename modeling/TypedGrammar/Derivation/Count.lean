import TypedGrammar.Grammar.Basic

/-!
# Counting derivations

The number of complete trees of a type is a sum over its rules; for each rule it is a product over
the types of its children, with one level less. An immediately evaluated rule counts once, whatever
its literal. Numbers that were computed are kept for their type and depth, and a product is left at
the first zero.
-/

namespace TypedGrammar.Grammar

/-- The numbers computed so far, for a type and a depth. -/
abbrev CountMemo := List ((String × Nat) × Nat)

/-- The rules of a type; none for a type without rules. -/
def rulesOrNone (g : Grammar) (type : String) : List RuleId :=
  ((g.types.get? type).map TypeEntry.rules).getD []

section Step

variable (g : Grammar) (count : String → CountMemo → Except Failure (Nat × CountMemo))

/-- The product of the numbers of a list of types, times a factor. -/
def countProduct (factor : Nat) (memo : CountMemo) :
    List String → Except Failure (Nat × CountMemo)
  | [] => .ok (factor, memo)
  | type :: rest => do
    let (n, memo') ← count type memo
    if factor * n = 0 then return (0, memo') else countProduct (factor * n) memo' rest

/-- The sum over a list of rules of the products over the types of their children. -/
def countSum (memo : CountMemo) : List RuleId → Except Failure (Nat × CountMemo)
  | [] => .ok (0, memo)
  | r :: rest => do
    let (product, memo') ← countProduct count 1 memo (← g.childTypes r)
    let (sum, memo'') ← countSum memo' rest
    return (product + sum, memo'')

end Step

/-- The number of complete trees of a type of at most some depth, with the numbers known so far. -/
def countType (g : Grammar) : Nat → String → CountMemo → Except Failure (Nat × CountMemo)
  | 0, _, memo => .ok (0, memo)
  | depth + 1, type, memo =>
    match memo.lookup (type, depth + 1) with
    | some n => .ok (n, memo)
    | none => do
      let (n, memo') ← countSum g (countType g depth) memo (g.rulesOrNone type)
      return (n, ((type, depth + 1), n) :: memo')

/-- The number of complete trees of a type of at most some depth. -/
def countDerivations (g : Grammar) (type : String) (depth : Nat) : Except Failure Nat :=
  if g.hasType type then do return (← g.countType depth type []).1
  else report (.unknownType type)

end TypedGrammar.Grammar
