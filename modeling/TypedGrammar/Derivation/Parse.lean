import TypedGrammar.Grammar.Basic
import TypedGrammar.Tree.Basic

/-!
# Parsing expressions

`fromExpression` finds a tree of a type that stands for an expression. Ordinary rules are tried in
their order, and the first one whose body matches is taken; a literal that no ordinary rule gives is
left to the first immediately evaluated rule of the type.

A rule whose body is a bare placeholder matches the same expression by another type. The types that
are being tried on one expression are remembered, so that rules which lead back to a type that is
being tried are cut off. The arguments of a call start without remembered types.
-/

namespace TypedGrammar.Grammar

section MatchBody

variable (g : Grammar)
  (matchType : String → Expr → List String → Except Failure (Option Tree))

mutual

/-- Match the body of a rule against an expression. The answer is the list of the children that fill
its placeholders. -/
def matchBody : Expr → Expr → List String → Except Failure (Option (List Tree))
  | .sym name, e, visiting =>
    if g.hasType name then do
      return (← matchType name e visiting).map fun child => [child]
    else
      match e with
      | .lit value => .ok (if g.symbols.constant name = some value then some [] else none)
      | e => .ok (if .sym name = e then some [] else none)
  | .call op args, .call op' args', _ =>
    if op = op' && args.length = args'.length then matchArgs args args' else .ok none
  | .call _ _, .lit _, _ => .ok none
  | .call _ _, .sym _, _ => .ok none
  | .lit value, e, _ => .ok (if .lit value = e then some [] else none)

/-- Match argument by argument. -/
def matchArgs : List Expr → List Expr → Except Failure (Option (List Tree))
  | [], _ => .ok (some [])
  | _ :: _, [] => .ok none
  | arg :: rest, e :: others => do
    match ← matchBody arg e [] with
    | none => return none
    | some children =>
      return (← matchArgs rest others).map (children ++ ·)

end

/-- The first ordinary rule of a list whose body matches the expression, applied to the children that
fill its placeholders. -/
def matchOrdinary (e : Expr) (visiting : List String) :
    List RuleId → Except Failure (Option Tree)
  | [] => .ok none
  | r :: rest => do
    if ← g.isImmediate r then matchOrdinary e visiting rest
    else
      match ← matchBody g matchType (← g.body r) e visiting with
      | some children => return some (.apply r children)
      | none => matchOrdinary e visiting rest

/-- The first immediately evaluated rule of a list. -/
def firstImmediate? : List RuleId → Except Failure (Option RuleId)
  | [] => .ok none
  | r :: rest => do if ← g.isImmediate r then return some r else firstImmediate? rest

/-- The first immediately evaluated rule of a list, with the literal that the expression is. -/
def matchImmediate (rules : List RuleId) : Expr → Except Failure (Option Tree)
  | .lit value => do return (← g.firstImmediate? rules).map (Tree.immediate · value)
  | _ => .ok none

end MatchBody

/-- Find a tree of a type for an expression, where some types are being tried on it already. The fuel
bounds how deeply searches for a type are nested; a search without fuel finds nothing. -/
def matchType (g : Grammar) : Nat → String → Expr → List String → Except Failure (Option Tree)
  | 0, _, _, _ => .ok none
  | fuel + 1, type, e, visiting =>
    if visiting.contains type then .ok none
    else
      match g.types.get? type with
      | none => .ok none
      | some entry => do
        match ← matchOrdinary g (matchType g fuel) e (type :: visiting) entry.rules with
        | some t => return some t
        | none => g.matchImmediate entry.rules e

/-- How deeply searches for a type can be nested: on one expression each type is tried once, and one
search more may be cut off at once. -/
def parseFuel (g : Grammar) (e : Expr) : Nat := (g.types.size + 1) * e.height + 1

/-- The tree of a type that stands for an expression. -/
def fromExpression (g : Grammar) (e : Expr) (type : String) : Except Failure Tree :=
  if g.hasType type then do
    match ← g.matchType (g.parseFuel e) type e [] with
    | some t => pure t
    | none => report (.noMatchingRule type e)
  else report (.unknownType type)

end TypedGrammar.Grammar
