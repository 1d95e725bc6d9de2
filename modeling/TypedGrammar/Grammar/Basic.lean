import TypedGrammar.LogProbability
import TypedGrammar.Outcome
import TypedGrammar.Symbol

/-!
# Grammars

A grammar owns a table of rules; everything else refers to a rule by its position in the table. A
rule that is taken out leaves a gap, so that the other rules keep their positions.

Beside the table a grammar keeps an index of the types that have a rule, the logarithms of the
probabilities of its rules if it is probabilistic, the constraints, and the named constants. Each row
of the table holds what the bare symbols of its body stand for. The index and these resolutions can
be computed from the rest; `Grammar.reindex` does so.

Questions about a rule that the table lacks are breaches.
-/

namespace TypedGrammar

/-- A rule of a grammar: an expression of the type can be what the body describes. -/
structure Rule where
  /-- The type that the rule derives. -/
  type : String
  /-- The template whose placeholder symbols are filled by children. -/
  body : Expr
  /-- Does a tree hold a literal in place of children? -/
  immediate : Bool
  /-- What the symbols of the body stand for, in order; empty for an immediate rule. -/
  kinds : List SymbolKind

/-- The types of the children that the rule asks for, in order. -/
def Rule.childTypes (rule : Rule) : List String := rule.kinds.filterMap SymbolKind.childType?

/-- What the index knows about a type. -/
structure TypeEntry where
  /-- The rules of the type, ascending. -/
  rules : List RuleId
  /-- The same rules as a bit set. -/
  domain : BitSet

/-- A grammar. -/
structure Grammar where
  /-- The rule table; a gap stands where a rule was taken out. -/
  rows : Array (Option Rule)
  /-- The types that have a rule. -/
  types : NameMap TypeEntry
  /-- The log-probabilities of the rules, by position, if the grammar is probabilistic. -/
  weights : Option (Array Float)
  /-- The constraints, in the order in which they were added. -/
  constraints : List Constraint
  /-- The named constants. -/
  symbols : SymbolTable

namespace Grammar

/-- The grammar without rules and without probabilities. -/
def empty : Grammar := ⟨#[], NameMap.empty, none, [], NameMap.empty⟩

/-- The grammar without rules that takes rules with probabilities. -/
def emptyProbabilistic : Grammar := { empty with weights := some #[] }

/-- The length of the rule table, gaps included. -/
def size (g : Grammar) : Nat := g.rows.size

/-- Is the rule table without rows? -/
def isEmpty (g : Grammar) : Bool := g.rows.isEmpty

/-- Has the grammar probabilities? -/
def isProbabilistic (g : Grammar) : Bool := g.weights.isSome

/-- Do constraints restrict the derivations? -/
def isContextSensitive (g : Grammar) : Bool := !g.constraints.isEmpty

/-- The row of a rule that the caller promises to be in the table. -/
def row (g : Grammar) (r : RuleId) : Except Failure (Option Rule) :=
  match g.rows[r.index]? with
  | some row => .ok row
  | none => breached (.ruleOutOfBounds r g.size)

/-- A rule that the caller promises to be in the table and not taken out. -/
def live (g : Grammar) (r : RuleId) : Except Failure Rule := do
  match ← g.row r with
  | some rule => pure rule
  | none => breached (.ruleRemoved r)

/-- Is there a rule, not taken out, at the position? -/
def isLive (g : Grammar) (r : RuleId) : Bool := (g.rows[r.index]?.join).isSome

/-- The rules that were not taken out, ascending. -/
def ruleIds (g : Grammar) : List RuleId :=
  ((List.range g.size).map RuleId.mk).filter g.isLive

/-- The number of rules that were not taken out. -/
def liveCount (g : Grammar) : Nat := g.rows.toList.countP Option.isSome

/-- Was the rule taken out? -/
def isRemoved (g : Grammar) (r : RuleId) : Except Failure Bool := do
  return (← g.row r).isNone

/-- The body of a rule. -/
def body (g : Grammar) (r : RuleId) : Except Failure Expr := do
  return (← g.live r).body

/-- The type that a rule derives. -/
def returnType (g : Grammar) (r : RuleId) : Except Failure String := do
  return (← g.live r).type

/-- What the symbols of the body stand for; nothing for a rule that was taken out. -/
def symbolKinds (g : Grammar) (r : RuleId) : Except Failure (List SymbolKind) := do
  return ((← g.row r).map Rule.kinds).getD []

/-- The types of the children; none for a rule that was taken out. -/
def childTypes (g : Grammar) (r : RuleId) : Except Failure (List String) := do
  return ((← g.row r).map Rule.childTypes).getD []

/-- The number of children. -/
def arity (g : Grammar) (r : RuleId) : Except Failure Nat := do
  return (← g.childTypes r).length

/-- Does the rule ask for no children? -/
def isTerminal (g : Grammar) (r : RuleId) : Except Failure Bool := do
  return (← g.childTypes r).isEmpty

/-- Is the rule evaluated immediately? A rule that was taken out is not. -/
def isImmediate (g : Grammar) (r : RuleId) : Except Failure Bool := do
  return ((← g.row r).map Rule.immediate).getD false

/-- Is the body a single symbol that the host binds? -/
def isVariable (g : Grammar) (r : RuleId) : Except Failure Bool := do
  let rule ← g.live r
  return rule.body.asSymbol?.isSome && rule.kinds = [.variable]

/-- The greatest number of children that a rule asks for. -/
def maxArity (g : Grammar) : Nat :=
  (g.rows.toList.map fun row => ((row.map Rule.childTypes).getD []).length).foldl max 0

/-- The names of the types that have a rule, ascending. -/
def typeNames (g : Grammar) : List String := g.types.keys

/-- Has the type a rule? -/
def hasType (g : Grammar) (type : String) : Bool := g.types.contains type

/-- What the index knows about a type. -/
def typeEntry (g : Grammar) (type : String) : Except Failure TypeEntry :=
  match g.types.get? type with
  | some entry => .ok entry
  | none => report (.unknownType type)

/-- The rules of a type, ascending. -/
def rulesOfType (g : Grammar) (type : String) : Except Failure (List RuleId) := do
  return (← g.typeEntry type).rules

/-- The rules of a type as a bit set. -/
def domain (g : Grammar) (type : String) : Except Failure BitSet := do
  return (← g.typeEntry type).domain

/-- What a name stands for: a type that has a rule, else a named constant, else a variable. -/
def classify (g : Grammar) (name : String) : SymbolKind :=
  g.symbols.classify g.hasType name

/-- The first rule of a list that has the body. -/
def findBody? (g : Grammar) (body : Expr) : List RuleId → Except Failure (Option RuleId)
  | [] => .ok none
  | r :: rest => do
    match ← g.row r with
    | some rule => if rule.body = body then pure (some r) else findBody? g body rest
    | none => findBody? g body rest

/-- The rule with a type and a body. -/
def findRule? (g : Grammar) (type : String) (body : Expr) : Except Failure (Option RuleId) :=
  match g.types.get? type with
  | some entry => g.findBody? body entry.rules
  | none => .ok none

/-- Does the other grammar have the listed rules, with the same types and bodies? -/
def allFoundIn (g other : Grammar) : List RuleId → Except Failure Bool
  | [] => .ok true
  | r :: rest => do
    let rule ← g.live r
    match ← other.findRule? rule.type rule.body with
    | some _ => allFoundIn g other rest
    | none => pure false

/-- Does the other grammar have every rule of this one? -/
def containedIn (g other : Grammar) : Except Failure Bool := g.allFoundIn other g.ruleIds

/-- A rule with its symbols resolved by the current types and constants. -/
def resolve (g : Grammar) (rule : Rule) : Rule :=
  { rule with kinds := if rule.immediate then [] else rule.body.symbols.map g.classify }

/-- Resolve the symbols of every rule anew, and the domain of every type. -/
def reindex (g : Grammar) : Grammar :=
  { g with
    rows := g.rows.map (Option.map g.resolve)
    types := g.types.mapValues fun entry => ⟨entry.rules, .ofRules entry.rules⟩ }

/-- Take other named constants. -/
def withSymbols (g : Grammar) (symbols : SymbolTable) : Grammar :=
  reindex { g with symbols := symbols }

end Grammar

end TypedGrammar
