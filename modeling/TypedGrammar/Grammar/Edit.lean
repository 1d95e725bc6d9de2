import TypedGrammar.Grammar.Probability
import TypedGrammar.Text.Blank

/-!
# Adding and removing rules and constraints

A rule is added at the end of the table unless some rule has the same body already. A rule that is
taken out leaves a gap; with its last rule a type disappears, and symbols of its name are resolved
anew.
-/

namespace TypedGrammar.Grammar

mutual

/-- The first fault of an expression, from left to right: a symbol or an operator without a name. -/
def bodyFault? : Expr → Option RuleFault
  | .lit _ => none
  | .sym name => if name = "" then some .emptySymbol else none
  | .call op args => if op = "" then some .emptyOperator else argsFault? args

/-- The first fault of a list of arguments. -/
def argsFault? : List Expr → Option RuleFault
  | [] => none
  | arg :: rest => (bodyFault? arg).or (argsFault? rest)

end

/-- What is wrong with a rule: a blank type comes before the faults of the body. -/
def ruleFault? (type : String) (body : Expr) : Option RuleFault :=
  if Text.isBlank type then some .blankType else bodyFault? body

/-- Has some rule the body, whatever its type? -/
def containsBody (g : Grammar) (body : Expr) : Bool :=
  g.rows.toList.any fun row => row.any fun rule => rule.body = body

/-- List a rule in the index as the last of its type. -/
def enlist (types : NameMap TypeEntry) (type : String) (r : RuleId) : NameMap TypeEntry :=
  let entry := (types.get? type).getD ⟨[], .empty⟩
  types.insert type ⟨entry.rules ++ [r], entry.domain⟩

/-- Append a rule to the table. In a probabilistic grammar it has the weight given, or certainty.
The index has to be computed anew afterwards.

The new rule is named by its position, so that the table may grow without bound.
`RuleId.ofPosition` tells which positions have a rule whose number fits into 32 bits. -/
def pushRule (g : Grammar) (type : String) (body : Expr) (immediate : Bool)
    (weight : Option Float) : RuleId × Grammar :=
  let r : RuleId := ⟨g.size⟩
  (r, { g with
    rows := g.rows.push (some ⟨type, body, immediate, []⟩)
    types := enlist g.types type r
    weights := g.weights.map fun ws => ws.push (weight.getD 0.0) })

/-- Add a rule unless it is faulty or its body is known. The answer is the new rule, if any. -/
def addEntry (g : Grammar) (type : String) (body : Expr) (immediate : Bool)
    (weight : Option Float) : Edit Grammar (Option RuleId) :=
  match ruleFault? type body with
  | some fault => .refused g (.malformedRule type body fault)
  | none =>
    if g.containsBody body then .done g none
    else
      let (r, g') := g.pushRule type body immediate weight
      .done g'.reindex (some r)

/-- Add an ordinary rule to a grammar without probabilities. -/
def addRule (g : Grammar) (type : String) (body : Expr) : Edit Grammar (Option RuleId) :=
  if g.isProbabilistic then .refused g .probabilityMismatch else g.addEntry type body false none

/-- Add ordinary rules one after the other, up to the first that is refused. -/
def addRules (g : Grammar) (type : String) : List Expr → Edit Grammar (List RuleId)
  | [] => .done g []
  | body :: rest =>
    match g.addRule type body with
    | ⟨g', .ok added, _⟩ => (addRules g' type rest).map (added.toList ++ ·)
    | ⟨g', .error failure, _⟩ => .failed g' failure

/-- Add an immediately evaluated rule to a grammar without probabilities. -/
def addImmediateRule (g : Grammar) (type : String) (body : Expr) : Edit Grammar (Option RuleId) :=
  if g.isProbabilistic then .refused g .probabilityMismatch else g.addEntry type body true none

/-- Is the number a probability before normalization: neither negative nor infinite nor no number? -/
def isWeight (p : Float) : Bool := p ≥ 0.0 && p.isFinite

/-- Add an ordinary rule with a probability. A grammar without rows becomes probabilistic by that,
even where the rule is then refused. -/
def addRuleWithProbability (g : Grammar) (p : Float) (type : String) (body : Expr) :
    Edit Grammar (Option RuleId) :=
  if !g.isProbabilistic && !g.isEmpty then .refused g .probabilityMismatch
  else
    let g' := if g.isProbabilistic then g else { g with weights := some #[] }
    if isWeight p then g'.addEntry type body false (some (Float.log p))
    else .refused g' (.malformedRule type body .badProbability)

/-- Strike a rule from the index. With its last rule the type goes as well, and all symbols are
resolved anew. -/
def delist (g : Grammar) (type : String) (r : RuleId) : Grammar :=
  match g.types.get? type with
  | none => g
  | some entry =>
    let rest := entry.rules.filter (· ≠ r)
    if rest.isEmpty then reindex { g with types := g.types.erase type }
    else { g with types := g.types.insert type ⟨rest, entry.domain.eraseRule r⟩ }

/-- The weights, if there are any, with a rule made an impossible choice. -/
def strikeWeight (g : Grammar) (r : RuleId) : Except Failure (Option (Array Float)) :=
  match g.weights with
  | none => .ok none
  | some weights => return some (← setWeight weights r negInfinity)

/-- Take a rule out. It leaves a gap with the weight of an impossible choice, and a notice if some
constraint mentions it. -/
def removeRule (g : Grammar) (r : RuleId) : Edit Grammar Unit :=
  match g.row r with
  | .error failure => .failed g failure
  | .ok none => .refused g (.removedRule r)
  | .ok (some rule) =>
    match g.strikeWeight r with
    | .error failure => .failed g failure
    | .ok weights =>
      let gap : Grammar := { g with rows := g.rows.setIfInBounds r.index none, weights := weights }
      let mentioned := g.constraints.any fun c => c.rules.contains r
      ⟨gap.delist rule.type r, .ok (), if mentioned then [.removedRuleReferenced r] else []⟩

/-- Report a rule that the grammar does not have. -/
def checkRule (g : Grammar) (r : RuleId) : Except Failure Unit :=
  match g.rows[r.index]? with
  | none => report (.unknownRule r)
  | some none => report (.removedRule r)
  | some (some _) => .ok ()

/-- Report the first rule of a list that the grammar does not have. -/
def checkRules (g : Grammar) : List RuleId → Except Failure Unit
  | [] => .ok ()
  | r :: rest => do
    g.checkRule r
    checkRules g rest

/-- Report a constraint that has nothing to say or mentions a rule that the grammar does not have. -/
def checkConstraint (g : Grammar) (c : Constraint) : Except Failure Unit :=
  if c.isWellFormed then g.checkRules c.rules else report (.invalidConstraint c)

/-- Register a constraint behind the others. -/
def addConstraint (g : Grammar) (c : Constraint) : Edit Grammar Unit :=
  match g.checkConstraint c with
  | .ok () => .done { g with constraints := g.constraints ++ [c] } ()
  | .error failure => .failed g failure

/-- Drop all constraints. -/
def clearConstraints (g : Grammar) : Grammar := { g with constraints := [] }

end TypedGrammar.Grammar
