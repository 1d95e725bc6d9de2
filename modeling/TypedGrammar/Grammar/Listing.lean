import TypedGrammar.Grammar.Probability

/-!
# Listings

A grammar is listed with one line for each rule, in the order of the table, and one for each
constraint. Probabilities have three places, and the body of an immediately evaluated rule stands in
parentheses behind an underscore.
-/

namespace TypedGrammar.Grammar

/-- The probability in front of a rule of a probabilistic grammar. -/
def weightLabel (g : Grammar) (r : RuleId) : Except Failure String :=
  match g.weights with
  | none => .ok ""
  | some weights => do
    return Decimal.fixedText 3 (Float.exp (← weightAt weights r)) ++ " : "

/-- The line of a rule. -/
def ruleLine (g : Grammar) (r : RuleId) : Except Failure String := do
  let label ← g.weightLabel r
  let rule ← g.live r
  let body := if rule.immediate then "_(" ++ rule.body.text ++ ")" else rule.body.text
  return r.text ++ ": " ++ label ++ rule.type ++ " = " ++ body

/-- The lines of all rules and constraints. -/
def listingLines (g : Grammar) : Except Failure (List String) := do
  return (← g.ruleIds.mapM g.ruleLine) ++ g.constraints.map Constraint.text

/-- The text with all rules and constraints, each line with its end. -/
def listing (g : Grammar) : Except Failure String := do
  return String.join ((← g.listingLines).map (· ++ "\n"))

/-- The main figures of a grammar on one line. -/
def summary (g : Grammar) : String :=
  "Grammar \x7b size: " ++ toString g.size ++ ", num_rules: " ++ toString g.liveCount ++
    ", types: " ++ toString g.types.size ++ ", probabilistic: " ++ Value.truthText g.isProbabilistic ++
    ", constraints: " ++ toString g.constraints.length ++ " \x7d"

end TypedGrammar.Grammar
