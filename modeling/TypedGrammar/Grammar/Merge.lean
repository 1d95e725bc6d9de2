import TypedGrammar.Grammar.Edit
import TypedGrammar.Grammar.Probability

/-!
# Merging grammars

`merge` appends the rules, constants and constraints of another grammar that this one lacks. A rule
counts as known when its type and body are. Rules get new names by this, and the constraints of the
other grammar are renamed along.
-/

namespace TypedGrammar.Grammar

/-- Report the first constraint of a list that does not fit the grammar. -/
def checkConstraints (g : Grammar) : List Constraint → Except Failure Unit
  | [] => .ok ()
  | c :: rest => do
    g.checkConstraint c
    checkConstraints g rest

/-- The weight that a rule takes along to another grammar, if its grammar has weights. -/
def carriedWeight (g : Grammar) (r : RuleId) : Except Failure (Option Float) :=
  match g.weights with
  | none => .ok none
  | some weights => return some (← weightAt weights r)

/-- The rows of the table with the weights that they take along. -/
def weightedRows (g : Grammar) : List (Option Rule × Except Failure (Option Float)) :=
  g.rows.toList.zipIdx.map fun (row, i) => (row, g.carriedWeight ⟨i⟩)

/-- Append the rules that are not known yet; only these have to have a weight to take along. The answer
names for each row the rule that it became. -/
def mergeRows (g : Grammar) : List (Option Rule × Except Failure (Option Float)) →
    Except Failure (List (Option RuleId) × Grammar)
  | [] => .ok ([], g)
  | (none, _) :: rest => do
    let (mapping, g') ← mergeRows g rest
    return (none :: mapping, g')
  | (some rule, weight) :: rest => do
    match ← g.findRule? rule.type rule.body with
    | some known =>
      let (mapping, g') ← mergeRows g rest
      return (some known :: mapping, g')
    | none =>
      let (added, grown) := g.pushRule rule.type rule.body rule.immediate (← weight)
      let (mapping, g') ← mergeRows grown rest
      return (some added :: mapping, g')

/-- Add the constants whose names are not taken. -/
def addSymbols (symbols : SymbolTable) : List (String × Value) → SymbolTable
  | [] => symbols
  | (name, value) :: rest =>
    addSymbols (if symbols.contains name then symbols else symbols.insert name value) rest

/-- The rule that a rule became; one without an entry keeps its name. -/
def renamed (mapping : List (Option RuleId)) (r : RuleId) : RuleId := (mapping[r.index]?.join).getD r

/-- The rule that a rule became, when the caller promises that its row was mapped. -/
def renameRule (mapping : List (Option RuleId)) (r : RuleId) : Except Failure RuleId :=
  if r.index < mapping.length then .ok (renamed mapping r)
  else breached (.ruleOutOfBounds r mapping.length)

/-- A constraint on what its rules became. -/
def renameConstraint (mapping : List (Option RuleId)) : Constraint → Except Failure Constraint
  | .comesAfter rule predecessors => do
    let before ← predecessors.mapM (renameRule mapping)
    return .comesAfter (← renameRule mapping rule) before
  | .ordered order => return .ordered (← order.mapM (renameRule mapping))
  | .forbidden sequence => return .forbidden (← sequence.mapM (renameRule mapping))

/-- Add constraints that are not there yet, one after the other. -/
def addNewConstraints (known : List Constraint) : List Constraint → List Constraint
  | [] => known
  | c :: rest => addNewConstraints (if known.contains c then known else known ++ [c]) rest

/-- Append what another grammar has and this one lacks. A grammar without rows takes over that the
other has probabilities; if it has probabilities itself and the other has none, the rules get uniform
ones. Grammars with rows must agree on having probabilities, and the constraints of the other must
fit it. The answer names for each row of the other the rule that it became. -/
def merge (g other : Grammar) : Edit Grammar (List (Option RuleId)) :=
  if g.isProbabilistic != other.isProbabilistic && !other.isEmpty && !g.isEmpty then
    .refused g .probabilityMismatch
  else match other.checkConstraints other.constraints with
    | .error failure => .failed g failure
    | .ok () =>
      let start : Grammar :=
        if g.isEmpty && other.isProbabilistic && !g.isProbabilistic then
          { g with weights := some #[] }
        else g
      let uniform := g.isEmpty && start.isProbabilistic && !other.isProbabilistic
      match start.mergeRows other.weightedRows with
      | .error failure => .failed g failure
      | .ok (mapping, grown) =>
        let indexed :=
          reindex { grown with symbols := addSymbols grown.symbols other.symbols.entries }
        let weighted := if uniform then indexed.initUniform else .done indexed ()
        match weighted.result with
        | .error failure => .failed g failure
        | .ok () =>
          match other.constraints.mapM (renameConstraint mapping) with
          | .error failure => .failed g failure
          | .ok constraints =>
            .done { weighted.state with
              constraints := addNewConstraints weighted.state.constraints constraints } mapping

end TypedGrammar.Grammar
