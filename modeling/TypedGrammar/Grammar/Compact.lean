import TypedGrammar.Grammar.Edit

/-!
# Closing the gaps of a rule table

Rules that were taken out leave gaps. `compact` drops the gaps and moves the other rules up, which
renames them; the mapping from the former rules to the new ones comes with the result. Constraints
are left as they are.
-/

namespace TypedGrammar.Grammar

/-- The new name of each row when the gaps are dropped, counted on from a position. A rule is named
by its position here, as where it is appended. -/
def renumbering (next : Nat) : List (Option Rule) → List (Option RuleId)
  | [] => []
  | none :: rest => none :: renumbering next rest
  | some _ :: rest => some ⟨next⟩ :: renumbering (next + 1) rest

/-- The entries of a second list that stand beside a rule, not beside a gap. -/
def besideRules {α : Type} : List (Option Rule) → List α → List α
  | some _ :: rows, a :: rest => a :: besideRules rows rest
  | none :: rows, _ :: rest => besideRules rows rest
  | _, _ => []

/-- The weights, if there are any, that stand beside a rule. One that stands beside no row at all is in
breach. -/
def keptWeights (g : Grammar) : Except Failure (Option (Array Float)) :=
  match g.weights with
  | none => .ok none
  | some weights =>
    if weights.size ≤ g.size then .ok (some (besideRules g.rows.toList weights.toList).toArray)
    else breached (.ruleOutOfBounds ⟨g.size⟩ g.size)

/-- The index of the types of a list of rows, counted on from a position. -/
def indexRows (types : NameMap TypeEntry) (next : Nat) : List (Option Rule) → NameMap TypeEntry
  | [] => types
  | none :: rest => indexRows types (next + 1) rest
  | some rule :: rest => indexRows (enlist types rule.type ⟨next⟩) (next + 1) rest

/-- Drop the gaps of the table. The answer names for each former row the rule that it became. -/
def compact (g : Grammar) : Edit Grammar (List (Option RuleId)) :=
  match g.keptWeights with
  | .error failure => .failed g failure
  | .ok weights =>
    let kept := g.rows.toList.filter Option.isSome
    .done (reindex { g with
      rows := kept.toArray
      types := indexRows NameMap.empty 0 kept
      weights := weights }) (renumbering 0 g.rows.toList)

end TypedGrammar.Grammar
