import TypedGrammar.RuleId

/-!
# Constraints

A constraint restricts which rules may fill a hole by what stands above or to the left of it. This
module holds the three kinds; what they do to the domain of a hole is in
`TypedGrammar.Constraint.Propagation`.
-/

namespace TypedGrammar

/-- A restriction on where rules may be used. -/
inductive Constraint where
  /-- The rule needs the predecessors among its ancestors, in order and possibly with gaps. -/
  | comesAfter (rule : RuleId) (predecessors : List RuleId)
  /-- The rules appear from left to right in this order. -/
  | ordered (order : List RuleId)
  /-- The last rule may not stand directly below a chain of the rules before it. -/
  | forbidden (sequence : List RuleId)
deriving DecidableEq

namespace Constraint

/-- The rules that a constraint mentions. -/
def rules : Constraint → List RuleId
  | comesAfter rule predecessors => rule :: predecessors
  | ordered order => order
  | forbidden sequence => sequence

/-- The same constraint on renamed rules. -/
def mapRules (f : RuleId → RuleId) : Constraint → Constraint
  | comesAfter rule predecessors => comesAfter (f rule) (predecessors.map f)
  | ordered order => ordered (order.map f)
  | forbidden sequence => forbidden (sequence.map f)

/-- Has the constraint something to say? An order and a forbidden sequence need at least one rule. -/
def isWellFormed : Constraint → Bool
  | comesAfter _ _ => true
  | ordered order => !order.isEmpty
  | forbidden sequence => !sequence.isEmpty

/-- The text of a constraint: its kind, and its rules in parentheses. -/
def text : Constraint → String
  | comesAfter rule predecessors =>
    "ComesAfter(" ++ rule.text ++ ", " ++ RuleId.listText predecessors ++ ")"
  | ordered order => "Ordered(" ++ RuleId.listText order ++ ")"
  | forbidden sequence => "Forbidden(" ++ RuleId.listText sequence ++ ")"

/-- What is wrong with a constraint that is not well formed. -/
def faultText (c : Constraint) : String :=
  match c with
  | ordered _ => c.text ++ " has an empty order"
  | _ => c.text ++ " has an empty sequence"

/-- Renaming rules renames the rules that are mentioned. -/
theorem rules_mapRules (f : RuleId → RuleId) (c : Constraint) :
    (c.mapRules f).rules = c.rules.map f := by
  cases c <;> rfl

end Constraint

end TypedGrammar
