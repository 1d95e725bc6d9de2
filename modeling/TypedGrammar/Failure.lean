import TypedGrammar.BitSet
import TypedGrammar.Constraint.Basic
import TypedGrammar.Expr.Text
import TypedGrammar.Path

/-!
# Failures

An operation fails in one of two ways. A `GrammarError` is reported when the arguments do not fit the
grammar or the tree; callers are expected to handle it. A `Breach` is a broken promise of the caller,
such as the number of a rule that the table does not have.
-/

namespace TypedGrammar

/-- What is wrong with a rule that cannot be added. -/
inductive RuleFault where
  | blankType
  | emptySymbol
  | emptyOperator
  | badProbability

/-- What is wrong with a path. -/
inductive PathFault where
  | throughHole
  | outOfBounds
  | pastArity
  | notHole

/-- A condition that an operation reports. -/
inductive GrammarError where
  /-- No rule has the type. -/
  | unknownType (type : String)
  /-- The rule table is too short for the rule. -/
  | unknownRule (rule : RuleId)
  /-- The rule was taken out of the grammar. -/
  | removedRule (rule : RuleId)
  /-- The rule cannot be added. -/
  | malformedRule (type : String) (body : Expr) (fault : RuleFault)
  /-- The constraint has nothing to say. -/
  | invalidConstraint (constraint : Constraint)
  /-- A hole that was narrowed has not exactly one candidate. -/
  | ambiguousProbability (domain : BitSet)
  /-- A subtree has another type than its place asks for. -/
  | typeMismatch (path : Path) (expected found : String)
  /-- The root was addressed where a place below it is needed. -/
  | emptyPath
  /-- The path does not address what it should. -/
  | invalidPath (path : Path) (fault : PathFault)
  /-- The expression has no derivation of the type. -/
  | noMatchingRule (type : String) (expr : Expr)
  /-- The rule is no candidate of the hole. -/
  | ruleNotInDomain (rule : RuleId) (domain : BitSet)
  /-- The rule evaluates immediately, so a value is needed. -/
  | needsValue (rule : RuleId)
  /-- The rule does not evaluate immediately. -/
  | notImmediate (rule : RuleId)
  /-- One grammar has probabilities and the other has none. -/
  | probabilityMismatch

/-- A promise that the caller did not keep. -/
inductive Breach where
  /-- Rules are numbered from 1. -/
  | numberZero
  /-- The rule table is too short for the rule. -/
  | ruleOutOfBounds (rule : RuleId) (size : Nat)
  /-- The rule was taken out of the grammar. -/
  | ruleRemoved (rule : RuleId)
  /-- A filled node on the way of a path lacks the child. -/
  | childOutOfBounds (index children : Nat) (path : Path)

/-- Why an operation has no result. -/
inductive Failure where
  /-- A condition that the operation reports. -/
  | reported (error : GrammarError)
  /-- A broken promise of the caller. -/
  | breach (breach : Breach)

/-- The reason given for a rule that cannot be added. -/
def RuleFault.text : RuleFault → String
  | blankType => "empty type name"
  | emptySymbol => "empty symbol"
  | emptyOperator => "empty operator"
  | badProbability => "probability must be finite and non-negative"

/-- The reason given for a path that does not address what it should. -/
def PathFault.text : PathFault → String
  | throughHole => "descends through a hole"
  | outOfBounds => "child index out of bounds"
  | pastArity => "child index past the arity of the rule"
  | notHole => "does not address a hole"

/-- The message of a reported condition. -/
def GrammarError.message : GrammarError → String
  | unknownType type => "Unknown type: " ++ type
  | unknownRule rule => "Unknown rule: " ++ rule.text
  | removedRule rule => "Rule " ++ rule.text ++ " has been removed"
  | malformedRule type body fault =>
    "Malformed rule " ++ type ++ " = " ++ body.text ++ ": " ++ fault.text
  | invalidConstraint constraint => "Invalid constraint: " ++ constraint.faultText
  | ambiguousProbability domain =>
    "Probability of a hole with domain " ++ domain.text ++ " is ambiguous"
  | typeMismatch path expected found =>
    "Type mismatch at " ++ path.text ++ ": expected " ++ expected ++ ", found " ++ found
  | emptyPath => "Path is empty"
  | invalidPath path fault => "Invalid path " ++ path.text ++ ": " ++ fault.text
  | noMatchingRule type expr => "No rule of type " ++ type ++ " derives " ++ expr.text
  | ruleNotInDomain rule domain =>
    "Rule " ++ rule.text ++ " is not in the domain " ++ domain.text ++ " of the hole"
  | needsValue rule => "Rule " ++ rule.text ++ " evaluates immediately and needs a value"
  | notImmediate rule => "Rule " ++ rule.text ++ " does not evaluate immediately"
  | probabilityMismatch => "Probabilistic and non-probabilistic grammars cannot be mixed"

/-- The message of a broken promise. -/
def Breach.message : Breach → String
  | numberZero => "Rule id must be >= 1"
  | ruleOutOfBounds rule size =>
    "Rule " ++ rule.text ++ " out of bounds (grammar has " ++ toString size ++ " rules)"
  | ruleRemoved rule => "Rule " ++ rule.text ++ " has been removed"
  | childOutOfBounds index children path =>
    "Child index " ++ toString index ++ " out of bounds (node has " ++ toString children ++
      " children) in path " ++ path.text

/-- The message of a failure. -/
def Failure.message : Failure → String
  | reported error => error.message
  | breach broken => broken.message

/-- Report a condition. -/
def report {α : Type} (error : GrammarError) : Except Failure α := .error (.reported error)

/-- Stop at a broken promise. -/
def breached {α : Type} (breach : Breach) : Except Failure α := .error (.breach breach)

/-- The rule with a number that the caller promises to be positive. -/
def RuleId.ofNumber (n : Nat) : Except Failure RuleId :=
  match RuleId.ofNumber? n with
  | some rule => .ok rule
  | none => breached .numberZero

/-- The rules with the given numbers, in order. -/
def RuleId.ofNumbers (numbers : List Nat) : Except Failure (List RuleId) := numbers.mapM ofNumber

/-- The rule at a position that the caller promises to have a number of 32 bits. -/
def RuleId.ofPosition (position : Nat) : Except Failure RuleId :=
  match RuleId.ofPosition? position with
  | some rule => .ok rule
  | none => breached .numberZero

end TypedGrammar
