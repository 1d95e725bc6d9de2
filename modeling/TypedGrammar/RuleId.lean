import TypedGrammar.Ascending

/-!
# Rule identifiers

A rule of a grammar is named by its position in the rule table. People count rules from 1, so the
number of a rule is one more than its position; the number 0 names no rule.
-/

namespace TypedGrammar

/-- The name of a rule: its position in the rule table of a grammar. -/
structure RuleId where
  /-- The position in the rule table, counted from 0. -/
  index : Nat
deriving DecidableEq

namespace RuleId

/-- The number of a rule, counted from 1. It is also the bit that stands for the rule in a bit set. -/
def number (r : RuleId) : Nat := r.index + 1

/-- The rule with a number; 0 numbers no rule. -/
def ofNumber? : Nat → Option RuleId
  | 0 => none
  | n + 1 => some ⟨n⟩

/-- The rule at a position. Positions and numbers are kept in 32 bits: higher bits of the position
are dropped, and the last position has no rule since its number would not fit. -/
def ofPosition? (position : Nat) : Option RuleId :=
  ofNumber? ((position % Nat.pow 2 32 + 1) % Nat.pow 2 32)

/-- The decimal text of the number. -/
def text (r : RuleId) : String := toString r.number

instance : LT RuleId := ⟨fun a b => a.index < b.index⟩

instance : DecidableLT RuleId := fun a b => Nat.decLt a.index b.index

/-- A set of rules as the ascending list of its members. -/
def ascending (rules : List RuleId) : List RuleId := Ascending.ofList rules

/-- The text of a list of rules: the numbers between square brackets. -/
def listText (rules : List RuleId) : String := "[" ++ ", ".intercalate (rules.map text) ++ "]"

/-- Rules are ordered as their positions. -/
theorem lt_iff {a b : RuleId} : a < b ↔ a.index < b.index := Iff.rfl

/-- The rule of the number of a rule is that rule. -/
theorem ofNumber?_number (r : RuleId) : ofNumber? r.number = some r := rfl

/-- A number and the rule that it names determine each other. -/
theorem ofNumber?_eq_some {n : Nat} {r : RuleId} : ofNumber? n = some r ↔ n = r.number := by
  cases n with
  | zero => simp [ofNumber?, number]
  | succ n =>
    constructor
    · intro h
      cases h
      rfl
    · intro h
      have : n = r.index := Nat.succ.inj h
      simp [ofNumber?, this]

/-- Of two rules one is the smaller, or they are the same. -/
theorem eq_of_not_lt {a b : RuleId} (hab : ¬ a < b) (hba : ¬ b < a) : a = b := by
  have h : a.index = b.index := Nat.le_antisymm (Nat.not_lt.1 hba) (Nat.not_lt.1 hab)
  cases a
  cases b
  simpa using h

/-- The ascending list of a set of rules has the same members. -/
theorem mem_ascending {r : RuleId} {rules : List RuleId} : r ∈ ascending rules ↔ r ∈ rules :=
  Ascending.mem_ofList (fun _ _ => eq_of_not_lt) r rules

/-- The order of rules is transitive. -/
theorem lt_trans (a b c : RuleId) (hab : a < b) (hbc : b < c) : a < c := Nat.lt_trans hab hbc

/-- The ascending form of a list of rules is ascending. -/
theorem ascending_pairwise (rules : List RuleId) : (ascending rules).Pairwise (· < ·) :=
  Ascending.pairwise_ofList lt_trans (fun _ _ => eq_of_not_lt) rules

end RuleId

end TypedGrammar
