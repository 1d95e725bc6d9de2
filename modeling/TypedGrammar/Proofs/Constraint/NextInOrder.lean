import TypedGrammar.Proofs.Constraint.Narrowing

/-!
# The next rule of an order

An order counts how many of its rules stand to the left, from the first one up to one that is missing,
and takes out all rules behind the next one. What goes is told by the rule and not by its position in
the order: the next rule, and a rule that already stands to the left, goes as well when the order
mentions it once more behind the next one.
-/

namespace TypedGrammar.Constraint

variable {t : Tree} {path : Path} {left order : List RuleId} {domain : BitSet} {r : RuleId} {n : Nat}

/-- The number of rules of an order that stand to the left, up to the first one that does not. -/
def reached (left order : List RuleId) : Nat :=
  (order.takeWhile fun rule => left.contains rule).length

/-- A first rule on the left counts, and one that is missing ends the count. -/
theorem reached_cons (first : RuleId) : reached left (first :: order) =
    if first ∈ left then reached left order + 1 else 0 := by
  by_cases hfirst : first ∈ left <;> simp [reached, hfirst]

/-- No more rules are counted than there are. -/
theorem reached_le_length : reached left order ≤ order.length :=
  (List.takeWhile_sublist _).length_le

/-- The count is the length of the longest prefix of the order that stands to the left. -/
theorem le_reached_iff (hn : n ≤ order.length) :
    n ≤ reached left order ↔ ∀ rule ∈ order.take n, rule ∈ left := by
  induction order generalizing n with
  | nil =>
    have hzero : n = 0 := by simpa using hn
    simp [hzero]
  | cons first rest ih =>
    cases n with
    | zero => simp
    | succ n =>
      have hrest : n ≤ rest.length := by simpa using hn
      by_cases hfirst : first ∈ left
      · simp [reached_cons, hfirst, ih hrest]
      · simp [reached_cons, hfirst]

/-- Blocked are the rules behind the next one. -/
theorem blocked_eq_drop (left order : List RuleId) :
    blocked left order = order.drop (reached left order + 1) := by
  induction order with
  | nil => rfl
  | cons first rest ih =>
    by_cases hfirst : first ∈ left
    · rw [reached_cons, if_pos hfirst, List.drop_succ_cons, ← ih]
      simp [blocked, hfirst]
    · rw [reached_cons, if_neg hfirst]
      simp [blocked, hfirst]

/-- A candidate stays under an order when it is not mentioned behind the next rule. -/
theorem containsRule_propagate_ordered :
    ((ordered order).propagate t path domain).containsRule r = true ↔
      domain.containsRule r = true ∧ r ∉ order.drop (reached (t.rulesOnLeft path) order + 1) := by
  simp [propagate, BitSet.containsRule_foldl_eraseRule, blocked_eq_drop]

/-- What an order leaves of the rules up to its next one. -/
structure KeepsNext (order : List RuleId) (t : Tree) (path : Path) (domain : BitSet) (k : Nat) :
    Prop where
  /-- The count does not go beyond the order. -/
  le_length : k ≤ order.length
  /-- It is the length of the longest prefix whose rules all stand to the left. -/
  longest : ∀ n ≤ order.length, n ≤ k ↔ ∀ rule ∈ order.take n, rule ∈ t.rulesOnLeft path
  /-- The next rule stays unless the order mentions it again behind it. -/
  next : ∀ rule, order[k]? = some rule → domain.containsRule rule = true →
    (((ordered order).propagate t path domain).containsRule rule = true ↔ rule ∉ order.drop (k + 1))
  /-- A rule of the prefix stays unless the order mentions it again behind the next rule. -/
  passed : ∀ rule ∈ order.take k, domain.containsRule rule = true →
    (((ordered order).propagate t path domain).containsRule rule = true ↔ rule ∉ order.drop (k + 1))
  /-- In an order without repetition the prefix and the next rule always stay. -/
  of_nodup : order.Nodup → ∀ rule ∈ order.take (k + 1), domain.containsRule rule = true →
    ((ordered order).propagate t path domain).containsRule rule = true

/-- An order keeps its next rule and those before it, except the ones that it mentions again later. -/
theorem ordered_keepsNext (order : List RuleId) (t : Tree) (path : Path) (domain : BitSet) :
    KeepsNext order t path domain (reached (t.rulesOnLeft path) order) where
  le_length := reached_le_length
  longest _ hn := le_reached_iff hn
  next _ _ hmember := by simp [containsRule_propagate_ordered, hmember]
  passed _ _ hmember := by simp [containsRule_propagate_ordered, hmember]
  of_nodup hnodup _ hrule hmember :=
    containsRule_propagate_ordered.mpr
      ⟨hmember, List.disjoint_take_drop hnodup le_rfl hrule⟩

/-- Behind a sibling that applies the first rule of an order, the second rule is the next one. -/
example :
    let t : Tree := .apply ⟨9⟩ [.apply ⟨1⟩ [], .hole ⟨.ofRules [⟨0⟩, ⟨1⟩, ⟨2⟩], .unexpanded⟩]
    ((ordered [⟨1⟩, ⟨0⟩, ⟨2⟩]).propagate t [2] (.ofRules [⟨0⟩, ⟨1⟩, ⟨2⟩])).rules = [⟨0⟩, ⟨1⟩] := by
  decide

/-- An order that mentions its next rule again cannot be started. -/
theorem repeated_next_blocked :
    let t : Tree := .hole ⟨.ofRules [⟨0⟩, ⟨1⟩], .unexpanded⟩
    let c : Constraint := ordered [⟨0⟩, ⟨1⟩, ⟨0⟩]
    c.isWellFormed = true ∧ reached (t.rulesOnLeft []) c.rules = 0 ∧ c.rules[0]? = some ⟨0⟩ ∧
      (BitSet.ofRules [⟨0⟩, ⟨1⟩]).containsRule ⟨0⟩ = true ∧
      (c.propagate t [] (.ofRules [⟨0⟩, ⟨1⟩])).containsRule ⟨0⟩ = false := by
  decide

end TypedGrammar.Constraint
