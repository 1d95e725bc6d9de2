import TypedGrammar.Proofs.Grammar.Merging

/-!
# Grammars that can come about

`Reachable` holds of the grammars that operations make out of one without rules. An operation that
fails counts with the state that it leaves behind. Every such grammar is consistent: each operation
keeps consistency, so a run of them does.
-/

namespace TypedGrammar.Grammar

/-- The grammars that any operations, failing ones included, make out of one without rules. -/
inductive Reachable : Grammar → Prop
  | empty : Reachable .empty
  | emptyProbabilistic : Reachable .emptyProbabilistic
  | withSymbols {g : Grammar} (h : Reachable g) (symbols : SymbolTable) :
      Reachable (g.withSymbols symbols)
  | addRule {g : Grammar} (h : Reachable g) (type : String) (body : Expr) :
      Reachable (g.addRule type body).state
  | addRules {g : Grammar} (h : Reachable g) (type : String) (bodies : List Expr) :
      Reachable (g.addRules type bodies).state
  | addImmediateRule {g : Grammar} (h : Reachable g) (type : String) (body : Expr) :
      Reachable (g.addImmediateRule type body).state
  | addRuleWithProbability {g : Grammar} (h : Reachable g) (p : Float) (type : String)
      (body : Expr) : Reachable (g.addRuleWithProbability p type body).state
  | removeRule {g : Grammar} (h : Reachable g) (r : RuleId) : Reachable (g.removeRule r).state
  | compact {g : Grammar} (h : Reachable g) : Reachable g.compact.state
  | merge {g other : Grammar} (h : Reachable g) (hother : Reachable other) :
      Reachable (g.merge other).state
  | addConstraint {g : Grammar} (h : Reachable g) (c : Constraint) :
      Reachable (g.addConstraint c).state
  | clearConstraints {g : Grammar} (h : Reachable g) : Reachable g.clearConstraints
  | normalize {g : Grammar} (h : Reachable g) : Reachable g.normalize.state
  | initUniform {g : Grammar} (h : Reachable g) : Reachable g.initUniform.state

/-- A grammar that can come about is consistent. -/
theorem Reachable.consistent {g : Grammar} (h : Reachable g) : Consistent g := by
  induction h with
  | empty => exact consistent_empty
  | emptyProbabilistic => exact consistent_empty.becomeProbabilistic rfl
  | withSymbols _ symbols ih => exact ih.withSymbols symbols
  | addRule _ type body ih => exact ih.addRule type body
  | addRules _ type bodies ih => exact ih.addRules type bodies
  | addImmediateRule _ type body ih => exact ih.addImmediateRule type body
  | addRuleWithProbability _ p type body ih => exact ih.addRuleWithProbability p type body
  | removeRule _ r ih => exact ih.removeRule r
  | compact _ ih => exact ih.compact
  | merge _ _ ih _ => exact ih.merge _
  | addConstraint _ c ih => exact ih.addConstraint c
  | clearConstraints _ ih => exact ih.withConstraints []
  | normalize _ ih => exact ih.normalize
  | initUniform _ ih => exact ih.initUniform

end TypedGrammar.Grammar
