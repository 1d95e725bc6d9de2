import TypedGrammar.Constraint.Propagation
import TypedGrammar.Proofs.Members
import TypedGrammar.Proofs.Sequence

/-!
# What constraints take out of a domain

`Constraint.Permits` says when a constraint permits a rule at a place, given the chain of rules above
the place and the rules that came before it. Narrowing the domain of a hole keeps exactly the
candidates that every constraint permits there.
-/

namespace TypedGrammar.Constraint

variable {c : Constraint} {t : Tree} {path : Path} {domain : BitSet} {r : RuleId}
  {above left order : List RuleId} {before before' : RuleId → Prop}

/-- The constraint permits the rule below a chain of rules and after some other rules. -/
def Permits (c : Constraint) (above : List RuleId) (before : RuleId → Prop) (r : RuleId) : Prop :=
  match c with
  | comesAfter rule predecessors => r = rule → predecessors.Sublist above
  | ordered order => ∀ k, order[k]? = some r → ∀ earlier ∈ order.take k, before earlier
  | forbidden sequence => ∀ chain, sequence = chain ++ [r] → ¬ chain <:+: above

/-- With more rules before a place no less is permitted there. -/
theorem Permits.mono (h : c.Permits above before r) (hbefore : ∀ x, before x → before' x) :
    c.Permits above before' r := by
  cases c with
  | comesAfter rule predecessors => exact h
  | ordered order => exact fun k hk earlier hearlier => hbefore earlier (h k hk earlier hearlier)
  | forbidden sequence => exact h

/-- Blocked are the rules of an order that have one before them that is missing on the left. A rule that is
there blocks nothing, and one that is missing blocks all those behind it. -/
theorem mem_blocked :
    r ∈ blocked left order ↔ ∃ k, order[k]? = some r ∧ ∃ earlier ∈ order.take k, earlier ∉ left := by
  induction order with
  | nil => simp [blocked]
  | cons first rest ih =>
    by_cases hfirst : first ∈ left
    · have hstep : blocked left (first :: rest) = blocked left rest := by simp [blocked, hfirst]
      rw [hstep, ih]
      constructor
      · rintro ⟨k, hk, earlier, hearlier, hmissing⟩
        exact ⟨k + 1, hk, earlier, List.mem_cons_of_mem _ hearlier, hmissing⟩
      · rintro ⟨k, hk, earlier, hearlier, hmissing⟩
        cases k with
        | zero => simp at hearlier
        | succ k =>
          have hrest : earlier ∈ rest.take k := by
            rcases List.mem_cons.mp hearlier with rfl | hrest
            · exact absurd hfirst hmissing
            · exact hrest
          exact ⟨k, hk, earlier, hrest, hmissing⟩
    · have hstep : blocked left (first :: rest) = rest := by simp [blocked, hfirst]
      rw [hstep, List.mem_iff_getElem?]
      constructor
      · rintro ⟨k, hk⟩
        exact ⟨k + 1, hk, first, List.mem_cons_self, hfirst⟩
      · rintro ⟨k, hk, earlier, hearlier, -⟩
        cases k with
        | zero => simp at hearlier
        | succ k => exact ⟨k, hk⟩

/-- A constraint keeps the candidates of a hole that it permits there. -/
theorem containsRule_propagate :
    (c.propagate t path domain).containsRule r = true ↔
      domain.containsRule r = true ∧ c.Permits (t.ancestors path) (· ∈ t.leftRules path) r := by
  cases c with
  | comesAfter rule predecessors =>
    simp only [propagate, Permits, ← Sequence.isSubsequence_iff]
    split
    · rename_i hnarrow
      simp only [Bool.and_eq_true, Bool.not_eq_true'] at hnarrow
      simp [BitSet.containsRule_eraseRule, hnarrow.2]
    · rename_i hkeep
      by_cases hr : r = rule
      · subst hr
        simpa using hkeep
      · simp [hr]
  | ordered order =>
    simp only [propagate, Permits, BitSet.containsRule_foldl_eraseRule, mem_blocked, Tree.rulesOnLeft,
      RuleId.mem_ascending]
    simp
  | forbidden sequence =>
    simp only [propagate, Permits, ← Sequence.containsRun_iff]
    rcases List.eq_nil_or_concat sequence with rfl | ⟨chain, last, rfl⟩
    · simp
    · simp only [List.concat_eq_append, List.getLast?_concat, List.dropLast_concat]
      have hsplit : ∀ p : List RuleId → Prop,
          (∀ other, chain ++ [last] = other ++ [r] → p other) ↔ (r = last → p chain) := by
        intro p
        constructor
        · rintro h rfl
          exact h chain rfl
        · intro h other heq
          obtain ⟨rfl, hlast⟩ := List.append_inj' heq rfl
          exact h (by simpa using hlast.symm)
      rw [hsplit]
      split
      · rename_i hnarrow
        simp only [Bool.and_eq_true] at hnarrow
        simp [BitSet.containsRule_eraseRule, hnarrow.2]
      · rename_i hkeep
        by_cases hr : r = last
        · subst hr
          simpa using hkeep
        · simp [hr]

/-- Several constraints keep the candidates of a hole that each of them permits there. -/
theorem containsRule_propagateAll {constraints : List Constraint} :
    (propagateAll constraints t path domain).containsRule r = true ↔
      domain.containsRule r = true ∧
        ∀ c ∈ constraints, c.Permits (t.ancestors path) (· ∈ t.leftRules path) r := by
  unfold propagateAll
  induction constraints generalizing domain with
  | nil => simp
  | cons c rest ih => simp [ih, containsRule_propagate, and_assoc]

end TypedGrammar.Constraint
