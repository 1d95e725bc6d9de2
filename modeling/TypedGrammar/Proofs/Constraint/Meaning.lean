import TypedGrammar.Proofs.Constraint.Folding
import TypedGrammar.Proofs.Tree.LeftRules

/-!
# What each kind of constraint takes out

Which rules go is decided by the chain of rules above the place and by the rules to the left of it. A
constraint on what comes above or a forbidden sequence takes out one rule or nothing; an order takes
out every rule of it that has one before it that is missing on the left.
-/

namespace TypedGrammar

/-- Taking out a rule that is not there changes nothing. -/
theorem BitSet.eraseRule_of_not_containsRule {s : BitSet} {r : RuleId}
    (h : s.containsRule r = false) : s.eraseRule r = s := by
  refine BitSet.eq_of_contains (BitSet.size_words_erase s r.number) fun i => ?_
  rw [eraseRule, contains_erase]
  by_cases hi : i = r.number
  · rw [hi, ← containsRule, h]
    rfl
  · simp [hi]

namespace Constraint

variable {t : Tree} {path : Path} {order : List RuleId} {r : RuleId}

/-- A rule that needs others above it goes when these do not embed into the chain above the place. -/
theorem propagate_comesAfter (rule : RuleId) (predecessors : List RuleId) (t : Tree) (path : Path)
    (domain : BitSet) : (comesAfter rule predecessors).propagate t path domain =
      if predecessors.Sublist (t.ancestors path) then domain else domain.eraseRule rule := by
  simp only [propagate, ← Sequence.isSubsequence_iff]
  cases hmember : domain.containsRule rule with
  | false => simp [BitSet.eraseRule_of_not_containsRule hmember]
  | true => cases Sequence.isSubsequence predecessors (t.ancestors path) <;> rfl

/-- The last rule of a forbidden sequence goes when those before it are a run of the chain above the
place. -/
theorem propagate_forbidden (chain : List RuleId) (last : RuleId) (t : Tree) (path : Path)
    (domain : BitSet) : (forbidden (chain ++ [last])).propagate t path domain =
      if chain <:+: t.ancestors path then domain.eraseRule last else domain := by
  simp only [propagate, List.getLast?_concat, List.dropLast_concat, ← Sequence.containsRun_iff]
  cases hmember : domain.containsRule last with
  | false => simp [BitSet.eraseRule_of_not_containsRule hmember]
  | true => simp

/-- The entries before a position of an order are those with a smaller position. -/
theorem mem_take_iff {k : Nat} {earlier : RuleId} :
    earlier ∈ order.take k ↔ ∃ j, j < k ∧ order[j]? = some earlier := by
  rw [List.mem_iff_getElem?]
  simp only [List.getElem?_take]
  constructor
  · intro h
    obtain ⟨j, hj⟩ := h
    split at hj
    · rename_i hlt
      exact ⟨j, hlt, hj⟩
    · cases hj
  · intro h
    obtain ⟨j, hlt, hj⟩ := h
    exact ⟨j, by rw [if_pos hlt, hj]⟩

/-- A rule of an order is blocked when one before it does not stand to the left. -/
theorem mem_blocked_iff_standsLeft : r ∈ blocked (t.rulesOnLeft path) order ↔
    ∃ k : Nat, order[k]? = some r ∧
      ∃ (j : Nat) (earlier : RuleId), j < k ∧ order[j]? = some earlier ∧ ¬ t.StandsLeft path earlier := by
  simp only [mem_blocked, mem_take_iff, Tree.rulesOnLeft, RuleId.mem_ascending, Tree.mem_leftRules_iff]
  constructor
  · intro h
    obtain ⟨k, hk, earlier, ⟨j, hlt, hj⟩, hmissing⟩ := h
    exact ⟨k, hk, j, earlier, hlt, hj, hmissing⟩
  · intro h
    obtain ⟨k, hk, j, earlier, hlt, hj, hmissing⟩ := h
    exact ⟨k, hk, earlier, ⟨j, hlt, hj⟩, hmissing⟩

/-! ### The members that are left -/

variable {domain : BitSet} {i : Nat}

/-- Of the members of a domain the rule that needs others above it goes, unless these embed into the chain
above the place. -/
theorem contains_propagate_comesAfter {rule : RuleId} {predecessors : List RuleId} :
    ((comesAfter rule predecessors).propagate t path domain).contains i = true ↔
      domain.contains i = true ∧ (i = rule.number → predecessors.Sublist (t.ancestors path)) := by
  rw [contains_propagate]
  refine and_congr_right fun _ => ⟨fun h hi => h rule hi.symm rfl, fun h r hr hrule => ?_⟩
  exact h (hrule ▸ hr.symm)

/-- Of the members of a domain those rules of an order go that have one before them which does not stand to
the left. -/
theorem contains_propagate_ordered :
    ((ordered order).propagate t path domain).contains i = true ↔ domain.contains i = true ∧
      ∀ (r : RuleId) (k : Nat), r.number = i → order[k]? = some r →
        ∀ (j : Nat) (earlier : RuleId), j < k → order[j]? = some earlier → t.StandsLeft path earlier := by
  rw [contains_propagate]
  refine and_congr_right fun _ => ⟨fun h r k hr hk j earlier hlt hj => ?_, fun h r hr k hk earlier hmem => ?_⟩
  · exact Tree.mem_leftRules_iff.mp (h r hr k hk earlier (mem_take_iff.mpr ⟨j, hlt, hj⟩))
  · obtain ⟨j, hlt, hj⟩ := mem_take_iff.mp hmem
    exact Tree.mem_leftRules_iff.mpr (h r k hr hk j earlier hlt hj)

/-- Of the members of a domain the last rule of a forbidden sequence goes when those before it are a run of
the chain above the place. -/
theorem contains_propagate_forbidden {chain : List RuleId} {last : RuleId} :
    ((forbidden (chain ++ [last])).propagate t path domain).contains i = true ↔
      domain.contains i = true ∧ (i = last.number → ¬ chain <:+: t.ancestors path) := by
  rw [contains_propagate]
  refine and_congr_right fun _ => ⟨fun h hi => h last hi.symm chain rfl, fun h r hr before hbefore => ?_⟩
  obtain ⟨rfl, hlast⟩ := List.append_inj' hbefore rfl
  obtain rfl : last = r := List.singleton_inj.mp hlast
  exact h hr.symm

/-! ### All kinds -/

/-- What the three kinds of constraints leave of a domain at a node with a chain of rules above it. -/
structure NarrowsExactly (t : Tree) (path : Path) (above : List RuleId) : Prop where
  /-- The chain is made of the rules at the proper prefixes of the path, from the root down. -/
  above_eq : path.inits.dropLast.map t.ruleAtPath? = above.map some
  /-- A rule that needs others above it goes unless these embed into the chain. -/
  comesAfter : ∀ rule predecessors domain,
    (comesAfter rule predecessors).propagate t path domain =
      if predecessors.Sublist above then domain else domain.eraseRule rule
  /-- Of an order goes every rule with one before it that does not stand to the left. -/
  ordered : ∀ order domain, ∃ gone : List RuleId,
    (∀ r, r ∈ gone ↔ ∃ k : Nat, order[k]? = some r ∧
      ∃ (j : Nat) (earlier : RuleId), j < k ∧ order[j]? = some earlier ∧ ¬ t.StandsLeft path earlier) ∧
    (ordered order).propagate t path domain = gone.foldl BitSet.eraseRule domain
  /-- The last rule of a forbidden sequence goes when those before it are a run of the chain. -/
  forbidden : ∀ chain last domain, (forbidden (chain ++ [last])).propagate t path domain =
    if chain <:+: above then domain.eraseRule last else domain
  /-- In terms of members, the rule that needs others above it is the only one that can go. -/
  mem_comesAfter : ∀ rule predecessors domain i,
    ((Constraint.comesAfter rule predecessors).propagate t path domain).contains i = true ↔
      domain.contains i = true ∧ (i = rule.number → predecessors.Sublist above)
  /-- A rule stays under an order when all rules before it, wherever it is mentioned, stand to the left. -/
  mem_ordered : ∀ order domain i,
    ((Constraint.ordered order).propagate t path domain).contains i = true ↔
      domain.contains i = true ∧ ∀ (r : RuleId) (k : Nat), r.number = i → order[k]? = some r →
        ∀ (j : Nat) (earlier : RuleId), j < k → order[j]? = some earlier → t.StandsLeft path earlier
  /-- The last rule of a forbidden sequence is the only one that can go. -/
  mem_forbidden : ∀ chain last domain i,
    ((Constraint.forbidden (chain ++ [last])).propagate t path domain).contains i = true ↔
      domain.contains i = true ∧ (i = last.number → ¬ chain <:+: above)

/-- At every node of a tree the constraints take out exactly what they are about. -/
theorem propagate_exact (h : t.checkPath path = .ok ()) :
    ∃ above, NarrowsExactly t path above :=
  ⟨t.ancestors path, {
    above_eq := Tree.map_ruleAtPath?_eq h
    comesAfter := fun rule predecessors domain => propagate_comesAfter rule predecessors t path domain
    ordered := fun _ _ => ⟨_, fun _ => mem_blocked_iff_standsLeft, rfl⟩
    forbidden := fun chain last domain => propagate_forbidden chain last t path domain
    mem_comesAfter := fun _ _ _ _ => contains_propagate_comesAfter
    mem_ordered := fun _ _ _ => contains_propagate_ordered
    mem_forbidden := fun _ _ _ _ => contains_propagate_forbidden }⟩

/-- The hole is the second child of a node with the third rule, behind a sibling with the first one. Its
candidates are the first two rules. The second one stays when it needs the third one above it, and goes
when it needs the first one there. Of an order that begins with the second rule the first one goes, and
so it does when it is forbidden below the third one. -/
theorem siblings_propagate_exact :
    let domain : BitSet := .ofRules [⟨0⟩, ⟨1⟩]
    let t : Tree := .apply ⟨2⟩ [.apply ⟨0⟩ [], .hole ⟨domain, .unexpanded⟩]
    t.checkPath [2] = .ok () ∧ NarrowsExactly t [2] [⟨2⟩] ∧
      ((comesAfter ⟨1⟩ [⟨2⟩]).propagate t [2] domain).rules = [⟨0⟩, ⟨1⟩] ∧
      ((comesAfter ⟨1⟩ [⟨0⟩]).propagate t [2] domain).rules = [⟨0⟩] ∧
      ((ordered [⟨1⟩, ⟨0⟩]).propagate t [2] domain).rules = [⟨1⟩] ∧
      ((forbidden [⟨2⟩, ⟨0⟩]).propagate t [2] domain).rules = [⟨1⟩] := by
  intro domain t
  have hpath : t.checkPath [2] = .ok () := rfl
  obtain ⟨above, hnarrows⟩ := propagate_exact hpath
  have habove : above = [⟨2⟩] := (List.map_injective_iff.mpr (Option.some_injective _)) hnarrows.above_eq.symm
  exact ⟨hpath, habove ▸ hnarrows, by decide, by decide, by decide, by decide⟩

end Constraint

end TypedGrammar
