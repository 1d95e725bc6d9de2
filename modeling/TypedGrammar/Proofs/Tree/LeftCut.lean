import TypedGrammar.Proofs.Tree.Preorder
import Mathlib.Data.List.Lex

/-!
# The rules to the left of a path as a cut

In lexicographic order a path comes behind its proper prefixes and behind the paths that branch off it to
the left. So the walk to the left of a path cuts the tree in this order: it meets the filled nodes that
come at most as late as the path, and those below the path. With nothing below it, a path that comes
earlier cuts off less.
-/

namespace TypedGrammar

variable {path other : Path} {t : Tree} {r : RuleId}

/-- A path comes at most as late as another exactly when it is a prefix of the other or branches off it to
the left. -/
theorem Path.le_iff : other ≤ path ↔ other <+: path ∨ other.BranchesLeft path := by
  rw [← not_lt]
  induction other generalizing path with
  | nil => exact iff_of_true (List.not_lt_nil path) (.inl List.nil_prefix)
  | cons j other ih =>
    cases path with
    | nil =>
      refine iff_of_false (fun h => h (List.nil_lt_cons j other)) fun h => ?_
      rcases h with hnil | ⟨common, _, _, _, _, _, _, hnil⟩
      · cases List.prefix_nil.mp hnil
      · cases common <;> cases hnil
    | cons i path =>
      rw [List.cons_lt_cons_iff, List.cons_prefix_cons, branchesLeft_cons_iff, not_or, not_and, ih]
      rcases lt_trichotomy j i with hleft | rfl | hright
      · simp [hleft, hleft.ne, hleft.ne', hleft.le]
      · simp
      · simp [hright, hright.ne, hright.ne', hright.not_gt]

namespace Tree

/-- The rules to the left of a path are those of the filled nodes up to the path and below it. -/
theorem mem_rulesOnLeft_iff : r ∈ t.rulesOnLeft path ↔
    ∃ other, (other ≤ path ∨ path <+: other) ∧ t.ruleAtPath? other = some r := by
  simp only [rulesOnLeft, RuleId.mem_ascending, mem_leftRules_iff, StandsLeft, Path.le_iff, or_assoc]

/-- A filled node is a node. -/
theorem mem_positions_of_ruleAtPath? (h : t.ruleAtPath? path = some r) : path ∈ t.positions := by
  obtain ⟨node, hnode, -⟩ := Option.bind_eq_some_iff.mp h
  exact mem_positions.mpr ⟨node, hnode⟩

/-- The rules to the left of the paths of a tree are those up to a place in lexicographic order. -/
structure CutsLeft (t : Tree) : Prop where
  /-- The rules to the left of a path are a set. -/
  ascending : ∀ path, (t.rulesOnLeft path).Pairwise (· < ·)
  /-- They are the rules of the filled nodes at the paths that come at most as late as the path or extend
  it, whether the path leads to a node or not. -/
  mem_iff : ∀ path r, r ∈ t.rulesOnLeft path ↔
    ∃ other, (other ≤ path ∨ path <+: other) ∧ t.ruleAtPath? other = some r
  /-- The rules of the tree are those of all its filled nodes. -/
  mem_rules_iff : ∀ r, r ∈ t.rules ↔ ∃ other, t.ruleAtPath? other = some r
  /-- To the left of a later path there are at least as many rules, if nothing stands below the earlier
  one. -/
  subset : ∀ path later, path ≤ later → (∀ other ∈ t.positions, path <+: other → other = path) →
    t.rulesOnLeft path ⊆ t.rulesOnLeft later

/-- In every tree the rules to the left of any path are cut off by lexicographic order. -/
theorem cuts_left (t : Tree) : CutsLeft t where
  ascending path := RuleId.ascending_pairwise (t.leftRules path)
  mem_iff path r := mem_rulesOnLeft_iff
  mem_rules_iff r := by
    rw [rules, mem_rulesOnLeft_iff]
    simp only [or_true, List.nil_prefix, true_and]
  subset path later hle hend r hr := by
    obtain ⟨other, hplace, hrule⟩ := mem_rulesOnLeft_iff.mp hr
    have hother : other ≤ path := by
      refine hplace.elim id fun hbelow => ?_
      rw [hend other (mem_positions_of_ruleAtPath? hrule) hbelow]
    exact mem_rulesOnLeft_iff.mpr ⟨other, .inl (hother.trans hle), hrule⟩

end Tree

end TypedGrammar
