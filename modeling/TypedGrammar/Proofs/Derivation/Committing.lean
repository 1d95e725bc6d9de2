import TypedGrammar.Proofs.Constraint.Retargeting
import TypedGrammar.Proofs.Derivation.Renaming
import TypedGrammar.Proofs.Tree.Places

/-!
# Filling a hole, and what it does to the other holes

A candidate of a hole fills it in the way of its kind: an ordinary rule expands it, an immediate one
brings a literal along. Filling one hole never takes a candidate away from another. The rules above the
other hole stay, and those to its left can only become more, which is what an order waits for; the other
constraints look at the rules above only. So the legal rules of the other hole stay the same when the
hole that is filled comes after it, and also when no constraint is an order.
-/

namespace TypedGrammar

namespace Constraint

variable {c : Constraint} {constraints : List Constraint} {t t' : Tree} {path : Path} {r : RuleId}
  {above : List RuleId} {before before' : RuleId → Prop}

/-- Only an order asks what came before. -/
theorem permits_iff_of_ne_ordered (h : ∀ order, c ≠ .ordered order) :
    c.Permits above before r ↔ c.Permits above before' r := by
  cases c with
  | comesAfter rule predecessors => exact Iff.rfl
  | ordered order => exact absurd rfl (h order)
  | forbidden sequence => exact Iff.rfl

/-- At a place where more is permitted, more is left of a domain. -/
theorem propagateAll_isSubset_of_permits (domain : BitSet)
    (h : ∀ c ∈ constraints, ∀ r, c.Permits (t.ancestors path) (· ∈ t.leftRules path) r →
      c.Permits (t'.ancestors path) (· ∈ t'.leftRules path) r) :
    (propagateAll constraints t path domain).isSubset
      (propagateAll constraints t' path domain) = true := by
  refine BitSet.isSubset_iff.mpr fun i hi => ?_
  rw [contains_propagateAll] at hi ⊢
  exact ⟨hi.1, fun c hc r hr => h c hc r (hi.2 c hc r hr)⟩

/-- At places where the same is permitted, the same is left of a domain. -/
theorem propagateAll_eq_of_permits (domain : BitSet)
    (h : ∀ c ∈ constraints, ∀ r, c.Permits (t.ancestors path) (· ∈ t.leftRules path) r ↔
      c.Permits (t'.ancestors path) (· ∈ t'.leftRules path) r) :
    propagateAll constraints t' path domain = propagateAll constraints t path domain := by
  refine BitSet.eq_of_contains (by simp) fun i => Bool.eq_iff_iff.mpr ?_
  exact ⟨BitSet.isSubset_iff.mp
      (propagateAll_isSubset_of_permits domain fun c hc r => (h c hc r).mpr) i,
    BitSet.isSubset_iff.mp (propagateAll_isSubset_of_permits domain fun c hc r => (h c hc r).mp) i⟩

end Constraint

namespace Grammar

variable {g : Grammar} {t t' : Tree} {path other : Path} {hole : Hole} {r : RuleId} {rule : Rule}

/-- A path leads to a hole when the hole is the node that it addresses. -/
theorem holeAt_eq_ok_iff : holeAt t path = .ok hole ↔ t.subtree? path = some (.hole hole) := by
  constructor
  · intro h
    obtain ⟨ctx, rfl, rfl⟩ := of_holeAt h
    exact ctx.subtree?_plug _
  · intro h
    obtain ⟨ctx, rfl, rfl⟩ := Tree.exists_context_of_subtree? h
    exact holeAt_plug ctx hole

/-- The path of a hole passes the check. -/
theorem checkPath_of_holeAt (h : holeAt t path = .ok hole) : t.checkPath path = .ok () := by
  obtain ⟨ctx, rfl, rfl⟩ := of_holeAt h
  exact ctx.checkPath_plug _

/-! ### Filling a hole -/

/-- A rule of the table that is a candidate of a hole may be committed to it. -/
theorem checkCommit_of_candidate (hhole : holeAt t path = .ok hole) (hr : g.ruleAt? r = some rule)
    (hcandidate : hole.domain.containsRule r = true) : g.checkCommit t path r = .ok () := by
  rw [checkCommit, hhole, ok_bind, isRemoved_of_ruleAt? hr, ok_bind, hcandidate]
  rfl

/-- A node can be put in the place of a hole. -/
theorem result_commit (hhole : holeAt t path = .ok hole) (node : Tree) :
    (commit t path node).result = .ok () := by
  obtain ⟨ctx, rfl, rfl⟩ := of_holeAt hhole
  rw [commit, Context.editNode_plug]
  rfl

/-- A literal fills a hole with an immediate candidate, and with no other one. -/
theorem result_fillImmediate (hhole : holeAt t path = .ok hole) (hr : g.ruleAt? r = some rule)
    (hcandidate : hole.domain.containsRule r = true) (value : Value) :
    (g.fillImmediate t path r value).result =
      if rule.immediate then .ok () else report (.notImmediate r) := by
  rw [fillImmediate, checkCommit_of_candidate hhole hr hcandidate, ok_bind,
    isImmediate_of_ruleAt? hr, ok_bind]
  cases rule.immediate with
  | false => rfl
  | true => exact result_commit hhole _

/-- An ordinary candidate of a hole expands it, and no other one does. -/
theorem Consistent.result_expand (hg : Consistent g) (hhole : holeAt t path = .ok hole)
    (hr : g.ruleAt? r = some rule) (hcandidate : hole.domain.containsRule r = true) :
    (g.expand t path r).result = if rule.immediate then report (.needsValue r) else .ok () := by
  rw [expand, checkCommit_of_candidate hhole hr hcandidate, ok_bind]
  cases himmediate : rule.immediate with
  | false =>
    obtain ⟨node, hnode⟩ := hg.exists_expansion hr himmediate
    rw [hnode]
    exact result_commit hhole _
  | true =>
    rw [expansion, isImmediate_of_ruleAt? hr, ok_bind, himmediate]
    rfl

/-! ### The other holes -/

/-- A rule was committed to the hole at a path of the first tree, and the second tree came out. -/
inductive Commits (g : Grammar) (t : Tree) (path : Path) (t' : Tree) : Prop
  /-- An ordinary rule. -/
  | expand (r : RuleId) (hresult : (g.expand t path r).result = .ok ())
      (hstate : (g.expand t path r).state = t')
  /-- An immediate rule with its literal. -/
  | fillImmediate (r : RuleId) (value : Value)
      (hresult : (g.fillImmediate t path r value).result = .ok ())
      (hstate : (g.fillImmediate t path r value).state = t')

/-- An immediate rule that fills a hole is one that may be committed to it. -/
theorem of_fillImmediate {r : RuleId} {value : Value}
    (h : (g.fillImmediate t path r value).result = .ok ()) :
    g.checkCommit t path r = .ok () ∧
      g.fillImmediate t path r value = commit t path (.immediate r value) := by
  unfold fillImmediate at h ⊢
  dsimp only at h ⊢
  split at h
  · rename_i hcheck
    obtain ⟨⟨⟩, hcommit, -⟩ := bind_eq_ok.mp hcheck
    exact ⟨hcommit, rfl⟩
  · cases h

/-- A commit puts a node in the place of a hole and leaves the tree around it alone. -/
theorem Commits.exists_context (h : Commits g t path t') :
    ∃ (ctx : Context) (filled : Hole) (node : Tree),
      t = ctx.plug (.hole filled) ∧ path = ctx.path ∧ t' = ctx.plug node := by
  have hcommit : ∃ r node, g.checkCommit t path r = .ok () ∧ t' = (commit t path node).state := by
    cases h with
    | expand r hresult hstate =>
      obtain ⟨hcheck, node, -, hcommit⟩ := of_expand hresult
      exact ⟨r, node, hcheck, by rw [← hstate, hcommit]⟩
    | fillImmediate r value hresult hstate =>
      obtain ⟨hcheck, hcommit⟩ := of_fillImmediate hresult
      exact ⟨r, .immediate r value, hcheck, by rw [← hstate, hcommit]⟩
  obtain ⟨r, node, hcheck, rfl⟩ := hcommit
  obtain ⟨ctx, filled, rfl, rfl, -⟩ := of_checkCommit hcheck
  exact ⟨ctx, filled, node, rfl, rfl, by rw [commit, Context.editNode_plug]; rfl⟩

/-- When another hole is filled, a hole stays where it is and loses no legal rule. Its legal rules are
the same if it stands to the left of the hole that is filled, or if no constraint is an order. -/
theorem legalDomain_mono_of_commits (hhole : holeAt t path = .ok hole) (hne : path ≠ other)
    (hcommits : Commits g t other t') :
    holeAt t' path = .ok hole ∧ ∃ legal legal', g.legalDomain t path = .ok legal ∧
      g.legalDomain t' path = .ok legal' ∧ legal.isSubset legal' = true ∧
      (Path.BranchesLeft path other → legal' = legal) ∧
      ((∀ c ∈ g.constraints, ∀ order, c ≠ .ordered order) → legal' = legal) := by
  obtain ⟨ctx, filled, node, rfl, rfl, rfl⟩ := hcommits.exists_context
  have hhole' : holeAt (ctx.plug node) path = .ok hole :=
    holeAt_eq_ok_iff.mpr (ctx.subtree?_plug_of_ne node hne (holeAt_eq_ok_iff.mp hhole))
  have hextends := ctx.extends_plug_hole filled node
  have habove := hextends.ancestors_eq (checkPath_of_holeAt hhole) (checkPath_of_holeAt hhole')
  have hleft : ∀ r, r ∈ (ctx.plug (.hole filled)).leftRules path →
      r ∈ (ctx.plug node).leftRules path := by
    intro r hr
    rw [Tree.mem_leftRules_iff] at hr ⊢
    exact hextends.standsLeft hr
  refine ⟨hhole', _, _, legalDomain_of_holeAt hhole, legalDomain_of_holeAt hhole', ?_, ?_, ?_⟩
  · refine Constraint.propagateAll_isSubset_of_permits _ fun c _ r hr => ?_
    rw [habove]
    exact hr.mono hleft
  · intro hbranches
    have hback : ∀ r, r ∈ (ctx.plug node).leftRules path →
        r ∈ (ctx.plug (.hole filled)).leftRules path := by
      intro r hr
      rw [Tree.mem_leftRules_iff] at hr ⊢
      exact (Context.standsLeft_plug_iff hbranches filled node).mp hr
    refine Constraint.propagateAll_eq_of_permits _ fun c _ r => ?_
    rw [habove]
    exact ⟨fun hr => hr.mono hleft, fun hr => hr.mono hback⟩
  · intro hunordered
    refine Constraint.propagateAll_eq_of_permits _ fun c hc r => ?_
    rw [habove]
    exact Constraint.permits_iff_of_ne_ordered (hunordered c hc)

/-- Comparisons where a one has to come before a sum. -/
def orderedComparisons : Grammar := (comparisons.addConstraint (.ordered [⟨0⟩, ⟨1⟩])).state

/-- With a one on the left side of a comparison, a sum becomes legal on the right side. -/
theorem orderedComparisons_legalDomain_mono :
    let sides : Tree := .unexpanded (.ofRules [⟨0⟩, ⟨1⟩])
    let t : Tree := .apply ⟨2⟩ [sides, sides]
    let t' : Tree := .apply ⟨2⟩ [.apply ⟨0⟩ [], sides]
    Reachable orderedComparisons ∧ holeAt t [2] = .ok ⟨.ofRules [⟨0⟩, ⟨1⟩], .unexpanded⟩ ∧
      Commits orderedComparisons t [1] t' ∧
      holeAt t' [2] = .ok ⟨.ofRules [⟨0⟩, ⟨1⟩], .unexpanded⟩ ∧
      ∃ legal legal', orderedComparisons.legalDomain t [2] = .ok legal ∧
        orderedComparisons.legalDomain t' [2] = .ok legal' ∧ legal.isSubset legal' = true ∧
        legal.rules = [⟨0⟩] ∧ legal'.rules = [⟨0⟩, ⟨1⟩] := by
  intro sides t t'
  have hreachable : Reachable orderedComparisons :=
    ((Reachable.empty.addRules _ _).addRule _ _).addConstraint _
  have hhole : holeAt t [2] = .ok ⟨.ofRules [⟨0⟩, ⟨1⟩], .unexpanded⟩ := rfl
  have hcommits : Commits orderedComparisons t [1] t' := .expand ⟨0⟩ (by cbv) (by cbv)
  obtain ⟨hhole', legal, legal', hlegal, hlegal', hsubset, -, -⟩ :=
    legalDomain_mono_of_commits hhole (by decide) hcommits
  refine ⟨hreachable, hhole, hcommits, hhole', legal, legal', hlegal, hlegal', hsubset, ?_, ?_⟩
  · have hones : orderedComparisons.legalDomain t [2] = .ok (.ofRules [⟨0⟩]) := by cbv
    rw [hones] at hlegal
    obtain rfl := Except.ok.inj hlegal
    cbv
  · have hboth : orderedComparisons.legalDomain t' [2] = .ok (.ofRules [⟨0⟩, ⟨1⟩]) := by cbv
    rw [hboth] at hlegal'
    obtain rfl := Except.ok.inj hlegal'
    cbv

end Grammar

end TypedGrammar
