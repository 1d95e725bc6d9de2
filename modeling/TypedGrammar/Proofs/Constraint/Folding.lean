import TypedGrammar.Proofs.Constraint.Narrowing
import TypedGrammar.Proofs.Derivation.Rewriting
import TypedGrammar.Proofs.SetComparison
import TypedGrammar.Proofs.Tree.Positions

/-!
# Folding constraints over a domain

Each constraint narrows what the constraints before it left over, and what it takes out is decided by
the tree and the path alone. So the fold is an intersection: of the whole domain, each constraint by
itself has to leave a number. Neither the order of the constraints nor repetitions matter, and a second
fold finds nothing more to take out.
-/

namespace TypedGrammar

namespace Constraint

variable {c : Constraint} {constraints constraints' : List Constraint} {t t' : Tree} {path : Path}
  {domain domain' : BitSet} {i : Nat}

/-! ### One constraint -/

/-- A constraint takes rules out of a domain one after the other. -/
theorem exists_propagate_eq_foldl (c : Constraint) (t : Tree) (path : Path) (domain : BitSet) :
    ∃ gone : List RuleId, c.propagate t path domain = gone.foldl BitSet.eraseRule domain := by
  unfold propagate
  split
  · split
    · exact ⟨[_], rfl⟩
    · exact ⟨[], rfl⟩
  · exact ⟨_, rfl⟩
  · split
    · exact ⟨[], rfl⟩
    · split
      · exact ⟨[_], rfl⟩
      · exact ⟨[], rfl⟩

/-- What is left over by a constraint has as many words as the domain. -/
@[simp] theorem size_words_propagate (c : Constraint) (t : Tree) (path : Path) (domain : BitSet) :
    (c.propagate t path domain).words.size = domain.words.size := by
  obtain ⟨gone, hgone⟩ := exists_propagate_eq_foldl c t path domain
  rw [hgone, BitSet.size_words_foldl_eraseRule]

/-- Bit 0 stands for no rule, so no constraint takes it out. -/
theorem contains_zero_propagate (c : Constraint) (t : Tree) (path : Path) (domain : BitSet) :
    (c.propagate t path domain).contains 0 = domain.contains 0 := by
  obtain ⟨gone, hgone⟩ := exists_propagate_eq_foldl c t path domain
  rw [hgone, BitSet.contains_zero_foldl_eraseRule]

/-- A constraint keeps a number unless it stands for a rule that is not permitted. -/
theorem contains_propagate : (c.propagate t path domain).contains i = true ↔
    domain.contains i = true ∧ ∀ r : RuleId, r.number = i →
      c.Permits (t.ancestors path) (· ∈ t.leftRules path) r := by
  revert i
  rw [BitSet.forall_number_iff]
  constructor
  · have hzero : ∀ r : RuleId, r.number ≠ 0 := fun r => Nat.succ_ne_zero r.index
    simp [contains_zero_propagate, hzero]
  · intro r
    have hrule : (c.propagate t path domain).containsRule r = true ↔ domain.containsRule r = true ∧
        c.Permits (t.ancestors path) (· ∈ t.leftRules path) r := containsRule_propagate
    simpa [BitSet.containsRule, RuleId.number_inj] using hrule

/-! ### Several constraints -/

/-- What is left over by several constraints has as many words as the domain. -/
@[simp] theorem size_words_propagateAll (constraints : List Constraint) (t : Tree) (path : Path)
    (domain : BitSet) :
    (propagateAll constraints t path domain).words.size = domain.words.size := by
  unfold propagateAll
  induction constraints generalizing domain with
  | nil => rfl
  | cons c rest ih => rw [List.foldl_cons, ih, size_words_propagate]

/-- Several constraints keep a number unless it stands for a rule that one of them does not permit. -/
theorem contains_propagateAll : (propagateAll constraints t path domain).contains i = true ↔
    domain.contains i = true ∧ ∀ c ∈ constraints, ∀ r : RuleId, r.number = i →
      c.Permits (t.ancestors path) (· ∈ t.leftRules path) r := by
  unfold propagateAll
  induction constraints generalizing domain with
  | nil => simp
  | cons c rest ih => simp [ih, contains_propagate, and_assoc]

/-- What a fold leaves over is decided by the members of its domain, by which constraints there are, and
by the rules above and to the left of the place. -/
theorem propagateAll_congr (hmem : ∀ c, c ∈ constraints' ↔ c ∈ constraints)
    (habove : t'.ancestors path = t.ancestors path) (hleft : t'.leftRules path = t.leftRules path) :
    propagateAll constraints' t' path domain = propagateAll constraints t path domain := by
  refine BitSet.eq_of_contains (by simp) fun i => Bool.eq_iff_iff.mpr ?_
  rw [contains_propagateAll, contains_propagateAll, habove, hleft]
  simp only [hmem]

/-- A number is left over when each constraint by itself leaves it over of the whole domain. -/
theorem contains_propagateAll_iff_each : (propagateAll constraints t path domain).contains i = true ↔
    domain.contains i = true ∧
      ∀ c ∈ constraints, (c.propagate t path domain).contains i = true := by
  rw [contains_propagateAll]
  simp only [contains_propagate]
  constructor
  · intro h
    exact ⟨h.1, fun c hc => ⟨h.1, h.2 c hc⟩⟩
  · intro h
    exact ⟨h.1, fun c hc => (h.2 c hc).2⟩

/-- Nothing is left over that was not in the domain. -/
theorem propagateAll_isSubset : (propagateAll constraints t path domain).isSubset domain = true :=
  BitSet.isSubset_iff.mpr fun _ hi => (contains_propagateAll.mp hi).1

/-- Of a smaller domain no more is left over. -/
theorem propagateAll_mono (h : domain.isSubset domain' = true) :
    (propagateAll constraints t path domain).isSubset
      (propagateAll constraints t path domain') = true := by
  rw [BitSet.isSubset_iff] at h ⊢
  intro i hi
  rw [contains_propagateAll] at hi ⊢
  exact ⟨h i hi.1, hi.2⟩

/-- It does not matter whether a domain is cut down before or after the constraints narrow it. -/
theorem propagateAll_inter (constraints : List Constraint) (t : Tree) (path : Path)
    (domain other : BitSet) : propagateAll constraints t path (domain.inter other) =
      (propagateAll constraints t path domain).inter other := by
  refine BitSet.eq_of_contains (by simp) fun i => Bool.eq_iff_iff.mpr ?_
  rw [contains_propagateAll, BitSet.contains_inter, BitSet.contains_inter, Bool.and_eq_true,
    Bool.and_eq_true, contains_propagateAll, and_right_comm]

/-- Narrowing a second time changes nothing. -/
theorem propagateAll_propagateAll (constraints : List Constraint) (t : Tree) (path : Path)
    (domain : BitSet) : propagateAll constraints t path (propagateAll constraints t path domain) =
      propagateAll constraints t path domain := by
  refine BitSet.eq_of_contains (by simp) fun i => Bool.eq_iff_iff.mpr ?_
  rw [contains_propagateAll, contains_propagateAll, and_assoc, and_self]

/-- Meeting a domain with what a fold leaves over of it gives what is left over. -/
theorem inter_propagateAll (constraints : List Constraint) (t : Tree) (path : Path)
    (domain : BitSet) : domain.inter (propagateAll constraints t path domain) =
      propagateAll constraints t path domain := by
  refine BitSet.eq_of_contains (by simp) fun i => Bool.eq_iff_iff.mpr ?_
  rw [BitSet.contains_inter, Bool.and_eq_true, contains_propagateAll, ← and_assoc, and_self]

/-! ### The fold of a grammar -/

/-- After a hole was narrowed to its legal domain, its legal domain is the same. The constraints look at
the rules around the hole, which are those of its context, whatever the domain. -/
theorem legalDomain_narrowAt {g : Grammar} {legal : BitSet} (h : g.legalDomain t path = .ok legal) :
    g.legalDomain (t.narrowAt path legal).state path = .ok legal := by
  obtain ⟨hole, hhole, hlegal⟩ := bind_eq_ok.mp h
  obtain ⟨ctx, rfl, rfl⟩ := Grammar.of_holeAt hhole
  obtain rfl := Except.ok.inj hlegal
  set legal := propagateAll g.constraints (ctx.plug (.hole hole)) ctx.path hole.domain with hlegal
  have hnarrowed : ((ctx.plug (.hole hole)).narrowAt ctx.path legal).state =
      ctx.plug (.hole ⟨legal, .constrained⟩) := by
    rw [Tree.narrowAt, Context.editNode_plug, Tree.narrowRoot, Hole.narrow, hlegal,
      inter_propagateAll]
    rfl
  rw [hnarrowed, Grammar.legalDomain, Grammar.holeAt_plug, ok_bind]
  have hagain : propagateAll g.constraints (ctx.plug (.hole ⟨legal, .constrained⟩)) ctx.path legal =
      propagateAll g.constraints (ctx.plug (.hole hole)) ctx.path legal := by
    refine propagateAll_congr (fun _ => Iff.rfl) ?_ ?_
    · rw [Context.ancestors_plug, Context.ancestors_plug]
    · rw [Context.leftRules_plug, Context.leftRules_plug]
      rfl
  rw [hagain, hlegal, propagateAll_propagateAll]
  rfl

/-- Folding constraints over a domain intersects what each of them leaves of it. -/
structure FoldIntersects (constraints : List Constraint) (t : Tree) (path : Path) : Prop where
  /-- A number is left over exactly when it was there and each constraint by itself leaves it over. -/
  contains_iff : ∀ domain i, (propagateAll constraints t path domain).contains i = true ↔
    domain.contains i = true ∧ ∀ c ∈ constraints, (c.propagate t path domain).contains i = true
  /-- What is left over is part of the domain. -/
  isSubset : ∀ domain, (propagateAll constraints t path domain).isSubset domain = true
  /-- The order of the constraints does not matter. -/
  perm : ∀ constraints' domain, constraints'.Perm constraints →
    propagateAll constraints' t path domain = propagateAll constraints t path domain
  /-- Nor do repetitions: what counts is which constraints there are. -/
  eq_of_mem_iff : ∀ constraints' domain, (∀ c, c ∈ constraints' ↔ c ∈ constraints) →
    propagateAll constraints' t path domain = propagateAll constraints t path domain
  /-- Of more at least as much is left over. -/
  mono : ∀ domain domain', domain.isSubset domain' = true →
    (propagateAll constraints t path domain).isSubset
      (propagateAll constraints t path domain') = true
  /-- Numbers may be dropped before or after. -/
  inter : ∀ domain other, propagateAll constraints t path (domain.inter other) =
    (propagateAll constraints t path domain).inter other
  /-- A second fold takes nothing out. -/
  idempotent : ∀ domain, propagateAll constraints t path (propagateAll constraints t path domain) =
    propagateAll constraints t path domain
  /-- This is so as well when the hole was narrowed to its legal domain in between. -/
  narrowed : ∀ (g : Grammar) legal, g.constraints = constraints →
    g.legalDomain t path = .ok legal →
    g.legalDomain (t.narrowAt path legal).state path = .ok legal

/-- On every tree and along every path, whether it leads to a node or not, a fold of constraints is an
intersection. -/
theorem propagateAll_intersects (constraints : List Constraint) (t : Tree) (path : Path) :
    FoldIntersects constraints t path where
  contains_iff _ _ := contains_propagateAll_iff_each
  isSubset _ := propagateAll_isSubset
  perm _ _ hperm := propagateAll_congr (fun _ => hperm.mem_iff) rfl rfl
  eq_of_mem_iff _ _ hmem := propagateAll_congr hmem rfl rfl
  mono _ _ := propagateAll_mono
  inter := propagateAll_inter constraints t path
  idempotent := propagateAll_propagateAll constraints t path
  narrowed _ _ _ := legalDomain_narrowAt

end Constraint

end TypedGrammar
