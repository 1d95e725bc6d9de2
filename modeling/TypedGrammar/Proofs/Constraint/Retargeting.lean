import Mathlib
import TypedGrammar.Proofs.Constraint.Folding
import TypedGrammar.Proofs.Grammar.Embedding
import TypedGrammar.Proofs.Tree.Renaming

/-!
# Constraints on renamed rules

A constraint compares rules and nothing else. So a renaming that keeps apart the rules in view changes
what is left of a domain by the renaming only. A merge renames the rules of the other grammar in this
way, and brings its constraints along: a hole of a tree of the other grammar has the same legal rules
as before, under their new names.
-/

namespace TypedGrammar

variable {f : RuleId → RuleId} {S : Set RuleId} {r : RuleId} {rules rules' : List RuleId}

/-! ### Lists of renamed rules -/

/-- A renaming that keeps rules apart can be undone on lists of them. -/
theorem exists_undo (hinj : Set.InjOn f S) :
    ∃ back : RuleId → RuleId, ∀ rules : List RuleId, (∀ r ∈ rules, r ∈ S) →
      (rules.map f).map back = rules := by
  have hne : Nonempty RuleId := ⟨⟨0⟩⟩
  refine ⟨Function.invFunOn f S, fun rules hrules => ?_⟩
  rw [List.map_map]
  exact (List.map_congr_left fun r hr => hinj.leftInvOn_invFunOn (hrules r hr)).trans (List.map_id rules)

/-- Renaming different rules differently keeps whether one list embeds into another. -/
theorem sublist_map_iff_of_injOn (hinj : Set.InjOn f S) (h : ∀ r ∈ rules, r ∈ S)
    (h' : ∀ r ∈ rules', r ∈ S) :
    (rules.map f).Sublist (rules'.map f) ↔ rules.Sublist rules' := by
  obtain ⟨back, hback⟩ := exists_undo hinj
  constructor
  · intro hsub
    have hundone := hsub.map back
    rwa [hback rules h, hback rules' h'] at hundone
  · exact fun hsub => hsub.map f

/-- It keeps whether one list is a run of another. -/
theorem infix_map_iff_of_injOn (hinj : Set.InjOn f S) (h : ∀ r ∈ rules, r ∈ S)
    (h' : ∀ r ∈ rules', r ∈ S) : rules.map f <:+: rules'.map f ↔ rules <:+: rules' := by
  obtain ⟨back, hback⟩ := exists_undo hinj
  constructor
  · intro hrun
    have hundone := hrun.map back
    rwa [hback rules h, hback rules' h'] at hundone
  · exact fun hrun => hrun.map f

/-- It keeps whether a rule is on a list. -/
theorem mem_map_iff_of_injOn (hinj : Set.InjOn f S) (h : ∀ r ∈ rules, r ∈ S) (hr : r ∈ S) :
    f r ∈ rules.map f ↔ r ∈ rules := by
  constructor
  · intro hmem
    obtain ⟨s, hs, hsame⟩ := List.mem_map.mp hmem
    exact hinj (h s hs) hr hsame ▸ hs
  · exact fun hmem => List.mem_map_of_mem hmem

namespace Constraint

variable {c : Constraint} {constraints constraints' : List Constraint} {t : Tree} {path : Path}
  {domain : BitSet} {above left : List RuleId}

/-! ### Propagation -/

/-- A renamed constraint permits a renamed rule where the constraint permits the rule. A renamed sequence
ends in the renamed rule only where the sequence ends in the rule. -/
theorem permits_mapRules_iff (hinj : Set.InjOn f S) (hc : ∀ x ∈ c.rules, x ∈ S)
    (habove : ∀ x ∈ above, x ∈ S) (hleft : ∀ x ∈ left, x ∈ S) (hr : r ∈ S) :
    (c.mapRules f).Permits (above.map f) (· ∈ left.map f) (f r) ↔ c.Permits above (· ∈ left) r := by
  cases c with
  | comesAfter rule predecessors =>
    have hrule : rule ∈ S := hc rule List.mem_cons_self
    have hpredecessors : ∀ x ∈ predecessors, x ∈ S := fun x hx => hc x (List.mem_cons_of_mem _ hx)
    simp only [mapRules, Permits, hinj.eq_iff hr hrule,
      sublist_map_iff_of_injOn hinj hpredecessors habove]
  | ordered order =>
    simp only [mapRules, Permits, List.getElem?_map, ← List.map_take, List.forall_mem_map,
      Option.map_eq_some_iff]
    constructor
    · intro h k hk earlier hearlier
      have hin : earlier ∈ S := hc earlier (List.mem_of_mem_take hearlier)
      exact (mem_map_iff_of_injOn hinj hleft hin).mp (h k ⟨r, hk, rfl⟩ earlier hearlier)
    · intro h k hk earlier hearlier
      obtain ⟨s, hs, hsame⟩ := hk
      obtain rfl := hinj (hc s (List.mem_of_getElem? hs)) hr hsame
      exact List.mem_map_of_mem (h k hs earlier hearlier)
  | forbidden sequence =>
    simp only [mapRules, Permits]
    constructor
    · intro h chain hsplit hrun
      refine h (chain.map f) ?_ (hrun.map f)
      rw [hsplit, List.map_append, List.map_singleton]
    · intro h chain' hsplit hrun
      obtain ⟨chain, last, hsequence, rfl, hlast⟩ := List.map_eq_append_iff.mp hsplit
      obtain ⟨s, rfl, hsame⟩ := List.map_eq_singleton_iff.mp hlast
      have hchain : ∀ x ∈ chain ++ [s], x ∈ S := hsequence ▸ hc
      obtain rfl := hinj (hchain s (by simp)) hr hsame
      refine h chain hsequence ((infix_map_iff_of_injOn hinj (fun x hx => ?_) habove).mp hrun)
      exact hchain x (List.mem_append_left _ hx)

/-- Bit 0 stands for no rule, so it is left over. -/
theorem contains_zero_propagateAll (constraints : List Constraint) (t : Tree) (path : Path)
    (domain : BitSet) :
    (propagateAll constraints t path domain).contains 0 = domain.contains 0 := by
  have hzero : ∀ r : RuleId, r.number ≠ 0 := fun r => Nat.succ_ne_zero r.index
  exact Bool.eq_iff_iff.mpr (contains_propagateAll.trans (by simp [hzero]))

/-- What renamed constraints leave of a renamed domain at a place of a renamed tree is what the
constraints leave of the domain, renamed. Repetitions among the constraints do not matter. -/
theorem propagateAll_mapRules_same
    (hmem : ∀ c', c' ∈ constraints' ↔ c' ∈ constraints.map (mapRules f))
    (hinj : Set.InjOn f S) (hc : ∀ c ∈ constraints, ∀ x ∈ c.rules, x ∈ S)
    (ht : ∀ x ∈ t.mentionedRules, x ∈ S) (hdomain : ∀ x, domain.containsRule x = true → x ∈ S) :
    (propagateAll constraints' (t.mapRules f) path (domain.mapRules f)).same
      ((propagateAll constraints t path domain).mapRules f) = true := by
  have hpermits : ∀ c ∈ constraints, ∀ x ∈ S,
      ((c.mapRules f).Permits ((t.ancestors path).map f) (· ∈ (t.leftRules path).map f) (f x) ↔
        c.Permits (t.ancestors path) (· ∈ t.leftRules path) x) := by
    intro c hmember x hx
    exact permits_mapRules_iff hinj (hc c hmember)
      (fun y hy => ht y (Tree.mem_mentionedRules_of_ancestors hy))
      (fun y hy => ht y (Tree.mem_mentionedRules_of_leftRules hy)) hx
  rw [BitSet.same_iff, BitSet.forall_number_iff]
  constructor
  · rw [contains_zero_propagateAll, BitSet.contains_zero_mapRules, BitSet.contains_zero_mapRules,
      contains_zero_propagateAll]
  · intro r'
    refine Bool.eq_iff_iff.mpr (containsRule_propagateAll.trans (Iff.trans ?_
      BitSet.containsRule_mapRules.symm))
    rw [BitSet.containsRule_mapRules, Tree.ancestors_mapRules, Tree.leftRules_mapRules]
    simp only [hmem, List.forall_mem_map, containsRule_propagateAll]
    constructor
    · intro h
      obtain ⟨⟨r, hr, rfl⟩, hall⟩ := h
      exact ⟨r, ⟨hr, fun c hmember => (hpermits c hmember r (hdomain r hr)).mp (hall c hmember)⟩, rfl⟩
    · intro h
      obtain ⟨r, ⟨hr, hall⟩, rfl⟩ := h
      exact ⟨⟨r, hr, rfl⟩, fun c hmember => (hpermits c hmember r (hdomain r hr)).mpr (hall c hmember)⟩

end Constraint

/-! ### After a merge -/

namespace Grammar

variable {g other grown : Grammar} {mapping : List (Option RuleId)} {t : Tree} {path : Path}
  {hole : Hole}

/-- The legal rules of a hole are its candidates, narrowed by all constraints. -/
theorem legalDomain_of_holeAt (hhole : holeAt t path = .ok hole) :
    g.legalDomain t path = .ok (Constraint.propagateAll g.constraints t path hole.domain) := by
  rw [legalDomain, hhole]
  rfl

/-- A hole of a tree stands at the same path in the renamed tree, with its candidates renamed. -/
theorem holeAt_mapRules (hhole : holeAt t path = .ok hole) :
    holeAt (t.mapRules f) path = .ok (hole.mapRules f) := by
  obtain ⟨ctx, rfl, rfl⟩ := of_holeAt hhole
  rw [Context.mapRules_plug, ← Context.path_mapRules f]
  exact holeAt_plug (ctx.mapRules f) (hole.mapRules f)

/-- The candidates of a hole are mentioned in the tree. -/
theorem mem_mentionedRules_of_holeAt (hhole : holeAt t path = .ok hole)
    (hr : hole.domain.containsRule r = true) : r ∈ t.mentionedRules := by
  obtain ⟨ctx, rfl, rfl⟩ := of_holeAt hhole
  exact ctx.mem_mentionedRules_plug (BitSet.mem_rules.mpr hr)

section Parts

variable (h : MergeParts g other mapping grown)

include h

/-- Different rules of the other grammar are renamed to different rules. -/
theorem MergeParts.injOn_renamed (hother : Distinct other) :
    Set.InjOn (renamed mapping) {r | other.isLive r = true} := by
  intro r hr s hs hsame
  refine h.injective hother (h.getElem?_mapping hr) ?_
  rw [hsame]
  exact h.getElem?_mapping hs

/-- A grammar without constraints has the renamed ones of the other after a merge. -/
theorem MergeParts.mem_constraints_merge (hfree : g.constraints = []) (c : Constraint) :
    c ∈ (g.merge other).state.constraints ↔
      c ∈ other.constraints.map (Constraint.mapRules (renamed mapping)) := by
  rw [h.constraints_merge, hfree]
  simp

/-- A hole has the same legal rules after a merge, renamed. -/
theorem MergeParts.legalDomain_merge (hother : Distinct other) (hfree : g.constraints = [])
    (ht : ∀ r ∈ t.mentionedRules, other.isLive r = true) (hhole : holeAt t path = .ok hole) :
    ∃ legal legal', other.legalDomain t path = .ok legal ∧
      (g.merge other).state.legalDomain (t.mapRules (renamed mapping)) path = .ok legal' ∧
      legal'.same (legal.mapRules (renamed mapping)) = true := by
  have hcandidates : ∀ r, hole.domain.containsRule r = true → other.isLive r = true :=
    fun r hr => ht r (mem_mentionedRules_of_holeAt hhole hr)
  refine ⟨_, _, legalDomain_of_holeAt hhole, legalDomain_of_holeAt (holeAt_mapRules hhole), ?_⟩
  exact Constraint.propagateAll_mapRules_same (h.mem_constraints_merge hfree)
    (h.injOn_renamed hother) (fun c hc r hr => h.isLive_of_constraint hc hr) ht hcandidates

end Parts

/-- Constraints mean the same thing on renamed rules as long as the renaming keeps apart the rules of the
constraint, of the tree and of the domain. So a grammar without constraints that another one was merged
into has, at the holes of the renamed trees of the other, the renamed legal rules. -/
theorem renaming_means_same :
    (∀ (c : Constraint) (t : Tree) (path : Path) (domain : BitSet) (f : RuleId → RuleId),
      Set.InjOn f {r | r ∈ c.rules ∨ r ∈ t.mentionedRules ∨ domain.containsRule r = true} →
        ((c.mapRules f).propagate (t.mapRules f) path (domain.mapRules f)).same
          ((c.propagate t path domain).mapRules f) = true) ∧
    (∀ (g other : Grammar) (mapping : List (Option RuleId)), Reachable g → Reachable other →
      g.constraints = [] → (g.merge other).result = .ok mapping →
      (∀ r, other.isLive r = true → mapping[r.index]? = some (some (renamed mapping r))) ∧
      ∀ (t : Tree) (path : Path) (hole : Hole), (∀ r ∈ t.mentionedRules, other.isLive r = true) →
        holeAt t path = .ok hole →
        ∃ legal legal', other.legalDomain t path = .ok legal ∧
          (g.merge other).state.legalDomain (t.mapRules (renamed mapping)) path = .ok legal' ∧
          legal'.same (legal.mapRules (renamed mapping)) = true) := by
  constructor
  · intro c t path domain f hinj
    have hmem : ∀ c', c' ∈ [c.mapRules f] ↔ c' ∈ [c].map (Constraint.mapRules f) := fun _ => Iff.rfl
    have hc : ∀ c' ∈ [c], ∀ x ∈ c'.rules,
        x ∈ {r | r ∈ c.rules ∨ r ∈ t.mentionedRules ∨ domain.containsRule r = true} := by
      intro c' hc' x hx
      exact .inl (List.mem_singleton.mp hc' ▸ hx)
    exact Constraint.propagateAll_mapRules_same hmem hinj hc (fun x hx => .inr (.inl hx))
      fun x hx => .inr (.inr hx)
  · intro g other mapping hg hother hfree hmerge
    obtain ⟨grown, hparts⟩ := hg.consistent.mergeParts hmerge
    refine ⟨fun r hr => hparts.getElem?_mapping hr, ?_⟩
    intro t path hole ht hhole
    exact hparts.legalDomain_merge hother.distinct hfree ht hhole

/-- Below a sum no sum is legal, neither when its rules are moved up by three nor, under their new names,
after a merge. -/
theorem flatSums_renaming_means_same :
    let domain : BitSet := .ofRules [⟨1⟩, ⟨2⟩]
    let t : Tree := .apply ⟨2⟩ [.hole ⟨domain, .unexpanded⟩]
    let c : Constraint := .forbidden [⟨2⟩, ⟨2⟩]
    let f : RuleId → RuleId := fun r => ⟨r.index + 3⟩
    let mapping : List (Option RuleId) := [none, some ⟨0⟩, some ⟨1⟩]
    Function.Injective f ∧
    ((c.mapRules f).propagate (t.mapRules f) [1] (domain.mapRules f)).same
      ((c.propagate t [1] domain).mapRules f) = true ∧
    Reachable oneOnly ∧ Reachable flatSums ∧ oneOnly.constraints = [] ∧
    (oneOnly.merge flatSums).result = .ok mapping ∧
    (∀ r ∈ t.mentionedRules, flatSums.isLive r = true) ∧
    ∃ legal legal', flatSums.legalDomain t [1] = .ok legal ∧
      (oneOnly.merge flatSums).state.legalDomain (t.mapRules (renamed mapping)) [1] = .ok legal' ∧
      legal'.same (legal.mapRules (renamed mapping)) = true := by
  have hinj : Function.Injective fun r : RuleId => RuleId.mk (r.index + 3) := by
    intro r s hsame
    exact congrArg RuleId.mk (by simpa using hsame)
  have hone : Reachable oneOnly := Reachable.empty.addRule _ _
  have hsums : Reachable flatSums := ((Reachable.empty.addRules _ _).removeRule _).addConstraint _
  have hmerge : (oneOnly.merge flatSums).result = .ok [none, some ⟨0⟩, some ⟨1⟩] := by cbv
  have honeLive : flatSums.isLive ⟨1⟩ = true := by cbv
  have hsumLive : flatSums.isLive ⟨2⟩ = true := by cbv
  have hlive : ∀ r ∈ [(⟨2⟩ : RuleId), ⟨1⟩, ⟨2⟩], flatSums.isLive r = true := by
    simp [honeLive, hsumLive]
  have hlegal := (renaming_means_same.2 oneOnly flatSums _ hone hsums rfl hmerge).2
  exact ⟨hinj, renaming_means_same.1 _ _ _ _ _ hinj.injOn, hone, hsums, rfl, hmerge, hlive,
    hlegal _ _ _ hlive rfl⟩

end Grammar

end TypedGrammar
