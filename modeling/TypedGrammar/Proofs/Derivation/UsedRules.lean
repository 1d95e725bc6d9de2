import Mathlib
import TypedGrammar.Derivation.Usage
import TypedGrammar.Proofs.Grammar.Embedding
import TypedGrammar.Proofs.Grammar.RuleTable
import TypedGrammar.Proofs.Tree.HoleOrder
import TypedGrammar.Proofs.Tree.Preorder

/-!
# The rules of a type that a tree uses

The rules of a tree are those at its positions. The question that leaves out one node walks the tree with
a stack and drops the node at one path, with all that is below it. As long as no node of the stack
stands below that path, what the walk finds are the rules at the positions that do not begin with the
path. Which trees stand at the positions plays no part in it, so a tree that is equal to the one left
out counts wherever else it stands.
-/

namespace TypedGrammar

namespace RuleId

instance : Std.Irrefl fun a b : RuleId => a < b := ⟨fun r => Nat.lt_irrefl r.index⟩

instance : Std.Antisymm fun a b : RuleId => a < b := ⟨fun _ _ h h' => (Nat.lt_asymm h h').elim⟩

/-- An ascending list is the ascending form of any list with the same rules. -/
theorem ascending_eq {rules sorted : List RuleId} (h : sorted.Pairwise (· < ·))
    (hmem : ∀ r, r ∈ rules ↔ r ∈ sorted) : ascending rules = sorted :=
  (ascending_pairwise rules).eq_of_mem_iff h fun r => by rw [mem_ascending, hmem]

end RuleId

/-- The path does not lead to the node that is left out, nor below it. -/
def Path.Outside (ignored : Option Path) (path : Path) : Prop :=
  ∀ top, ignored = some top → ¬ top <+: path

namespace Grammar

variable {g : Grammar} {t node : Tree} {type : String} {ignored : Option Path}

/-- The rules of a type among several rules of the table. -/
theorem exists_rulesWithType (type : String) (rules : List RuleId) (hlive : ∀ r ∈ rules, g.isLive r = true) :
    ∃ found, g.rulesWithType type rules = .ok found ∧ found.Sublist rules ∧
      ∀ r, r ∈ found ↔ r ∈ rules ∧ g.returnType r = .ok type := by
  induction rules with
  | nil => exact ⟨[], rfl, .slnil, by simp⟩
  | cons first rest ih =>
    obtain ⟨hfirst, hrest⟩ := List.forall_mem_cons.mp hlive
    obtain ⟨found, hfound, hsub, hmem⟩ := ih hrest
    obtain ⟨rule, hrule⟩ := isLive_iff.mp hfirst
    have htype : g.returnType first = .ok rule.type := returnType_eq_ok_iff.mpr ⟨rule, hrule, rfl⟩
    have hstep : g.rulesWithType type (first :: rest) =
        .ok (if rule.type = type then first :: found else found) := by
      rw [rulesWithType, htype, hfound]
      rfl
    by_cases hsame : rule.type = type
    · rw [if_pos hsame] at hstep
      refine ⟨first :: found, hstep, hsub.cons_cons first, fun r => ?_⟩
      rw [List.mem_cons, List.mem_cons, hmem, or_and_right]
      refine or_congr_left (iff_self_and.mpr ?_)
      rintro rfl
      rw [htype, hsame]
    · rw [if_neg hsame] at hstep
      refine ⟨found, hstep, hsub.cons first, fun r => ?_⟩
      rw [hmem, List.mem_cons, or_and_right]
      refine (or_iff_right fun h => hsame ?_).symm
      obtain ⟨rfl, hother⟩ := h
      exact Except.ok.inj (htype.symm.trans hother)

/-- What the walk over a stack finds, if no node of the stack stands below the one that is left out: the
rules of the type at the positions outside of it. A path above a child is the path of the child or one
above its parent, which was kept, so the condition passes on to the children. -/
theorem exists_usedFrom (type : String) (ignored : Option Path) (stack : List (Path × Tree))
    (hlive : ∀ e ∈ stack, ∀ q r, e.2.ruleAtPath? q = some r → g.isLive r = true)
    (habove : ∀ e ∈ stack, ∀ top, ignored = some top → top <+: e.1 → top = e.1) :
    ∃ used, g.usedFrom type ignored stack = .ok used ∧ ∀ r, r ∈ used ↔
      (∃ e ∈ stack, ∃ q, Path.Outside ignored (e.1 ++ q) ∧ e.2.ruleAtPath? q = some r) ∧
        g.returnType r = .ok type := by
  induction stack using usedFrom.induct ignored with
  | case1 => exact ⟨[], by rw [usedFrom], by simp⟩
  | case2 path t stack hskip ih =>
    obtain ⟨-, hliveRest⟩ := List.forall_mem_cons.mp hlive
    obtain ⟨-, haboveRest⟩ := List.forall_mem_cons.mp habove
    obtain ⟨used, hused, hmem⟩ := ih hliveRest haboveRest
    have hnone : ¬ ∃ q r, Path.Outside ignored (path ++ q) ∧ t.ruleAtPath? q = some r :=
      fun ⟨q, _, hout, _⟩ => hout path hskip (List.prefix_append path q)
    refine ⟨used, by rw [usedFrom, if_pos hskip, hused], fun r => ?_⟩
    rw [hmem, List.exists_mem_cons_iff]
    refine and_congr_left' (or_iff_right ?_).symm
    exact fun ⟨q, hq⟩ => hnone ⟨q, r, hq⟩
  | case3 path t stack hkeep ih =>
    obtain ⟨hliveHere, hliveRest⟩ := List.forall_mem_cons.mp hlive
    obtain ⟨haboveHere, haboveRest⟩ := List.forall_mem_cons.mp habove
    have hliveChildren : ∀ e ∈ (t.childrenAt path).reverse ++ stack,
        ∀ q r, e.2.ruleAtPath? q = some r → g.isLive r = true := by
      intro e he q r hr
      rcases List.mem_append.mp he with hchild | hbelow
      · obtain ⟨i, -, hi⟩ := Tree.mem_childrenAt.mp (List.mem_reverse.mp hchild)
        exact hliveHere (i :: q) r (by simp [hi, hr])
      · exact hliveRest e hbelow q r hr
    have haboveChildren : ∀ e ∈ (t.childrenAt path).reverse ++ stack,
        ∀ top, ignored = some top → top <+: e.1 → top = e.1 := by
      intro e he top htop hle
      rcases List.mem_append.mp he with hchild | hbelow
      · obtain ⟨i, hpath, -⟩ := Tree.mem_childrenAt.mp (List.mem_reverse.mp hchild)
        rw [hpath] at hle ⊢
        refine (List.prefix_concat_iff.mp hle).resolve_right fun hparent => hkeep ?_
        rw [htop, haboveHere top htop hparent]
      · exact haboveRest e hbelow top htop hle
    have hout : Path.Outside ignored path :=
      fun top htop hle => hkeep (by rw [htop, haboveHere top htop hle])
    obtain ⟨own, hown, -, hmemOwn⟩ := exists_rulesWithType type t.rule?.toList
      (fun r hr => hliveHere [] r (Option.mem_toList.mp hr))
    obtain ⟨others, hothers, hmemOthers⟩ := ih hliveChildren haboveChildren
    refine ⟨own ++ others, ?_, fun r => ?_⟩
    · rw [usedFrom, if_neg hkeep, hown, ok_bind, hothers]
      rfl
    · rw [List.mem_append, hmemOwn, hmemOthers, ← or_and_right, List.exists_mem_cons_iff,
        Tree.exists_ruleAtPath?_childrenAt, or_assoc]
      refine and_congr_left' (or_congr ?_ ?_)
      · rw [Option.mem_toList]
        exact (and_iff_right hout).symm
      · simp only [List.mem_append, List.mem_reverse, or_and_right, exists_or]

/-- What the rules of a type are that a tree uses, with and without one of its nodes. A rule that is used
stands at a position of the tree. -/
structure UsesRules (g : Grammar) (t : Tree) (type : String) : Prop where
  /-- The rules of the type that the tree uses stand anywhere in it. -/
  everywhere : ∃ used, g.usedRulesOfType t type = .ok used ∧ used.Pairwise (· < ·) ∧
    ∀ r, r ∈ used ↔ (∃ q, t.ruleAtPath? q = some r) ∧ g.returnType r = .ok type
  /-- Without the node at a path the rules are those at the positions that do not begin with the path. -/
  outside : ∀ path node, t.nodeAt path = .ok (some node) →
    ∃ used, g.usedRulesOfTypeIgnoring t type (.within path) = .ok used ∧ used.Pairwise (· < ·) ∧
      ∀ r, r ∈ used ↔ (∃ q, ¬ path <+: q ∧ t.ruleAtPath? q = some r) ∧ g.returnType r = .ok type
  /-- Together with the rules that the node uses they are the rules that the tree uses. -/
  union : ∀ path node, t.nodeAt path = .ok (some node) → ∃ outside inside used,
    g.usedRulesOfTypeIgnoring t type (.within path) = .ok outside ∧
    g.usedRulesOfType node type = .ok inside ∧ g.usedRulesOfType t type = .ok used ∧
    RuleId.ascending (outside ++ inside) = used
  /-- A node that is no part of the tree leaves nothing out. -/
  elsewhere : ∀ occurrence, t.pathOf? occurrence = none →
    g.usedRulesOfTypeIgnoring t type occurrence = g.usedRulesOfType t type

/-- The rules of a type that a tree uses. -/
theorem exists_usedRulesOfType (type : String) (hlive : ∀ r ∈ t.preorderRules, g.isLive r = true) :
    ∃ used, g.usedRulesOfType t type = .ok used ∧ used.Pairwise (· < ·) ∧
      ∀ r, r ∈ used ↔ (∃ q, t.ruleAtPath? q = some r) ∧ g.returnType r = .ok type := by
  have hrules : ∀ r, r ∈ t.rules ↔ r ∈ t.preorderRules := fun r => RuleId.mem_ascending
  obtain ⟨used, hused, hsub, hmem⟩ := exists_rulesWithType type t.rules
    (fun r hr => hlive r ((hrules r).mp hr))
  refine ⟨used, hused, (RuleId.ascending_pairwise _).sublist hsub, fun r => ?_⟩
  rw [hmem, hrules, Tree.mem_preorderRules]

/-- The rules of a type that a tree uses outside of an occurrence. -/
theorem exists_usedRulesOfTypeIgnoring (type : String) (occurrence : Tree.Occurrence)
    (hlive : ∀ r ∈ t.preorderRules, g.isLive r = true) :
    ∃ used, g.usedRulesOfTypeIgnoring t type occurrence = .ok used ∧ used.Pairwise (· < ·) ∧
      ∀ r, r ∈ used ↔ (∃ q, Path.Outside (t.pathOf? occurrence) q ∧ t.ruleAtPath? q = some r) ∧
        g.returnType r = .ok type := by
  have hliveRoot : ∀ e ∈ [(([] : Path), t)], ∀ q r, e.2.ruleAtPath? q = some r →
      g.isLive r = true := by
    refine List.forall_mem_singleton.mpr fun q r hr => ?_
    exact hlive r ((Tree.mem_preorderRules t).mpr ⟨q, hr⟩)
  have haboveRoot : ∀ e ∈ [(([] : Path), t)], ∀ top, t.pathOf? occurrence = some top →
      top <+: e.1 → top = e.1 :=
    List.forall_mem_singleton.mpr fun _ _ hle => List.prefix_nil.mp hle
  obtain ⟨found, hfound, hmem⟩ := exists_usedFrom type (t.pathOf? occurrence) _ hliveRoot haboveRoot
  refine ⟨RuleId.ascending found, ?_, RuleId.ascending_pairwise _, fun r => ?_⟩
  · rw [usedRulesOfTypeIgnoring, hfound]
    rfl
  · rw [RuleId.mem_ascending, hmem]
    simp only [List.mem_singleton, exists_eq_left, List.nil_append]

/-- The positions outside of a node and those at and below it are all positions. -/
theorem exists_ruleAtPath?_split {path : Path} {r : RuleId} (h : t.subtree? path = some node) :
    (∃ q, t.ruleAtPath? q = some r) ↔
      (∃ q, ¬ path <+: q ∧ t.ruleAtPath? q = some r) ∨ ∃ q, node.ruleAtPath? q = some r := by
  have hbelow : ∀ q, t.ruleAtPath? (path ++ q) = node.ruleAtPath? q := fun q => by
    rw [Tree.ruleAtPath?, Tree.subtree?_append, h]
    rfl
  constructor
  · rintro ⟨q, hr⟩
    by_cases hle : path <+: q
    · obtain ⟨rest, rfl⟩ := hle
      exact .inr ⟨rest, (hbelow rest).symm.trans hr⟩
    · exact .inl ⟨q, hle, hr⟩
  · rintro (⟨q, -, hr⟩ | ⟨q, hr⟩)
    · exact ⟨q, hr⟩
    · exact ⟨path ++ q, (hbelow q).trans hr⟩

/-- Leaving a node out of the question which rules of a type a tree uses leaves out this one occurrence,
for every tree of rules of the table and every node of it, holes and the root included. -/
theorem uses_outside (type : String) (hlive : ∀ r ∈ t.preorderRules, g.isLive r = true) :
    UsesRules g t type := by
  have hall := exists_usedRulesOfType type hlive
  have houtside : ∀ path node, t.nodeAt path = .ok (some node) →
      ∃ used, g.usedRulesOfTypeIgnoring t type (.within path) = .ok used ∧ used.Pairwise (· < ·) ∧
        ∀ r, r ∈ used ↔ (∃ q, ¬ path <+: q ∧ t.ruleAtPath? q = some r) ∧
          g.returnType r = .ok type := by
    intro path node hnode
    have hpath : t.pathOf? (.within path) = some path := by
      rw [Tree.pathOf?, Tree.nodeAt_eq_some_iff.mp hnode]
      rfl
    have hignoring := exists_usedRulesOfTypeIgnoring type (.within path) hlive
    simpa only [hpath, Path.Outside, Option.some.injEq, forall_eq'] using hignoring
  refine ⟨hall, houtside, fun path node hnode => ?_, fun occurrence hnone => ?_⟩
  · have hsubtree := Tree.nodeAt_eq_some_iff.mp hnode
    have hliveNode : ∀ r ∈ node.preorderRules, g.isLive r = true := by
      intro r hr
      refine hlive r ((Tree.mem_preorderRules t).mpr ((exists_ruleAtPath?_split hsubtree).mpr ?_))
      exact .inr ((Tree.mem_preorderRules node).mp hr)
    obtain ⟨used, hused, hsorted, hmem⟩ := hall
    obtain ⟨outer, houter, -, hmemOuter⟩ := houtside path node hnode
    obtain ⟨inner, hinner, -, hmemInner⟩ := exists_usedRulesOfType type hliveNode
    refine ⟨outer, inner, used, houter, hinner, hused, RuleId.ascending_eq hsorted fun r => ?_⟩
    rw [List.mem_append, hmemOuter, hmemInner, hmem, exists_ruleAtPath?_split hsubtree, or_and_right]
  · obtain ⟨used, hused, hsorted, hmem⟩ := hall
    obtain ⟨found, hfound, hsortedFound, hmemFound⟩ :=
      exists_usedRulesOfTypeIgnoring type occurrence hlive
    rw [hfound, hused, hsortedFound.eq_of_mem_iff hsorted fun r => ?_]
    rw [hmemFound, hmem, hnone]
    simp [Path.Outside]

/-- A sum of a one and a one. -/
def oneAndOne : Tree := .apply ⟨2⟩ [.apply ⟨1⟩ [], .apply ⟨1⟩ []]

/-- Without its second one the sum still uses the one, since its first one is the same rule. -/
theorem oneAndOne_uses_outside : Reachable flatSums ∧
    (∀ r ∈ oneAndOne.preorderRules, flatSums.isLive r = true) ∧
    oneAndOne.nodeAt [2] = .ok (some (.apply ⟨1⟩ [])) ∧
    UsesRules flatSums oneAndOne "N" ∧
    flatSums.usedRulesOfTypeIgnoring oneAndOne "N" (.within [2]) = .ok [⟨1⟩, ⟨2⟩] := by
  have hreachable : Reachable flatSums := ((Reachable.empty.addRules _ _).removeRule _).addConstraint _
  have hone : flatSums.isLive ⟨1⟩ = true := by cbv
  have hsum : flatSums.isLive ⟨2⟩ = true := by cbv
  have hlive : ∀ r ∈ oneAndOne.preorderRules, flatSums.isLive r = true :=
    List.forall_mem_cons.mpr ⟨hsum, List.forall_mem_cons.mpr ⟨hone, List.forall_mem_singleton.mpr hone⟩⟩
  have hnode : oneAndOne.nodeAt [2] = .ok (some (.apply ⟨1⟩ [])) := rfl
  have hused : flatSums.usedRulesOfTypeIgnoring oneAndOne "N" (.within [2]) = .ok [⟨1⟩, ⟨2⟩] := by
    cbv
  exact ⟨hreachable, hlive, hnode, uses_outside "N" hlive, hused⟩

end Grammar

end TypedGrammar
