import TypedGrammar.Proofs.Constraint.Narrowing
import TypedGrammar.Proofs.Derivation.Enumeration
import TypedGrammar.Proofs.Tree.Positions

/-!
# Constraints while searching and constraints on finished trees

The search asks the constraints once for each node, at the moment when it fills the leftmost hole. What
stands above this hole and before it is finished by then, so the answer is the one that the finished
tree gives at the same place. A candidate that is taken out has only trees below it that some
constraint does not admit, and one that stays keeps the nodes filled so far admitted: later nodes add
to what stands before a place, and that takes no permission away.
-/

namespace TypedGrammar.Grammar

variable {g : Grammar} {constraints : List Constraint} {ctx : Context} {r r' : RuleId}
  {t s node : Tree} {hole : Hole} {path : Path} {type : String}

/-- Every constraint permits the rule of every node at the place where the node stands. -/
def Admissible (constraints : List Constraint) (t : Tree) : Prop :=
  ∀ path r, t.ruleAtPath? path = some r →
    ∀ c ∈ constraints, c.Permits (t.rulesAbove path) (t.StandsBefore path) r

/-- Every constraint permits the rule in the open place of the context. -/
def Permitted (constraints : List Constraint) (ctx : Context) (r : RuleId) : Prop :=
  ∀ c ∈ constraints, c.Permits (ctx.map Frame.rule) (· ∈ ctx.rulesBefore) r

/-- What the constraints permit at the path of the open place is what they permit in the context. -/
theorem permitted_iff (ctx : Context) (t : Tree) :
    (∀ c ∈ constraints, c.Permits ((ctx.plug t).rulesAbove ctx.path)
      ((ctx.plug t).StandsBefore ctx.path) r) ↔ Permitted constraints ctx r := by
  have hbefore : (ctx.plug t).StandsBefore ctx.path = (· ∈ ctx.rulesBefore) := by
    funext x
    exact propext Context.standsBefore_plug
  rw [Context.rulesAbove_plug, hbefore, Permitted]

/-- The legal candidates of a hole are those that every constraint permits in the context. -/
theorem legalDomain_rules (ctx : Context) (hole : Hole) :
    ∃ legal, g.legalDomain (ctx.plug (.hole hole)) ctx.path = .ok legal ∧
      ∀ r, legal.containsRule r = true ↔
        hole.domain.containsRule r = true ∧ Permitted g.constraints ctx r := by
  refine ⟨_, by rw [legalDomain, holeAt_plug]; rfl, fun r => ?_⟩
  rw [Constraint.containsRule_propagateAll, Context.ancestors_plug, Context.leftRules_plug]
  simp [Permitted, Tree.preorderRules]

/-! ### One step -/

/-- The node of an expansion has no rule but its own. -/
theorem ruleAtPath?_of_expansion (hnode : g.expansion r = .ok node)
    (hr' : node.ruleAtPath? path = some r') : path = [] ∧ r' = r := by
  obtain ⟨types, holes, -, hholes, rfl⟩ := of_expansion hnode
  cases path with
  | nil => exact ⟨rfl, (Option.some.inj hr').symm⟩
  | cons i rest =>
    rw [Tree.ruleAtPath?_cons] at hr'
    obtain ⟨child, hchild, hrest⟩ := Option.bind_eq_some_iff.mp hr'
    obtain ⟨type, -, domain, -, rfl⟩ :=
      Pairing.exists_left_of_mem hholes (Tree.mem_children_iff.mpr ⟨i, hchild⟩)
    rw [Tree.unexpanded, Tree.ruleAtPath?_hole] at hrest
    cases hrest

/-- Filling the open place by the node of a permitted rule keeps the tree admissible. A node that was there
keeps what stands above it, and what stands before it only grows. -/
theorem Admissible.expand (h : Admissible constraints (ctx.plug (.hole hole)))
    (hnode : g.expansion r = .ok node) (hpermitted : Permitted constraints ctx r) :
    Admissible constraints (ctx.plug node) := by
  have hextends : Tree.Extends (ctx.plug (.hole hole)) (ctx.plug node) :=
    Context.extends_plug (fun path r hr => by rw [Tree.ruleAtPath?_hole] at hr; cases hr) ctx
  intro path r' hr' c hc
  rcases Context.ruleAtPath?_plug hole hr' with hformer | ⟨rest, rfl, hrest⟩
  · rw [hextends.rulesAbove_eq hformer]
    exact (h path r' hformer c hc).mono fun x hx => hextends.standsBefore hx
  · obtain ⟨rfl, rfl⟩ := ruleAtPath?_of_expansion hnode hrest
    rw [List.append_nil]
    exact (permitted_iff ctx node).mpr hpermitted c hc

/-- What refines a tree around its leftmost hole has the same rules above the place and before it. Nothing
is open to the left, so the subtrees there are the same. -/
theorem Refines.exists_context (hclosed : ctx.ClosedLeft) (h : Refines g (ctx.plug t) s) :
    ∃ (ctx' : Context) (inner : Tree), s = ctx'.plug inner ∧ Refines g t inner ∧
      ctx'.map Frame.rule = ctx.map Frame.rule ∧ ctx'.rulesBefore = ctx.rulesBefore := by
  induction ctx generalizing s with
  | nil => exact ⟨[], s, rfl, h, rfl, rfl⟩
  | cons f rest ih =>
    obtain ⟨hleft, hrest⟩ := List.forall_mem_cons.mp hclosed
    obtain ⟨left, below, right, rfl, hleft', hbelow, -⟩ := refines_frame_iff.mp h
    obtain ⟨ctx', inner, rfl, hinner, hrules, hbefore⟩ := ih hrest hbelow
    have hsame : left = f.left := by
      have hnode := (refines_apply_iff.mpr ⟨left, rfl, hleft'⟩).eq_of_containsHole_eq_false
        (g := g) (t := .apply f.rule f.left) hleft
      simpa using hnode
    subst hsame
    exact ⟨⟨f.rule, f.left, right⟩ :: ctx', inner, rfl, hinner, by simp [hrules],
      by simp [Context.rulesBefore, hbefore]⟩

/-- Below a candidate that some constraint does not permit no finished tree is admissible. -/
theorem Refines.permitted (hclosed : ctx.ClosedLeft) (hnode : g.expansion r = .ok node)
    (h : Refines g (ctx.plug node) s) (hs : Admissible constraints s) :
    Permitted constraints ctx r := by
  obtain ⟨ctx', inner, rfl, hinner, hrules, hbefore⟩ := h.exists_context hclosed
  have hroot := hinner.rule?_eq (rule?_of_expansion hnode)
  have hpermitted := (permitted_iff ctx' inner).mp
    (hs ctx'.path r (by rw [Context.ruleAtPath?_plug_path]; exact hroot))
  rwa [Permitted, hrules, hbefore] at hpermitted

/-! ### The whole search -/

/-- The holes for children do not depend on the constraints. -/
theorem childHoles_clearConstraints (g : Grammar) (types : List String) :
    g.clearConstraints.childHoles types = g.childHoles types := by
  induction types with
  | nil => rfl
  | cons type rest ih =>
    rw [childHoles, childHoles, ih]
    rfl

/-- The node of an expansion does not depend on the constraints. -/
theorem expansion_clearConstraints (g : Grammar) (r : RuleId) :
    g.clearConstraints.expansion r = g.expansion r := by
  simp only [expansion, childHoles_clearConstraints]
  rfl

/-- Expanding a hole does not look at the constraints. -/
theorem expand_clearConstraints (g : Grammar) (t : Tree) (path : Path) (r : RuleId) :
    g.clearConstraints.expand t path r = g.expand t path r := by
  simp only [Grammar.expand, expansion_clearConstraints]
  rfl

/-- Neither does expanding it by each rule of a list. -/
theorem expandEach_clearConstraints (g : Grammar) (go : Tree → Except Failure (List Tree)) (t : Tree)
    (path : Path) (rules : List RuleId) :
    g.clearConstraints.expandEach go t path rules = g.expandEach go t path rules := by
  induction rules with
  | nil => rfl
  | cons r rest ih =>
    rw [expandEach, expandEach, ih, expand_clearConstraints]

/-- Going on with the legal rules of a list only lists those that are to be kept of what all its rules
give, provided that this is so below each legal rule and that nothing is to be kept below the others. -/
theorem expandEach_filter {rules : List RuleId} {legal : RuleId → Bool} {keep : Tree → Bool}
    {right : Tree → Prop} {ready : Prop} {go pruned : Tree → Except Failure (List Tree)}
    (hstep : ∀ r ∈ rules, ∃ t' found, g.expand t path r = .done t' () ∧ go t' = .ok found ∧
      (∀ s ∈ found, right s) ∧ (legal r = true → ready → pruned t' = .ok (found.filter keep)) ∧
      (legal r = false → ∀ s ∈ found, keep s = false)) :
    ∃ found, g.expandEach go t path rules = .ok found ∧ (∀ s ∈ found, right s) ∧
      (ready → g.expandEach pruned t path (rules.filter legal) = .ok (found.filter keep)) := by
  induction rules with
  | nil => exact ⟨[], rfl, by simp, fun _ => rfl⟩
  | cons r rest ih =>
    obtain ⟨t', first, hexpand, hgo, hfirst, hlegal, hillegal⟩ := hstep r List.mem_cons_self
    obtain ⟨later, hlater, hright, hpruned⟩ := ih fun x hx => hstep x (List.mem_cons_of_mem _ hx)
    refine ⟨first ++ later, ?_, ?_, fun hready => ?_⟩
    · rw [expandEach, hexpand]
      simp only [Edit.done, hgo, hlater, ok_bind]
      rfl
    · intro s hs
      rcases List.mem_append.mp hs with hs | hs
      · exact hfirst s hs
      · exact hright s hs
    · rw [List.filter_append]
      cases hr : legal r with
      | false =>
        have hnone : first.filter keep = [] := by simpa using hillegal hr
        rw [List.filter_cons_of_neg (by simp [hr]), hnone, List.nil_append, hpruned hready]
      | true =>
        rw [List.filter_cons_of_pos hr, expandEach, hexpand]
        simp only [Edit.done, hlegal hr hready, hpruned hready, ok_bind]
        rfl

open Classical in
/-- The search without constraints lists trees that refine the one it starts from. From an admissible
tree the search with constraints lists the admissible ones of them, in the same order, whatever the
fuel. -/
theorem Consistent.enumerateFrom_filter (hg : Consistent g)
    (hordinary : ∀ r rule, g.ruleAt? r = some rule → rule.immediate = false) (bound fuel : Nat)
    (t : Tree) (hexpandable : Expandable g.clearConstraints t) :
    ∃ found, g.clearConstraints.enumerateFrom bound fuel t = .ok found ∧
      (∀ s ∈ found, Refines g.clearConstraints t s) ∧
      (Admissible g.constraints t → g.enumerateFrom bound fuel t =
        .ok (found.filter fun s => Admissible g.constraints s)) := by
  have hfree : Consistent g.clearConstraints := hg.withConstraints []
  induction fuel generalizing t with
  | zero => exact ⟨[], rfl, by simp, fun _ => rfl⟩
  | succ fuel ih =>
    by_cases hlarge : bound < t.size
    · refine ⟨[], ?_, by simp, fun _ => ?_⟩ <;> rw [enumerateFrom, if_pos hlarge]
      rfl
    rcases t.firstHole?_eq with ⟨hfinished, hnone⟩ | ⟨ctx, hole, rfl, hclosed, hfirst⟩
    · refine ⟨[t], ?_, by simpa using refines_self t hfinished, fun hadmissible => ?_⟩
      · rw [enumerateFrom, if_neg hlarge, hnone]
      · rw [enumerateFrom, if_neg hlarge, hnone]
        simp [hadmissible]
    · obtain ⟨legal, hlegal, hcandidates⟩ := legalDomain_rules (g := g) ctx hole
      have hrules := BitSet.rules_eq_filter (p := fun r => Permitted g.constraints ctx r)
        (by simpa using hcandidates)
      have hstep : ∀ r ∈ hole.domain.rules, ∃ t' found,
          g.expand (ctx.plug (.hole hole)) ctx.path r = .done t' () ∧
          g.clearConstraints.enumerateFrom bound fuel t' = .ok found ∧
          (∀ s ∈ found, Refines g.clearConstraints (ctx.plug (.hole hole)) s) ∧
          (decide (Permitted g.constraints ctx r) = true →
            Admissible g.constraints (ctx.plug (.hole hole)) → g.enumerateFrom bound fuel t' =
              .ok (found.filter fun s => Admissible g.constraints s)) ∧
          (decide (Permitted g.constraints ctx r) = false →
            ∀ s ∈ found, decide (Admissible g.constraints s) = false) := by
        intro r hr
        have hcandidate := BitSet.mem_rules.mp hr
        obtain ⟨rule, hrule, himmediate⟩ := hexpandable.rule_of_candidate hcandidate
        obtain ⟨node, hnode⟩ := hfree.exists_expansion hrule himmediate
        have hexpand := expand_plug hexpandable hcandidate hnode
        obtain ⟨found, hfound, hrefines, hpruned⟩ := ih (ctx.plug node)
          (hexpandable.replug (hfree.expandable_expansion hordinary hnode))
        refine ⟨ctx.plug node, found, expand_clearConstraints g .. ▸ hexpand, hfound, ?_, ?_, ?_⟩
        · intro s hs
          exact (hfree.refines_plug_hole_iff hexpandable).mpr
            ⟨node, ⟨r, hcandidate, hnode⟩, hrefines s hs⟩
        · intro hpermitted hadmissible
          exact hpruned (hadmissible.expand hnode (of_decide_eq_true hpermitted))
        · intro hforbidden s hs
          refine decide_eq_false fun hadmissible => of_decide_eq_false hforbidden ?_
          exact (hrefines s hs).permitted hclosed hnode hadmissible
      obtain ⟨found, hfound, hright, hpruned⟩ := expandEach_filter hstep
      refine ⟨found, ?_, hright, fun hadmissible => ?_⟩
      · rw [enumerateFrom, if_neg hlarge, hfirst]
        simp only [legalDomain_plug (g := g.clearConstraints) rfl, ok_bind,
          expandEach_clearConstraints, hfound]
      · rw [enumerateFrom, if_neg hlarge, hfirst]
        simp only [hlegal, ok_bind, hrules, hpruned hadmissible]

open Classical in
/-- In a grammar without immediate rules the search with constraints from the hole of a type ends without a
failure. It lists, in the same order, the admissible ones of the derivations that the search lists once the
constraints are cleared. Fuel beyond the bound changes nothing, and whatever satisfies the recursion of the
search gives the same list. No constraint has anything to say about the root, which is a hole. -/
theorem Reachable.enumerate_eq_filter (h : Reachable g) (hordinary : ∀ r, g.isImmediate r ≠ .ok true)
    (htype : g.hasType type = true) (bound : Nat) :
    ∃ root found, g.rootHole type = .ok root ∧
      g.clearConstraints.enumerate root bound = .ok found ∧
      (∀ t, t ∈ found ↔ Complete g.clearConstraints type t ∧ t.size ≤ bound) ∧
      g.enumerate root bound = .ok (found.filter fun t => Admissible g.constraints t) ∧
      (∀ fuel, bound + 1 ≤ fuel → g.enumerateFrom bound fuel root =
        .ok (found.filter fun t => Admissible g.constraints t)) ∧
      ∀ search, enumerateBy g bound search = search →
        search root = .ok (found.filter fun t => Admissible g.constraints t) := by
  have hg := h.consistent
  have hfree : Consistent g.clearConstraints := hg.withConstraints []
  have hrules : ∀ r rule, g.ruleAt? r = some rule → rule.immediate = false :=
    fun r rule => ordinary_of_isImmediate_ne hordinary
  obtain ⟨domain, hdomain⟩ := exists_domain htype
  have hfresh : FreshHole g.clearConstraints type (.unexpanded domain) := ⟨domain, hdomain, rfl⟩
  have hexpandable := hfresh.expandable hfree hrules
  obtain ⟨found, hsettles, hlists⟩ := hfree.enumerateFrom_settles rfl hrules (bound + 1)
    (.unexpanded domain) hexpandable (Nat.le_refl (bound + 1 + 1))
  have hadmissible : Admissible g.constraints (.unexpanded domain) := by
    intro path r hr
    rw [Tree.unexpanded, Tree.ruleAtPath?_hole] at hr
    cases hr
  have hpruned : ∀ fuel, bound + 1 ≤ fuel → g.enumerateFrom bound fuel (.unexpanded domain) =
      .ok (found.filter fun t => Admissible g.constraints t) := by
    intro fuel hfuel
    obtain ⟨found', hfound', -, hfilter⟩ :=
      hg.enumerateFrom_filter hrules bound fuel (.unexpanded domain) hexpandable
    obtain rfl := Except.ok.inj (hfound'.symm.trans (hsettles fuel hfuel))
    exact hfilter hadmissible
  have hfiltered : g.enumerate (.unexpanded domain) bound =
      .ok (found.filter fun t => Admissible g.constraints t) := hpruned (bound + 1) (Nat.le_refl _)
  refine ⟨.unexpanded domain, found, ?_, hsettles (bound + 1) (Nat.le_refl _), fun t => ?_,
    hfiltered, hpruned, fun search hsearch => ?_⟩
  · rw [rootHole, hdomain]
    rfl
  · rw [hlists.mem_iff, hfresh.refines_iff hfree]
  · rw [eq_enumerate_iff.mp hsearch]
    exact hfiltered

/-- Ones, negations and sums. A negation may not stand directly below another one, it needs a sum
above it, and it needs a one to its left. -/
def restrainedNegations : Grammar :=
  let rules := (empty.addRules "N"
    [.lit (.int 1), .call "neg" [.sym "N"], .call "+" [.sym "N", .sym "N"]]).state
  (((rules.addConstraint (.forbidden [⟨1⟩, ⟨1⟩])).state.addConstraint
    (.comesAfter ⟨1⟩ [⟨2⟩])).state.addConstraint (.ordered [⟨0⟩, ⟨1⟩])).state

open Classical in
/-- Of the eight trees of at most four nodes the constraints leave three. -/
theorem restrainedNegations_enumerate_eq_filter :
    Reachable restrainedNegations ∧ restrainedNegations.constraints.length = 3 ∧
    (∀ r, restrainedNegations.isImmediate r ≠ .ok true) ∧
    restrainedNegations.hasType "N" = true ∧
    ∃ root found, restrainedNegations.rootHole "N" = .ok root ∧
      restrainedNegations.clearConstraints.enumerate root 4 = .ok found ∧ found.length = 8 ∧
      restrainedNegations.enumerate root 4 =
        .ok [.apply ⟨0⟩ [], .apply ⟨2⟩ [.apply ⟨0⟩ [], .apply ⟨0⟩ []],
          .apply ⟨2⟩ [.apply ⟨0⟩ [], .apply ⟨1⟩ [.apply ⟨0⟩ []]]] ∧
      restrainedNegations.enumerate root 4 =
        .ok (found.filter fun t => Admissible restrainedNegations.constraints t) := by
  have hreachable : Reachable restrainedNegations :=
    (((Reachable.empty.addRules _ _).addConstraint _).addConstraint _).addConstraint _
  have hconstraints : restrainedNegations.constraints.length = 3 := by cbv
  have htype : restrainedNegations.hasType "N" = true := by cbv
  have hrows : restrainedNegations.rows.toList.map (Option.map Rule.immediate) =
      [some false, some false, some false] := by cbv
  have hordinary : ∀ r, restrainedNegations.isImmediate r ≠ .ok true := by
    intro r hr
    obtain ⟨rule, hrule, himmediate⟩ := isImmediate_eq_ok_true_iff.mp hr
    have hmem : some true ∈ restrainedNegations.rows.toList.map (Option.map Rule.immediate) :=
      List.mem_map.mpr ⟨some rule,
        Array.mem_toList_iff.mpr (Array.mem_of_getElem? (ruleAt?_eq_some_iff.mp hrule)),
        by simp [himmediate]⟩
    simp [hrows] at hmem
  obtain ⟨root, found, hroot, hfound, -, hpruned, -, -⟩ :=
    hreachable.enumerate_eq_filter hordinary htype 4
  refine ⟨hreachable, hconstraints, hordinary, htype, root, found, hroot, hfound, ?_, ?_, hpruned⟩
  · have hsearch : ((restrainedNegations.rootHole "N" >>= fun root =>
        restrainedNegations.clearConstraints.enumerate root 4).map List.length) = .ok 8 := by cbv
    rw [hroot, ok_bind, hfound] at hsearch
    exact Except.ok.inj hsearch
  · have hsearch : (restrainedNegations.rootHole "N" >>= fun root =>
        restrainedNegations.enumerate root 4) =
        .ok [.apply ⟨0⟩ [], .apply ⟨2⟩ [.apply ⟨0⟩ [], .apply ⟨0⟩ []],
          .apply ⟨2⟩ [.apply ⟨0⟩ [], .apply ⟨1⟩ [.apply ⟨0⟩ []]]] := by cbv
    rwa [hroot, ok_bind] at hsearch

end TypedGrammar.Grammar
