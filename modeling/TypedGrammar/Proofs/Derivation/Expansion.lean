import TypedGrammar.Proofs.Derivation.Refinement

/-!
# Expanding a hole

An expansion puts a node in place of a hole whose children are fresh holes. What refines a fresh hole
are the complete derivations of its type, so what refines the node are those with its rule at the
root: the expansions of a hole by its candidates divide up what refines the hole.
-/

namespace TypedGrammar.Grammar

variable {g : Grammar} {r : RuleId} {rule : Rule} {type : String} {hole : Hole} {t t' s node : Tree}
  {types : List String} {holes : List Tree} {ctx : Context}

/-! ### Fresh holes -/

/-- The tree is a hole that nobody has looked at, with the full domain of the type. -/
def FreshHole (g : Grammar) (type : String) (t : Tree) : Prop :=
  ∃ domain, g.domain type = .ok domain ∧ t = .unexpanded domain

/-- The domain of a type is the one in its entry. -/
theorem entry_of_domain {domain : BitSet} (hdomain : g.domain type = .ok domain) :
    ∃ entry, g.types.get? type = some entry ∧ entry.domain = domain := by
  obtain ⟨entry, hentry, hdomain⟩ := bind_eq_ok.mp hdomain
  exact ⟨entry, get?_of_typeEntry hentry, Except.ok.inj hdomain⟩

/-- The candidates of a fresh hole are the rules of its type. -/
theorem Consistent.containsRule_domain (hg : Consistent g) {domain : BitSet}
    (hdomain : g.domain type = .ok domain) :
    domain.containsRule r = true ↔ ∃ rule, g.ruleAt? r = some rule ∧ rule.type = type := by
  obtain ⟨entry, hentry, rfl⟩ := entry_of_domain hdomain
  rw [BitSet.containsRule, hg.domain_iff type entry hentry, RuleId.number_mem_map,
    hg.rules_of_entry hentry]

/-- A type of the grammar has a domain. -/
theorem exists_domain (htype : g.hasType type = true) : ∃ domain, g.domain type = .ok domain := by
  obtain ⟨entry, hentry⟩ := Option.isSome_iff_exists.mp htype
  exact ⟨entry.domain, by rw [domain, typeEntry, hentry]; rfl⟩

/-- What refines a fresh hole are the complete derivations of its type. -/
theorem FreshHole.refines_iff (h : FreshHole g type t) (hg : Consistent g) :
    Refines g t s ↔ Complete g type s := by
  obtain ⟨domain, hdomain, rfl⟩ := h
  have hcandidate := fun r => hg.containsRule_domain (r := r) hdomain
  rw [Tree.unexpanded, refines_hole_iff]
  simp only [hcandidate]
  constructor
  · intro hexists
    obtain ⟨r, type', hroot, ⟨rule, hr, rfl⟩, hcomplete⟩ := hexists
    obtain rfl := hcomplete.type_eq hroot hr
    exact hcomplete
  · intro hcomplete
    obtain ⟨r, rule, hroot, hr, hrule⟩ := hcomplete.exists_rule
    exact ⟨r, type, hroot, ⟨rule, hr, hrule⟩, hcomplete⟩

/-- The holes for the children of a node are fresh. -/
theorem freshHoles_of_childHoles (h : g.childHoles types = .ok holes) :
    List.Forall₂ (FreshHole g) types holes := by
  induction types generalizing holes with
  | nil =>
    obtain rfl := Except.ok.inj h
    exact .nil
  | cons type rest ih =>
    obtain ⟨domain, hdomain, h⟩ := bind_eq_ok.mp h
    obtain ⟨others, hothers, h⟩ := bind_eq_ok.mp h
    obtain rfl := Except.ok.inj h
    exact .cons ⟨domain, hdomain, rfl⟩ (ih hothers)

/-- There are holes for children of types of the grammar. -/
theorem exists_childHoles (htypes : ∀ type ∈ types, g.hasType type = true) :
    ∃ holes, g.childHoles types = .ok holes := by
  induction types with
  | nil => exact ⟨[], rfl⟩
  | cons type rest ih =>
    obtain ⟨domain, hdomain⟩ := exists_domain (htypes type List.mem_cons_self)
    obtain ⟨others, hothers⟩ := ih fun x hx => htypes x (List.mem_cons_of_mem _ hx)
    exact ⟨.unexpanded domain :: others, by rw [childHoles, hdomain, ok_bind, hothers]; rfl⟩

/-! ### Expansions -/

/-- The node of an expansion has fresh holes for the children that its rule asks for. -/
theorem of_expansion (h : g.expansion r = .ok node) : ∃ types holes, g.childTypes r = .ok types ∧
    List.Forall₂ (FreshHole g) types holes ∧ node = .apply r holes := by
  obtain ⟨immediate, -, h⟩ := bind_eq_ok.mp h
  split at h
  · cases h
  · obtain ⟨types, htypes, h⟩ := bind_eq_ok.mp h
    obtain ⟨holes, hholes, h⟩ := bind_eq_ok.mp h
    exact ⟨types, holes, htypes, freshHoles_of_childHoles hholes, (Except.ok.inj h).symm⟩

/-- The node of an expansion has the rule that is expanded by. -/
theorem rule?_of_expansion (h : g.expansion r = .ok node) : node.rule? = some r := by
  obtain ⟨types, holes, -, -, rfl⟩ := of_expansion h
  rfl

/-- The node of an expansion adds a hole for each node that it adds. -/
theorem size_of_expansion (h : g.expansion r = .ok node) : node.size = node.holeCount + 1 := by
  obtain ⟨types, holes, -, hholes, rfl⟩ := of_expansion h
  clear h
  have htotal : Tree.totalSize holes = Tree.totalHoleCount holes := by
    induction hholes with
    | nil => rfl
    | cons hfresh _ hrest =>
      obtain ⟨domain, -, rfl⟩ := hfresh
      exact congrArg (1 + ·) hrest
  rw [Tree.size, Tree.holeCount, htotal, Nat.add_comm]

/-- Every ordinary rule has an expansion. -/
theorem Consistent.exists_expansion (hg : Consistent g) (hr : g.ruleAt? r = some rule)
    (hordinary : rule.immediate = false) : ∃ node, g.expansion r = .ok node := by
  have htypes : ∀ type ∈ rule.childTypes, g.hasType type = true := by
    rw [hg.childTypes_eq hr hordinary]
    exact fun type htype => (List.mem_filter.mp htype).2
  obtain ⟨holes, hholes⟩ := exists_childHoles htypes
  refine ⟨.apply r holes, ?_⟩
  rw [expansion, isImmediate_of_ruleAt? hr, ok_bind, hordinary, childTypes_of_ruleAt? hr]
  simp only [Bool.false_eq_true, if_false, ok_bind, hholes]
  rfl

/-- What refines the node of an expansion are the complete derivations with its rule at the root. -/
theorem Consistent.refines_expansion_iff (hg : Consistent g) (hr : g.ruleAt? r = some rule)
    (hordinary : rule.immediate = false) (hnode : g.expansion r = .ok node) :
    Refines g node s ↔ s.rule? = some r ∧ Complete g rule.type s := by
  obtain ⟨types, holes, htypes, hholes, rfl⟩ := of_expansion hnode
  obtain rfl := Except.ok.inj ((childTypes_of_ruleAt? hr).symm.trans htypes)
  rw [refines_apply_iff]
  constructor
  · intro hexists
    obtain ⟨finished, rfl, hfinished⟩ := hexists
    exact ⟨rfl, .of_children hr hordinary
      (Pairing.trans hholes hfinished fun _ _ _ hfresh => (hfresh.refines_iff hg).mp)⟩
  · intro hexists
    obtain ⟨hroot, hcomplete⟩ := hexists
    obtain ⟨children, rfl, hchildren⟩ := hcomplete.exists_children hroot hr hordinary
    exact ⟨children, rfl, Pairing.trans hholes.flip hchildren fun _ _ _ hfresh =>
      (FreshHole.refines_iff hfresh hg).mpr⟩

/-! ### Trees whose holes can be expanded -/

/-- Every candidate of every hole is an ordinary rule of the table. -/
inductive Expandable (g : Grammar) : Tree → Prop
  | hole {h : Hole} (hcandidates : ∀ r, h.domain.containsRule r = true →
      ∃ rule, g.ruleAt? r = some rule ∧ rule.immediate = false) : Expandable g (.hole h)
  | immediate (r : RuleId) (value : Value) : Expandable g (.immediate r value)
  | apply (r : RuleId) {trees : List Tree} (htrees : ∀ t ∈ trees, Expandable g t) :
      Expandable g (.apply r trees)

/-- A subtree of a tree that can be expanded can be expanded. -/
theorem Expandable.of_plug : ∀ {ctx : Context}, Expandable g (ctx.plug t) → Expandable g t
  | [], h => h
  | _ :: _, .apply _ htrees => of_plug (htrees _ (List.mem_append_right _ List.mem_cons_self))

/-- Another tree can be put in the place of a context. -/
theorem Expandable.replug (h : Expandable g (ctx.plug t)) (ht' : Expandable g t') :
    Expandable g (ctx.plug t') := by
  induction ctx with
  | nil => exact ht'
  | cons f rest ih =>
    cases h with
    | apply _ htrees =>
      refine .apply _ fun x hx => ?_
      rcases List.mem_append.mp hx with hleft | hx
      · exact htrees x (List.mem_append_left _ hleft)
      · rcases List.mem_cons.mp hx with rfl | hright
        · exact ih (htrees _ (List.mem_append_right _ List.mem_cons_self))
        · exact htrees x (List.mem_append_right _ (List.mem_cons_of_mem _ hright))

/-- In a grammar without immediate rules a fresh hole can be expanded. -/
theorem FreshHole.expandable (h : FreshHole g type t) (hg : Consistent g)
    (hordinary : ∀ r rule, g.ruleAt? r = some rule → rule.immediate = false) : Expandable g t := by
  obtain ⟨domain, hdomain, rfl⟩ := h
  refine .hole fun r hr => ?_
  obtain ⟨rule, hrule, -⟩ := (hg.containsRule_domain hdomain).mp hr
  exact ⟨rule, hrule, hordinary r rule hrule⟩

/-- In a grammar without immediate rules the node of an expansion can be expanded in turn. -/
theorem Consistent.expandable_expansion (hg : Consistent g)
    (hordinary : ∀ r rule, g.ruleAt? r = some rule → rule.immediate = false)
    (h : g.expansion r = .ok node) : Expandable g node := by
  obtain ⟨types, holes, -, hholes, rfl⟩ := of_expansion h
  refine .apply r fun t ht => ?_
  obtain ⟨type, -, hfresh⟩ := Pairing.exists_left_of_mem hholes ht
  exact hfresh.expandable hg hordinary

/-- A candidate of the hole in the place of a context is an ordinary rule. -/
theorem Expandable.rule_of_candidate (h : Expandable g (ctx.plug (.hole hole)))
    (hr : hole.domain.containsRule r = true) :
    ∃ rule, g.ruleAt? r = some rule ∧ rule.immediate = false := by
  cases h.of_plug with
  | hole hcandidates => exact hcandidates r hr

/-- The expansions of a hole by its candidates divide up what refines a context around it. -/
theorem Consistent.refines_plug_hole_iff (hg : Consistent g)
    (h : Expandable g (ctx.plug (.hole hole))) :
    Refines g (ctx.plug (.hole hole)) s ↔
      ∃ node, (∃ r, hole.domain.containsRule r = true ∧ g.expansion r = .ok node) ∧
        Refines g (ctx.plug node) s := by
  refine refines_plug_iff (fun s => ?_) ctx s
  rw [refines_hole_iff]
  constructor
  · intro hexists
    obtain ⟨r, type, hroot, hr, hcomplete⟩ := hexists
    obtain ⟨rule, hrule, hordinary⟩ := h.rule_of_candidate hr
    obtain ⟨node, hnode⟩ := hg.exists_expansion hrule hordinary
    obtain rfl := hcomplete.type_eq hroot hrule
    exact ⟨node, ⟨r, hr, hnode⟩,
      (hg.refines_expansion_iff hrule hordinary hnode).mpr ⟨hroot, hcomplete⟩⟩
  · intro hexists
    obtain ⟨node, ⟨r, hr, hnode⟩, hrefines⟩ := hexists
    obtain ⟨rule, hrule, hordinary⟩ := h.rule_of_candidate hr
    obtain ⟨hroot, hcomplete⟩ := (hg.refines_expansion_iff hrule hordinary hnode).mp hrefines
    exact ⟨r, rule.type, hroot, hr, hcomplete⟩

/-! ### Expanding in place -/

/-- In the place of a context the hole that was put there is found. -/
theorem holeAt_plug (ctx : Context) (hole : Hole) :
    holeAt (ctx.plug (.hole hole)) ctx.path = .ok hole := by
  rw [holeAt, Context.checkPath_plug, ok_bind, Context.nodeAt_plug]
  rfl

/-- Without constraints every candidate of a hole is legal. -/
theorem legalDomain_plug (hfree : g.constraints = []) (ctx : Context) (hole : Hole) :
    g.legalDomain (ctx.plug (.hole hole)) ctx.path = .ok hole.domain := by
  rw [legalDomain, holeAt_plug, hfree]
  rfl

/-- Expanding the hole in the place of a context puts the node of the expansion there. -/
theorem expand_plug (h : Expandable g (ctx.plug (.hole hole)))
    (hr : hole.domain.containsRule r = true) (hnode : g.expansion r = .ok node) :
    g.expand (ctx.plug (.hole hole)) ctx.path r = .done (ctx.plug node) () := by
  obtain ⟨rule, hrule, -⟩ := h.rule_of_candidate hr
  have hcheck : g.checkCommit (ctx.plug (.hole hole)) ctx.path r = .ok () := by
    rw [checkCommit, holeAt_plug, ok_bind, isRemoved_of_ruleAt? hrule, ok_bind, hr]
    rfl
  rw [expand, hcheck]
  simp only [ok_bind, hnode]
  exact Context.editNode_plug ..

end TypedGrammar.Grammar
