import TypedGrammar.Derivation.Typing
import TypedGrammar.Proofs.Derivation.Expansion

/-!
# Well-typed trees

A tree, finished or not, is well-typed when every node applies a rule of the type that is asked for in
its place to as many children as the rule wants, and every candidate of a hole is a rule of the type.
The complete derivations are the well-typed trees without holes. What stands in the open place of a
well-typed tree has the type of that place, and anything else of this type can stand there.
-/

namespace TypedGrammar.Grammar

variable {g : Grammar} {r : RuleId} {rule : Rule} {type slot : String} {t t' node : Tree}
  {children : List Tree} {hole : Hole} {ctx : Context} {f : Frame}

/-- The tree is well-typed at the type. A hole without candidates is so at every type. -/
inductive WellTyped (g : Grammar) : String → Tree → Prop
  | apply {r : RuleId} {rule : Rule} {children : List Tree} (hr : g.ruleAt? r = some rule)
      (hordinary : rule.immediate = false) (hlength : rule.childTypes.length = children.length)
      (hchildren : ∀ i (hi : i < rule.childTypes.length) (hc : i < children.length),
        WellTyped g rule.childTypes[i] children[i]) :
      WellTyped g rule.type (.apply r children)
  | immediate {r : RuleId} {rule : Rule} (hr : g.ruleAt? r = some rule)
      (himmediate : rule.immediate = true) (value : Value) :
      WellTyped g rule.type (.immediate r value)
  | hole {type : String} {hole : Hole} (hcandidates : ∀ i, hole.domain.contains i = true →
      ∃ r rule, i = r.number ∧ g.ruleAt? r = some rule ∧ rule.type = type) :
      WellTyped g type (.hole hole)

/-- A rule applied to well-typed children is well-typed at its own type. -/
theorem WellTyped.of_children (hr : g.ruleAt? r = some rule) (hordinary : rule.immediate = false)
    (hchildren : List.Forall₂ (WellTyped g) rule.childTypes children) :
    WellTyped g rule.type (.apply r children) :=
  .apply hr hordinary hchildren.length_eq fun _ _ _ => hchildren.get _ _

/-- Induction over a well-typed tree, with the children of a node as one list. -/
@[elab_as_elim]
theorem WellTyped.induct {motive : String → Tree → Prop}
    (apply : ∀ r rule children, g.ruleAt? r = some rule → rule.immediate = false →
      List.Forall₂ (WellTyped g) rule.childTypes children →
      List.Forall₂ motive rule.childTypes children → motive rule.type (.apply r children))
    (immediate : ∀ r rule value, g.ruleAt? r = some rule → rule.immediate = true →
      motive rule.type (.immediate r value))
    (hole : ∀ type hole, WellTyped g type (.hole hole) → motive type (.hole hole))
    (h : WellTyped g type t) : motive type t := by
  induction h with
  | apply hr hordinary hlength hchildren ih =>
    exact apply _ _ _ hr hordinary (List.forall₂_iff_get.mpr ⟨hlength, hchildren⟩)
      (List.forall₂_iff_get.mpr ⟨hlength, ih⟩)
  | immediate hr himmediate value => exact immediate _ _ value hr himmediate
  | hole hcandidates => exact hole _ _ (.hole hcandidates)

/-- What a well-typed tree says about a node that applies a rule. -/
theorem wellTyped_apply_iff : WellTyped g type (.apply r children) ↔
    ∃ rule, g.ruleAt? r = some rule ∧ rule.type = type ∧ rule.immediate = false ∧
      List.Forall₂ (WellTyped g) rule.childTypes children := by
  constructor
  · intro h
    cases h with
    | @apply _ rule _ hr hordinary hlength hchildren =>
      exact ⟨rule, hr, rfl, hordinary, List.forall₂_iff_get.mpr ⟨hlength, hchildren⟩⟩
  · intro hexists
    obtain ⟨rule, hr, rfl, hordinary, hchildren⟩ := hexists
    exact .of_children hr hordinary hchildren

/-- A candidate of a well-typed hole is a rule of the type. -/
theorem WellTyped.rule_of_candidate (h : WellTyped g type (.hole hole))
    (hr : hole.domain.containsRule r = true) : ∃ rule, g.ruleAt? r = some rule ∧ rule.type = type := by
  cases h with
  | hole hcandidates =>
    obtain ⟨r', rule, hnumber, hrule, htype⟩ := hcandidates r.number hr
    obtain rfl := RuleId.number_inj.mp hnumber
    exact ⟨rule, hrule, htype⟩

/-- Narrowing keeps a hole well-typed. -/
theorem WellTyped.narrow (h : WellTyped g type (.hole hole)) (allowed : BitSet) :
    WellTyped g type (.hole (hole.narrow allowed)) := by
  cases h with
  | hole hcandidates =>
    refine .hole fun i hi => hcandidates i ?_
    rw [Hole.narrow, BitSet.contains_inter, Bool.and_eq_true] at hi
    exact hi.1

/-- A hole without candidates is well-typed at every type. -/
theorem wellTyped_of_isUnsatisfiable (h : hole.isUnsatisfiable = true) (type : String) :
    WellTyped g type (.hole hole) := by
  refine .hole fun i hi => ?_
  rw [BitSet.isEmpty_iff.mp h i] at hi
  cases hi

/-- A fresh hole is well-typed at its type. -/
theorem FreshHole.wellTyped (h : FreshHole g type t) (hg : Consistent g) : WellTyped g type t := by
  obtain ⟨domain, hdomain, rfl⟩ := h
  obtain ⟨entry, hentry, rfl⟩ := entry_of_domain hdomain
  refine .hole fun i hi => ?_
  obtain ⟨r, hr, rfl⟩ := List.mem_map.mp ((hg.domain_iff type entry hentry i).mp hi)
  obtain ⟨rule, hrule, htype⟩ := (hg.rules_of_entry hentry r).mp hr
  exact ⟨r, rule, rfl, hrule, htype⟩

/-- The node of an expansion is well-typed at the type of its rule. -/
theorem Consistent.wellTyped_expansion (hg : Consistent g) (hr : g.ruleAt? r = some rule)
    (hnode : g.expansion r = .ok node) : WellTyped g rule.type node := by
  cases himmediate : rule.immediate with
  | true =>
    rw [expansion, isImmediate_of_ruleAt? hr, himmediate] at hnode
    cases hnode
  | false =>
    obtain ⟨types, holes, htypes, hholes, rfl⟩ := of_expansion hnode
    obtain rfl := Except.ok.inj ((childTypes_of_ruleAt? hr).symm.trans htypes)
    exact .of_children hr himmediate (hholes.imp fun _ _ hfresh => hfresh.wellTyped hg)

/-! ### Finished trees -/

/-- A well-typed tree is complete exactly when it has no hole. -/
theorem WellTyped.isComplete_eq (h : WellTyped g type t) :
    g.isComplete t = .ok !t.containsHole := by
  refine h.induct (fun r rule children hr _ hchildren ih => ?_) (fun r rule value _ _ => rfl)
    fun type hole _ => rfl
  refine isComplete_apply hr hchildren.length_eq fun child hchild => ?_
  obtain ⟨-, -, hcomplete⟩ := Pairing.exists_left_of_mem ih hchild
  exact hcomplete

/-! ### The type of a node -/

/-- The type that the grammar gives to a well-typed tree is the one that it is well-typed at, unless
the tree is a hole without candidates. -/
theorem WellTyped.nodeType_eq (h : WellTyped g type t) :
    g.nodeType t = .ok (some type) ∨ ∃ hole, t = .hole hole ∧ hole.isUnsatisfiable = true := by
  cases h with
  | apply hr =>
    rw [nodeType, returnType_eq_ok_iff.mpr ⟨_, hr, rfl⟩]
    exact .inl rfl
  | immediate hr =>
    rw [nodeType, returnType_eq_ok_iff.mpr ⟨_, hr, rfl⟩]
    exact .inl rfl
  | @hole _ hole hcandidates =>
    rw [nodeType]
    cases hfirst : hole.domain.firstRule? with
    | some r =>
      have hr := BitSet.containsRule_of_firstRule? hfirst
      obtain ⟨rule, hrule, htype⟩ := (WellTyped.hole hcandidates).rule_of_candidate hr
      simp only [returnType_eq_ok_iff.mpr ⟨rule, hrule, htype⟩]
      exact .inl rfl
    | none =>
      have hnone : hole.domain.rules = [] := List.head?_eq_none_iff.mp hfirst
      refine .inr ⟨hole, rfl, BitSet.isEmpty_iff.mpr fun i => Bool.eq_false_iff.mpr fun hi => ?_⟩
      obtain ⟨r, rule, rfl, -, -⟩ := hcandidates i hi
      have hr : r ∈ hole.domain.rules := BitSet.mem_rules.mpr hi
      rw [hnone] at hr
      cases hr

/-! ### The type of a place -/

/-- The open place of a frame has the type that the rule of the frame asks for there. What stands in
it has this type, and anything else of the type can stand in it. -/
theorem WellTyped.frame_slot (h : WellTyped g type (f.plug t)) :
    ∃ rule slot, g.ruleAt? f.rule = some rule ∧ rule.childTypes[f.left.length]? = some slot ∧
      WellTyped g slot t ∧ ∀ t', WellTyped g slot t' → WellTyped g type (f.plug t') := by
  obtain ⟨rule, hr, rfl, hordinary, hchildren⟩ := wellTyped_apply_iff.mp h
  obtain ⟨left, slot, right, hsplit, hlength, hleft, ht, hright⟩ := Pairing.split_right hchildren
  refine ⟨rule, slot, hr, ?_, ht, fun t' ht' => .of_children hr hordinary ?_⟩
  · simp [hsplit, ← hlength]
  · rw [hsplit]
    exact Pairing.append_cons hleft ht' hright

/-- The open place of a context has a type. What stands in it has this type, and anything else of the
type can stand in it. -/
theorem WellTyped.exists_slot (h : WellTyped g type (ctx.plug t)) :
    ∃ slot, WellTyped g slot t ∧ ∀ t', WellTyped g slot t' → WellTyped g type (ctx.plug t') := by
  induction ctx generalizing type with
  | nil => exact ⟨type, h, fun _ ht' => ht'⟩
  | cons f rest ih =>
    obtain ⟨_, middle, -, -, hmiddle, hframe⟩ := h.frame_slot
    obtain ⟨slot, ht, hslot⟩ := ih hmiddle
    exact ⟨slot, ht, fun t' ht' => hframe _ (hslot t' ht')⟩

/-- The type of a place below the root is the one that the grammar expects there. -/
theorem WellTyped.expectedType_slot (h : WellTyped g type (ctx.plug (f.plug t))) :
    ∃ slot, g.expectedType (ctx.plug (f.plug t)) (ctx.path ++ [f.index]) = .ok (some slot) ∧
      WellTyped g slot t ∧ ∀ t', WellTyped g slot t' → WellTyped g type (ctx.plug (f.plug t')) := by
  obtain ⟨middle, hmiddle, hctx⟩ := h.exists_slot
  obtain ⟨rule, slot, hr, hslot, ht, hframe⟩ := hmiddle.frame_slot
  refine ⟨slot, ?_, ht, fun t' ht' => hctx _ (hframe t' ht')⟩
  have hcheck : (ctx.plug (f.plug t)).checkPath (ctx.path ++ [f.index]) = .ok () := by
    have hplug := Context.checkPath_plug (ctx ++ [f]) t
    rwa [Context.plug_append, Context.path_append] at hplug
  have hindex : rule.childTypes[f.index - 1]? = some slot := hslot
  rw [expectedType, List.getLast?_concat, List.dropLast_concat, hcheck, Context.nodeAt_plug]
  simp [Frame.plug, Tree.rule?, childTypes_of_ruleAt? hr, hindex]

end TypedGrammar.Grammar
