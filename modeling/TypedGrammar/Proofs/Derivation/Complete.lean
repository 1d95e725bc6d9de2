import TypedGrammar.Derivation.Score
import TypedGrammar.Proofs.Grammar.Answers
import TypedGrammar.Proofs.Pairing
import TypedGrammar.Proofs.Tree.Nodes

/-!
# Complete derivations

A complete derivation of a type applies a rule of the type to one complete derivation for each type
that the rule asks a child of, or holds a literal for an immediate rule of the type. `Complete` says
so by position; `Complete.induct` is the induction that goes along with it, with the children taken
together as one list.
-/

namespace TypedGrammar.Grammar

variable {g : Grammar} {r : RuleId} {rule : Rule} {type : String} {t : Tree} {children : List Tree}

/-- The tree is a complete derivation of the type. -/
inductive Complete (g : Grammar) : String → Tree → Prop
  | apply {r : RuleId} {rule : Rule} {children : List Tree} (hr : g.ruleAt? r = some rule)
      (hordinary : rule.immediate = false) (hlength : rule.childTypes.length = children.length)
      (hchildren : ∀ i (hi : i < rule.childTypes.length) (hc : i < children.length),
        Complete g rule.childTypes[i] children[i]) :
      Complete g rule.type (.apply r children)
  | immediate {r : RuleId} {rule : Rule} (hr : g.ruleAt? r = some rule)
      (himmediate : rule.immediate = true) (value : Value) :
      Complete g rule.type (.immediate r value)

/-- A rule applied to complete derivations of the types that it asks for is one of its own type. -/
theorem Complete.of_children (hr : g.ruleAt? r = some rule) (hordinary : rule.immediate = false)
    (hchildren : List.Forall₂ (Complete g) rule.childTypes children) :
    Complete g rule.type (.apply r children) :=
  .apply hr hordinary hchildren.length_eq fun _ _ _ => hchildren.get _ _

/-- Induction over a complete derivation, with the children of a node as one list. -/
@[elab_as_elim]
theorem Complete.induct {motive : String → Tree → Prop}
    (apply : ∀ r rule children, g.ruleAt? r = some rule → rule.immediate = false →
      List.Forall₂ (Complete g) rule.childTypes children →
      List.Forall₂ motive rule.childTypes children → motive rule.type (.apply r children))
    (immediate : ∀ r rule value, g.ruleAt? r = some rule → rule.immediate = true →
      motive rule.type (.immediate r value))
    (h : Complete g type t) : motive type t := by
  induction h with
  | apply hr hordinary hlength hchildren ih =>
    exact apply _ _ _ hr hordinary (List.forall₂_iff_get.mpr ⟨hlength, hchildren⟩)
      (List.forall₂_iff_get.mpr ⟨hlength, ih⟩)
  | immediate hr himmediate value => exact immediate _ _ value hr himmediate

/-- What a complete derivation says about a node that applies a rule. -/
theorem complete_apply_iff : Complete g type (.apply r children) ↔
    ∃ rule, g.ruleAt? r = some rule ∧ rule.type = type ∧ rule.immediate = false ∧
      List.Forall₂ (Complete g) rule.childTypes children := by
  constructor
  · intro h
    cases h with
    | @apply _ rule _ hr hordinary hlength hchildren =>
      exact ⟨rule, hr, rfl, hordinary, List.forall₂_iff_get.mpr ⟨hlength, hchildren⟩⟩
  · intro hexists
    obtain ⟨rule, hr, rfl, hordinary, hchildren⟩ := hexists
    exact .of_children hr hordinary hchildren

/-- The rule at the root of a complete derivation derives the type. -/
theorem Complete.exists_rule (h : Complete g type t) :
    ∃ r rule, t.rule? = some r ∧ g.ruleAt? r = some rule ∧ rule.type = type := by
  cases h with
  | @apply r rule _ hr _ _ _ => exact ⟨r, rule, rfl, hr, rfl⟩
  | @immediate r rule hr _ _ => exact ⟨r, rule, rfl, hr, rfl⟩

/-- A complete derivation has the type of the rule at its root. -/
theorem Complete.type_eq (h : Complete g type t) (hroot : t.rule? = some r)
    (hr : g.ruleAt? r = some rule) : rule.type = type := by
  obtain ⟨r', rule', hroot', hr', htype⟩ := h.exists_rule
  obtain rfl := Option.some.inj (hroot.symm.trans hroot')
  obtain rfl := Option.some.inj (hr.symm.trans hr')
  exact htype

/-- A complete derivation with an ordinary rule at its root has complete derivations as children. -/
theorem Complete.exists_children (h : Complete g type t) (hroot : t.rule? = some r)
    (hr : g.ruleAt? r = some rule) (hordinary : rule.immediate = false) :
    ∃ children, t = .apply r children ∧ List.Forall₂ (Complete g) rule.childTypes children := by
  cases h with
  | @apply _ rule' children hr' _ hlength hchildren =>
    obtain rfl := Option.some.inj hroot
    obtain rfl := Option.some.inj (hr.symm.trans hr')
    exact ⟨children, rfl, List.forall₂_iff_get.mpr ⟨hlength, hchildren⟩⟩
  | immediate hr' himmediate _ =>
    obtain rfl := Option.some.inj hroot
    obtain rfl := Option.some.inj (hr.symm.trans hr')
    rw [hordinary] at himmediate
    cases himmediate

/-- A complete derivation with an immediate rule at its root is a literal. -/
theorem Complete.exists_literal (h : Complete g type t) (hroot : t.rule? = some r)
    (hr : g.ruleAt? r = some rule) (himmediate : rule.immediate = true) :
    ∃ value, t = .immediate r value := by
  cases h with
  | apply hr' hordinary _ _ =>
    obtain rfl := Option.some.inj hroot
    obtain rfl := Option.some.inj (hr.symm.trans hr')
    rw [himmediate] at hordinary
    cases hordinary
  | immediate _ _ value =>
    obtain rfl := Option.some.inj hroot
    exact ⟨value, rfl⟩

/-- A type that has a complete derivation is in the index. -/
theorem Complete.hasType (h : Complete g type t) (hg : Consistent g) : g.hasType type = true := by
  obtain ⟨r, rule, -, hr, htype⟩ := h.exists_rule
  exact hg.hasType_iff.mpr ⟨r, rule, hr, htype⟩

/-- A complete derivation has no hole. -/
theorem Complete.containsHole_eq_false (h : Complete g type t) : t.containsHole = false := by
  refine h.induct (fun r rule children _ _ _ ih => ?_) fun r rule value _ _ => rfl
  rw [Tree.containsHole, Tree.anyContainsHole_eq_false_iff]
  intro child hchild
  obtain ⟨-, -, hfree⟩ := Pairing.exists_left_of_mem ih hchild
  exact hfree

/-- Trees are all complete when none of them has a hole, if this is so for each of them. -/
theorem allComplete_eq (h : ∀ child ∈ children, g.isComplete child = .ok !child.containsHole) :
    g.allComplete children = .ok !Tree.anyContainsHole children := by
  induction children with
  | nil => rfl
  | cons child rest ih =>
    rw [allComplete, h child List.mem_cons_self, ok_bind, Tree.anyContainsHole]
    cases child.containsHole with
    | true => rfl
    | false => exact ih fun other hother => h other (List.mem_cons_of_mem _ hother)

/-- A node with as many children as its rule asks for is complete when it has no hole, if this is so
for each child. -/
theorem isComplete_apply (hr : g.ruleAt? r = some rule)
    (hlength : rule.childTypes.length = children.length)
    (h : ∀ child ∈ children, g.isComplete child = .ok !child.containsHole) :
    g.isComplete (.apply r children) = .ok !(Tree.apply r children).containsHole := by
  rw [isComplete, arity, childTypes_of_ruleAt? hr, ok_bind, pure_bind, if_pos hlength.symm]
  exact allComplete_eq h

/-- A complete derivation passes the test for completeness. -/
theorem Complete.isComplete_eq_true (h : Complete g type t) : g.isComplete t = .ok true := by
  have hequal : g.isComplete t = .ok !t.containsHole := by
    refine h.induct (fun r rule children hr _ hchildren ih => ?_) fun r rule value _ _ => rfl
    refine isComplete_apply hr hchildren.length_eq fun child hchild => ?_
    obtain ⟨-, -, hcomplete⟩ := Pairing.exists_left_of_mem ih hchild
    exact hcomplete
  rw [hequal, h.containsHole_eq_false]
  rfl

end TypedGrammar.Grammar
