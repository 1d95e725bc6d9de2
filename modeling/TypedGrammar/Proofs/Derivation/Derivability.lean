import TypedGrammar.Proofs.Derivation.BoundedDepth
import TypedGrammar.Proofs.Tree.Positions

/-!
# Derivations by some of the rules

A tree derives a type by some rules within some levels when it is a complete derivation of at most that
depth and applies these rules only. Within one level more, a type has such a tree exactly when one of the
rules derives it and has such a tree for each type that it asks a child of. When all rules may be applied,
a type has such a tree exactly when the number of its derivations is not zero.
-/

namespace TypedGrammar.Grammar

variable {g : Grammar} {allowed : RuleId → Prop} {depth more : Nat} {type : String} {t : Tree}
  {r : RuleId} {rule : Rule} {children : List Tree}

/-- The tree is a complete derivation of the type, of at most some depth, by allowed rules only. -/
structure DerivedBy (g : Grammar) (allowed : RuleId → Prop) (depth : Nat) (type : String) (t : Tree) :
    Prop where
  complete : Complete g type t
  depth_le : t.depth ≤ depth
  rules : ∀ r ∈ t.preorderRules, allowed r

/-- The type has a derivation of at most some depth by allowed rules only. -/
def DerivableBy (g : Grammar) (allowed : RuleId → Prop) (depth : Nat) (type : String) : Prop :=
  ∃ t, g.DerivedBy allowed depth type t

/-- A type that has a derivation of some depth at most has one of a greater depth at most. -/
theorem DerivableBy.mono (h : g.DerivableBy allowed depth type) (hle : depth ≤ more) :
    g.DerivableBy allowed more type := by
  obtain ⟨t, ht⟩ := h
  exact ⟨t, ht.complete, ht.depth_le.trans hle, ht.rules⟩

/-- There is no derivation without levels. -/
theorem not_derivableBy_zero : ¬ g.DerivableBy allowed 0 type := by
  rintro ⟨t, ht⟩
  exact Nat.not_lt.mpr ht.depth_le t.depth_pos

/-! ### One level more -/

/-- A rule applied to derivations within some levels is one within one level more. -/
theorem DerivedBy.of_children (hr : g.ruleAt? r = some rule) (hordinary : rule.immediate = false)
    (hallowed : allowed r) (h : List.Forall₂ (g.DerivedBy allowed depth) rule.childTypes children) :
    g.DerivedBy allowed (depth + 1) rule.type (.apply r children) where
  complete := .of_children hr hordinary (h.imp fun _ _ => DerivedBy.complete)
  depth_le := by
    have hdepth : Tree.maxDepth children ≤ depth := Tree.maxDepth_le_iff.mpr fun child hchild => by
      obtain ⟨_, -, hderived⟩ := Pairing.exists_left_of_mem h hchild
      exact hderived.depth_le
    rw [Tree.depth]
    omega
  rules := by
    refine List.forall_mem_cons.mpr ⟨hallowed, fun s hs => ?_⟩
    obtain ⟨child, hchild, hs⟩ := (Tree.mem_preorderRulesOfAll children).mp hs
    obtain ⟨_, -, hderived⟩ := Pairing.exists_left_of_mem h hchild
    exact hderived.rules s ((Tree.mem_preorderRules child).mpr hs)

/-- The children of a derivation within one level more are derivations within the levels below. -/
theorem DerivedBy.derivedBy_children (h : g.DerivedBy allowed (depth + 1) type (.apply r children))
    (hr : g.ruleAt? r = some rule) : List.Forall₂ (g.DerivedBy allowed depth) rule.childTypes children := by
  obtain ⟨rule', hr', -, -, hcomplete⟩ := complete_apply_iff.mp h.complete
  obtain rfl := Option.some.inj (hr.symm.trans hr')
  have hdepth := h.depth_le
  rw [Tree.depth, Nat.add_comm, Nat.add_le_add_iff_right] at hdepth
  refine Pairing.imp_of_mem hcomplete fun type child hchild hcomplete => ⟨hcomplete, ?_, fun s hs => ?_⟩
  · exact Tree.maxDepth_le_iff.mp hdepth child hchild
  · exact h.rules s (Tree.mem_preorderRules_of_child hchild hs)

/-- An immediate rule asks for no children. -/
theorem Consistent.childTypes_of_immediate (hg : Consistent g) (hr : g.ruleAt? r = some rule)
    (himmediate : rule.immediate = true) : rule.childTypes = [] := by
  rw [Rule.childTypes, hg.kinds_eq r rule hr, himmediate]
  rfl

/-- A type is derivable within one level more exactly when an allowed rule of the type asks for children
of types that are derivable within the levels below. -/
theorem Consistent.derivableBy_succ_iff (hg : Consistent g) :
    g.DerivableBy allowed (depth + 1) type ↔ ∃ r rule, g.ruleAt? r = some rule ∧ rule.type = type ∧
      allowed r ∧ ∀ child ∈ rule.childTypes, g.DerivableBy allowed depth child := by
  constructor
  · rintro ⟨t, ht⟩
    obtain ⟨r, rule, hroot, hr, rfl⟩ := ht.complete.exists_rule
    cases t with
    | apply _ children =>
      obtain rfl := Option.some.inj hroot
      refine ⟨_, rule, hr, rfl, ht.rules _ List.mem_cons_self, fun type htype => ?_⟩
      obtain ⟨child, -, hchild⟩ := Pairing.exists_right_of_mem (ht.derivedBy_children hr) htype
      exact ⟨child, hchild⟩
    | immediate _ value =>
      obtain rfl := Option.some.inj hroot
      refine ⟨_, rule, hr, rfl, ht.rules _ List.mem_cons_self, fun type htype => ?_⟩
      cases himmediate : rule.immediate with
      | true =>
        rw [hg.childTypes_of_immediate hr himmediate] at htype
        cases htype
      | false =>
        obtain ⟨_, hsame, -⟩ := ht.complete.exists_children rfl hr himmediate
        cases hsame
    | hole h => cases hroot
  · rintro ⟨r, rule, hr, rfl, hallowed, hchildren⟩
    cases himmediate : rule.immediate with
    | true =>
      exact ⟨.immediate r (.int 0), .immediate hr himmediate _, Nat.le_add_left 1 depth,
        List.forall_mem_singleton.mpr hallowed⟩
    | false =>
      obtain ⟨children, hderived⟩ := Pairing.exists_right hchildren
      exact ⟨.apply r children, .of_children hr himmediate hallowed hderived⟩

/-- Which rules are allowed matters for the rules of the table only. -/
theorem Consistent.derivableBy_congr (hg : Consistent g) {allowed' : RuleId → Prop}
    (h : ∀ r rule, g.ruleAt? r = some rule → (allowed r ↔ allowed' r)) (depth : Nat) (type : String) :
    g.DerivableBy allowed depth type ↔ g.DerivableBy allowed' depth type := by
  induction depth generalizing type with
  | zero => exact iff_of_false not_derivableBy_zero not_derivableBy_zero
  | succ depth ih =>
    simp only [hg.derivableBy_succ_iff, ih]
    exact exists₂_congr fun r rule => and_congr_right fun hr => by rw [h r rule hr]

/-! ### Counting -/

/-- The number of derivations is not zero exactly when there is one. -/
theorem Consistent.derivationCount_pos_iff (hg : Consistent g) :
    0 < g.derivationCount depth type ↔ g.DerivableBy (fun _ => True) depth type := by
  have hcard := hg.encard_derivationsUpToLiterals (.int 0) depth type
  rw [← Nat.cast_pos (α := ℕ∞), ← hcard, Set.encard_pos, derivationsUpToLiterals, Set.image_nonempty]
  constructor
  · rintro ⟨t, hcomplete, hdepth⟩
    exact ⟨t, hcomplete, hdepth, fun _ _ => trivial⟩
  · rintro ⟨t, ht⟩
    exact ⟨t, ht.complete, ht.depth_le⟩

end TypedGrammar.Grammar
