import Mathlib
import TypedGrammar.Proofs.Derivation.Complete
import TypedGrammar.Proofs.Derivation.Counting
import TypedGrammar.Proofs.Grammar.Reachable

/-!
# Derivations of bounded depth

There may be infinitely many literals below an immediate rule, so derivations are counted up to their
literals: every literal is replaced by one and the same. Level by level the derivations with this
literal can be listed without repetition, and the list is as long as the recurrence says. So the
number that the grammar gives is the number of derivations.
-/

namespace TypedGrammar

/-! ### Literals -/

namespace Tree

variable {v : Value} {trees : List Tree} {bound : Nat}

mutual

/-- The tree with a value in place of every literal. -/
def withLiteral (v : Value) : Tree → Tree
  | apply r children => apply r (withLiteralOfAll v children)
  | immediate r _ => immediate r v
  | hole h => hole h

/-- The trees with a value in place of every literal. -/
def withLiteralOfAll (v : Value) : List Tree → List Tree
  | [] => []
  | t :: rest => withLiteral v t :: withLiteralOfAll v rest

end

/-- Putting a literal into trees means putting it into each of them. -/
theorem withLiteralOfAll_eq_map (v : Value) (trees : List Tree) :
    withLiteralOfAll v trees = trees.map (withLiteral v) := by
  induction trees with
  | nil => rfl
  | cons t rest ih => rw [withLiteralOfAll, ih, List.map_cons]

/-- Trees are unchanged together when each of them is unchanged. -/
theorem withLiteralOfAll_eq_self_iff :
    withLiteralOfAll v trees = trees ↔ ∀ t ∈ trees, t.withLiteral v = t := by
  induction trees with
  | nil => simp [withLiteralOfAll]
  | cons t rest ih => simp [withLiteralOfAll, ih]

/-- The greatest depth is within a bound when every depth is. -/
theorem maxDepth_le_iff : maxDepth trees ≤ bound ↔ ∀ t ∈ trees, t.depth ≤ bound := by
  induction trees with
  | nil => simp [maxDepth]
  | cons t rest ih => simp [maxDepth, ih]

/-- A tree is at least one level deep. -/
theorem depth_pos (t : Tree) : 0 < t.depth := by
  cases t with
  | apply r children => exact Nat.lt_of_lt_of_le Nat.zero_lt_one (Nat.le_add_right 1 _)
  | immediate r value => exact Nat.zero_lt_one
  | hole h => exact Nat.zero_lt_one

mutual

/-- Literals are replaced once and for all. -/
@[simp] theorem withLiteral_withLiteral (v : Value) :
    ∀ t : Tree, (t.withLiteral v).withLiteral v = t.withLiteral v
  | apply r children => by
    rw [withLiteral, withLiteral, withLiteralOfAll_withLiteralOfAll v children]
  | immediate r _ => rfl
  | hole h => rfl

/-- Putting the same literal into trees twice is the same as once. -/
@[simp] theorem withLiteralOfAll_withLiteralOfAll (v : Value) : ∀ trees : List Tree,
    withLiteralOfAll v (withLiteralOfAll v trees) = withLiteralOfAll v trees
  | [] => rfl
  | t :: rest => by
    rw [withLiteralOfAll, withLiteralOfAll, withLiteral_withLiteral v t,
      withLiteralOfAll_withLiteralOfAll v rest]

end

mutual

/-- Literals have no say in the depth. -/
@[simp] theorem depth_withLiteral (v : Value) : ∀ t : Tree, (t.withLiteral v).depth = t.depth
  | apply r children => by rw [withLiteral, depth, depth, maxDepth_withLiteralOfAll v children]
  | immediate r _ => rfl
  | hole h => rfl

/-- The greatest depth of trees does not depend on their literals. -/
@[simp] theorem maxDepth_withLiteralOfAll (v : Value) :
    ∀ trees : List Tree, maxDepth (withLiteralOfAll v trees) = maxDepth trees
  | [] => rfl
  | t :: rest => by
    rw [withLiteralOfAll, maxDepth, maxDepth, depth_withLiteral v t,
      maxDepth_withLiteralOfAll v rest]

end

end Tree

namespace Grammar

variable {g : Grammar} {type : String} {t s : Tree} {r : RuleId} {rule : Rule} {v : Value}
  {depth : Nat} {children : List Tree} {types : List String}

/-- A derivation stays one with other literals. -/
theorem Complete.withLiteral (h : Complete g type t) (v : Value) :
    Complete g type (t.withLiteral v) := by
  refine h.induct (fun r rule children hr hordinary _ ih => ?_) fun r rule value hr himmediate => ?_
  · refine .of_children hr hordinary ?_
    rw [Tree.withLiteralOfAll_eq_map, List.forall₂_map_right_iff]
    exact ih
  · exact .immediate hr himmediate v

/-! ### Lists of choices -/

/-- There are as many ways to choose one element of each list as the product of the lengths says. -/
theorem length_sections {α : Type} (lists : List (List α)) :
    lists.sections.length = (lists.map List.length).prod := by
  induction lists with
  | nil => rfl
  | cons list rest ih => simp [List.sections, List.length_flatMap, ih, mul_comm]

/-- Choosing one element of each list is without repetition if the lists are. -/
theorem nodup_sections {α : Type} {lists : List (List α)} (h : ∀ list ∈ lists, list.Nodup) :
    lists.sections.Nodup := by
  induction lists with
  | nil => exact List.nodup_singleton []
  | cons list rest ih =>
    rw [List.sections, List.nodup_flatMap]
    refine ⟨fun tail _ => (h list List.mem_cons_self).map fun a b hab => (List.cons.inj hab).1, ?_⟩
    refine (ih fun other hother => h other (List.mem_cons_of_mem _ hother)).imp ?_
    intro tail tail' hne
    rw [Function.onFun, List.disjoint_left]
    simp only [List.mem_map]
    rintro _ ⟨a, -, rfl⟩ ⟨b, -, hsame⟩
    exact hne (List.cons.inj hsame).2.symm

/-! ### The list of derivations -/

/-- The nodes with a rule at the root and with children from the lists for the types that the rule
asks for, or with the literal. -/
def nodesOf (g : Grammar) (v : Value) (below : String → List Tree) (r : RuleId) : List Tree :=
  match g.ruleAt? r with
  | none => []
  | some rule =>
    if rule.immediate then [.immediate r v]
    else (rule.childTypes.map below).sections.map (.apply r)

/-- The derivations of a type of at most some depth, with one literal throughout. -/
def derivationsUpTo (g : Grammar) (v : Value) : Nat → String → List Tree
  | 0, _ => []
  | depth + 1, type => (g.rulesOrNone type).flatMap (g.nodesOf v (derivationsUpTo g v depth))

/-- All the nodes for a rule have it at the root. -/
theorem rule?_of_mem_nodesOf {below : String → List Tree} (h : s ∈ g.nodesOf v below r) :
    s.rule? = some r := by
  unfold nodesOf at h
  split at h
  · cases h
  · split at h
    · rw [List.mem_singleton.mp h]
      rfl
    · obtain ⟨children, -, rfl⟩ := List.mem_map.mp h
      rfl

/-- Choosing a child from the lists for the types is having a derivation of each type. -/
theorem mem_sections_iff (hbelow : ∀ type s, s ∈ g.derivationsUpTo v depth type ↔
      Complete g type s ∧ s.depth ≤ depth ∧ s.withLiteral v = s) :
    children ∈ (types.map (g.derivationsUpTo v depth)).sections ↔
      List.Forall₂ (Complete g) types children ∧ Tree.maxDepth children ≤ depth ∧
        Tree.withLiteralOfAll v children = children := by
  have hchoice : List.Forall₂ (fun child type => child ∈ g.derivationsUpTo v depth type)
      children types ↔ List.Forall₂ (fun child type =>
        (child.depth ≤ depth ∧ child.withLiteral v = child) ∧ Complete g type child)
      children types := by
    simp only [hbelow, and_comm]
  have hflip : List.Forall₂ (fun child type => Complete g type child) children types ↔
      List.Forall₂ (Complete g) types children := ⟨.flip, .flip⟩
  rw [List.mem_sections, List.forall₂_map_right_iff, hchoice, List.forall₂_and_left, hflip,
    Tree.maxDepth_le_iff, Tree.withLiteralOfAll_eq_self_iff, and_comm, forall₂_and]

/-- The nodes for a rule are the derivations with it at the root that are one level deeper. -/
theorem mem_nodesOf_iff (hr : g.ruleAt? r = some rule)
    (hbelow : ∀ type s, s ∈ g.derivationsUpTo v depth type ↔
      Complete g type s ∧ s.depth ≤ depth ∧ s.withLiteral v = s) :
    s ∈ g.nodesOf v (g.derivationsUpTo v depth) r ↔
      s.rule? = some r ∧ Complete g rule.type s ∧ s.depth ≤ depth + 1 ∧ s.withLiteral v = s := by
  cases himmediate : rule.immediate with
  | true =>
    simp only [nodesOf, hr, himmediate, if_true, List.mem_singleton]
    constructor
    · rintro rfl
      exact ⟨rfl, .immediate hr himmediate v, Nat.le_add_left 1 depth, rfl⟩
    · rintro ⟨hroot, hcomplete, -, hliteral⟩
      obtain ⟨value, rfl⟩ := hcomplete.exists_literal hroot hr himmediate
      exact hliteral.symm
  | false =>
    simp only [nodesOf, hr, himmediate, Bool.false_eq_true, if_false, List.mem_map,
      mem_sections_iff hbelow]
    constructor
    · rintro ⟨children, ⟨hchildren, hdepth, hliteral⟩, rfl⟩
      refine ⟨rfl, .of_children hr himmediate hchildren, ?_, ?_⟩
      · rw [Tree.depth]
        omega
      · rw [Tree.withLiteral, hliteral]
    · rintro ⟨hroot, hcomplete, hdepth, hliteral⟩
      obtain ⟨children, rfl, hchildren⟩ := hcomplete.exists_children hroot hr himmediate
      rw [Tree.depth] at hdepth
      rw [Tree.withLiteral, Tree.apply.injEq] at hliteral
      exact ⟨children, ⟨hchildren, by omega, hliteral.2⟩, rfl⟩

/-- Level by level the list has the derivations with one literal throughout. -/
theorem Indexed.mem_derivationsUpTo_iff (hg : Indexed g) (depth : Nat) (type : String) (s : Tree) :
    s ∈ g.derivationsUpTo v depth type ↔
      Complete g type s ∧ s.depth ≤ depth ∧ s.withLiteral v = s := by
  induction depth generalizing type s with
  | zero =>
    have hdeep := s.depth_pos
    refine ⟨fun hs => absurd hs List.not_mem_nil, fun ⟨_, hdepth, _⟩ => ?_⟩
    omega
  | succ depth ih =>
    rw [derivationsUpTo, List.mem_flatMap]
    constructor
    · rintro ⟨r, hlisted, hs⟩
      obtain ⟨rule, hr, rfl⟩ := hg.mem_listed_iff.mp hlisted
      exact ((mem_nodesOf_iff hr ih).mp hs).2
    · rintro ⟨hcomplete, hdepth, hliteral⟩
      obtain ⟨r, rule, hroot, hr, rfl⟩ := hcomplete.exists_rule
      exact ⟨r, hg.mem_listed hr, (mem_nodesOf_iff hr ih).mpr ⟨hroot, hcomplete, hdepth, hliteral⟩⟩

/-- The nodes for a rule are without repetition if the lists of children are. -/
theorem nodup_nodesOf {below : String → List Tree} (hbelow : ∀ type, (below type).Nodup)
    (r : RuleId) : (g.nodesOf v below r).Nodup := by
  unfold nodesOf
  split
  · exact .nil
  · split
    · exact List.nodup_singleton _
    · refine (nodup_sections ?_).map fun _ _ hsame => (Tree.apply.inj hsame).2
      simp [hbelow]

/-- The list of derivations is without repetition. -/
theorem Indexed.nodup_derivationsUpTo (hg : Indexed g) (v : Value) (depth : Nat) (type : String) :
    (g.derivationsUpTo v depth type).Nodup := by
  induction depth generalizing type with
  | zero => exact .nil
  | succ depth ih =>
    rw [derivationsUpTo, List.nodup_flatMap]
    refine ⟨fun r _ => nodup_nodesOf ih r, ?_⟩
    refine (hg.lists.ascending type).imp fun {r r'} hless => List.disjoint_left.mpr ?_
    intro s hs hs'
    have hroot := (rule?_of_mem_nodesOf hs).symm.trans (rule?_of_mem_nodesOf hs')
    obtain rfl := Option.some.inj hroot
    exact Nat.lt_irrefl r.index hless

/-- There are as many nodes for a rule as the product over the types of its children says. -/
theorem Consistent.length_nodesOf (hg : Consistent g) {below : String → List Tree}
    (hr : g.ruleAt? r = some rule) :
    (g.nodesOf v below r).length =
      ((g.childTypesOf r).map fun type => (below type).length).prod := by
  rw [childTypesOf_of_ruleAt? hr]
  cases himmediate : rule.immediate with
  | true =>
    have hnone : rule.childTypes = [] := by
      rw [Rule.childTypes, hg.kinds_eq r rule hr, himmediate]
      rfl
    simp [nodesOf, hr, himmediate, hnone]
  | false =>
    simp [nodesOf, hr, himmediate, length_sections, Function.comp_def]

/-- There are as many derivations in the list as the recurrence says. -/
theorem Consistent.length_derivationsUpTo (hg : Consistent g) (v : Value) (depth : Nat)
    (type : String) : (g.derivationsUpTo v depth type).length = g.derivationCount depth type := by
  induction depth generalizing type with
  | zero => rfl
  | succ depth ih =>
    rw [derivationsUpTo, derivationCount, List.length_flatMap]
    congr 1
    refine List.map_congr_left fun r hlisted => ?_
    obtain ⟨rule, hr, -⟩ := hg.mem_listed_iff.mp hlisted
    simp only [hg.length_nodesOf hr, ih]

/-! ### The number of derivations -/

/-- The derivations of a type of at most some depth, up to their literals. -/
def derivationsUpToLiterals (g : Grammar) (v : Value) (depth : Nat) (type : String) : Set Tree :=
  Tree.withLiteral v '' {t | Complete g type t ∧ t.depth ≤ depth}

/-- Derivations up to their literals are the derivations with one literal throughout. -/
theorem Indexed.mem_derivationsUpToLiterals (hg : Indexed g) :
    s ∈ g.derivationsUpToLiterals v depth type ↔ s ∈ g.derivationsUpTo v depth type := by
  rw [hg.mem_derivationsUpTo_iff]
  constructor
  · rintro ⟨t, ⟨hcomplete, hdepth⟩, rfl⟩
    exact ⟨hcomplete.withLiteral v, by simpa using hdepth, by simp⟩
  · rintro ⟨hcomplete, hdepth, hliteral⟩
    exact ⟨s, ⟨hcomplete, hdepth⟩, hliteral⟩

open Classical in
/-- The recurrence counts the derivations up to their literals. -/
theorem Consistent.encard_derivationsUpToLiterals (hg : Consistent g) (v : Value) (depth : Nat)
    (type : String) :
    (g.derivationsUpToLiterals v depth type).encard = g.derivationCount depth type := by
  have hlist : g.derivationsUpToLiterals v depth type = (g.derivationsUpTo v depth type).toFinset := by
    ext s
    simp [hg.mem_derivationsUpToLiterals]
  rw [hlist, Set.encard_coe_eq_coe_finsetCard,
    List.toFinset_card_of_nodup (hg.nodup_derivationsUpTo v depth type), hg.length_derivationsUpTo]

/-- With more levels there are at least as many derivations. -/
theorem Consistent.derivationCount_mono (hg : Consistent g) (type : String) :
    Monotone fun depth => g.derivationCount depth type := by
  intro depth more hle
  have hsubset : g.derivationsUpToLiterals (.int 0) depth type ⊆
      g.derivationsUpToLiterals (.int 0) more type :=
    Set.image_mono fun t ht => ⟨ht.1, ht.2.trans hle⟩
  have hcard := Set.encard_le_encard hsubset
  rw [hg.encard_derivationsUpToLiterals, hg.encard_derivationsUpToLiterals] at hcard
  exact Nat.cast_le.mp hcard

/-- In a grammar that can come about, the number of derivations of a type of at most some depth is
given for every depth. It is the number of the complete derivations up to their literals, and it is
the one of the recurrence, without a table and without an early end. There is none of depth zero, and
with more levels there are not fewer. -/
theorem Reachable.countDerivations_exact (h : Reachable g) (htype : g.hasType type = true) :
    (∀ depth, g.countDerivations type depth = .ok (g.derivationCount depth type)) ∧
      (∀ depth v, (Tree.withLiteral v '' {t | Complete g type t ∧ t.depth ≤ depth}).encard =
        g.derivationCount depth type) ∧
      g.derivationCount 0 type = 0 ∧ Monotone fun depth => g.derivationCount depth type :=
  ⟨h.consistent.countDerivations_eq htype,
    fun depth v => h.consistent.encard_derivationsUpToLiterals v depth type, rfl,
    h.consistent.derivationCount_mono type⟩

/-- Sums of ones and of numbers that are rolled. -/
def rolledSums : Grammar :=
  ((empty.addRules "N" [.lit (.int 1), .call "+" [.sym "N", .sym "N"]]).state.addImmediateRule "N"
    (.call "roll" [])).state

/-- There are two numbers, and four sums of two of them, up to what is rolled. -/
theorem rolledSums_countDerivations_exact : Reachable rolledSums ∧ rolledSums.hasType "N" = true ∧
    rolledSums.countDerivations "N" 2 = .ok 6 ∧
    (Tree.withLiteral (.int 0) '' {t | Complete rolledSums "N" t ∧ t.depth ≤ 2}).encard = 6 ∧
    rolledSums.derivationCount 0 "N" = 0 ∧
    Monotone fun depth => rolledSums.derivationCount depth "N" := by
  have hreachable : Reachable rolledSums := (Reachable.empty.addRules _ _).addImmediateRule _ _
  have htype : rolledSums.hasType "N" = true := by cbv
  have htwo : rolledSums.countDerivations "N" 2 = .ok 6 := by cbv
  obtain ⟨hcount, hcard, hzero, hmono⟩ := hreachable.countDerivations_exact htype
  have hsix : rolledSums.derivationCount 2 "N" = 6 := Except.ok.inj ((hcount 2).symm.trans htwo)
  exact ⟨hreachable, htype, htwo, by rw [hcard 2, hsix]; rfl, hzero, hmono⟩

end Grammar

end TypedGrammar
