import TypedGrammar.Derivation.Commit
import TypedGrammar.Proofs.Derivation.Complete
import TypedGrammar.Proofs.Members
import TypedGrammar.Proofs.Tree.Context

/-!
# What a tree with holes can become

A finished tree refines one with holes when it arises by putting a complete derivation into each hole
whose rule is a candidate of the hole. Expanding one hole by each of its candidates in turn divides up
the finished trees: each of them refines the expansion by exactly one rule, the one that it has in the
place of the hole.
-/

namespace TypedGrammar.Grammar

variable {g : Grammar} {r : RuleId} {rule : Rule} {type : String} {h : Hole} {t s : Tree}
  {trees finished : List Tree}

/-- The second tree arises from the first by putting complete derivations into the holes. -/
inductive Refines (g : Grammar) : Tree → Tree → Prop
  | hole {h : Hole} {r : RuleId} {type : String} {s : Tree} (hroot : s.rule? = some r)
      (hcandidate : h.domain.containsRule r = true) (hcomplete : Complete g type s) :
      Refines g (.hole h) s
  | immediate (r : RuleId) (value : Value) : Refines g (.immediate r value) (.immediate r value)
  | apply (r : RuleId) {trees finished : List Tree} (hlength : trees.length = finished.length)
      (htrees : ∀ i (ht : i < trees.length) (hf : i < finished.length),
        Refines g trees[i] finished[i]) :
      Refines g (.apply r trees) (.apply r finished)

/-- What refines a node has its rule and refines its children one by one. -/
theorem refines_apply_iff : Refines g (.apply r trees) s ↔
    ∃ finished, s = .apply r finished ∧ List.Forall₂ (Refines g) trees finished := by
  constructor
  · intro h
    cases h with
    | apply _ hlength htrees => exact ⟨_, rfl, List.forall₂_iff_get.mpr ⟨hlength, htrees⟩⟩
  · intro hexists
    obtain ⟨finished, rfl, htrees⟩ := hexists
    exact .apply r htrees.length_eq fun _ _ _ => htrees.get _ _

/-- What refines a hole is a complete derivation with one of the candidates at its root. -/
theorem refines_hole_iff : Refines g (.hole h) s ↔
    ∃ r type, s.rule? = some r ∧ h.domain.containsRule r = true ∧ Complete g type s := by
  constructor
  · intro hrefines
    cases hrefines with
    | hole hroot hcandidate hcomplete => exact ⟨_, _, hroot, hcandidate, hcomplete⟩
  · intro hexists
    obtain ⟨r, type, hroot, hcandidate, hcomplete⟩ := hexists
    exact .hole hroot hcandidate hcomplete

/-- Induction over a refinement, with the children of a node as one list. -/
@[elab_as_elim]
theorem Refines.induct {motive : Tree → Tree → Prop}
    (hole : ∀ h r type s, s.rule? = some r → h.domain.containsRule r = true → Complete g type s →
      motive (.hole h) s)
    (immediate : ∀ r value, motive (.immediate r value) (.immediate r value))
    (apply : ∀ r trees finished, List.Forall₂ motive trees finished →
      motive (.apply r trees) (.apply r finished))
    (h : Refines g t s) : motive t s := by
  induction h with
  | hole hroot hcandidate hcomplete => exact hole _ _ _ _ hroot hcandidate hcomplete
  | immediate r value => exact immediate r value
  | apply r hlength _ ih => exact apply r _ _ (List.forall₂_iff_get.mpr ⟨hlength, ih⟩)

/-- Filling holes does not make a tree smaller. -/
theorem Refines.size_le (h : Refines g t s) : t.size ≤ s.size := by
  refine h.induct (fun h _ _ s _ _ _ => s.size_pos) (fun _ _ => Nat.le_refl _)
    fun r trees finished ih => ?_
  have htotal : Tree.totalSize trees ≤ Tree.totalSize finished := by
    induction ih with
    | nil => exact Nat.le_refl _
    | cons hsize _ hrest => exact Nat.add_le_add hsize hrest
  exact Nat.add_le_add_left htotal 1

mutual

/-- A finished tree refines itself. -/
theorem refines_self : ∀ t : Tree, t.containsHole = false → Refines g t t
  | .apply _ trees, hfree => refines_apply_iff.mpr ⟨trees, rfl, refinesAll_self trees hfree⟩
  | .immediate r value, _ => .immediate r value

/-- Finished trees refine themselves. -/
theorem refinesAll_self : ∀ trees : List Tree, Tree.anyContainsHole trees = false →
    List.Forall₂ (Refines g) trees trees
  | [], _ => .nil
  | t :: rest, hfree => by
    rw [Tree.anyContainsHole, Bool.or_eq_false_iff] at hfree
    exact .cons (refines_self t hfree.1) (refinesAll_self rest hfree.2)

end

/-- Nothing but itself refines a finished tree. -/
theorem Refines.eq_of_containsHole_eq_false (h : Refines g t s) :
    t.containsHole = false → s = t := by
  refine h.induct (fun _ _ _ _ _ _ _ hfree => absurd hfree (by simp [Tree.containsHole]))
    (fun _ _ _ => rfl) fun r trees finished ih hfree => ?_
  rw [Tree.containsHole, Tree.anyContainsHole_eq_false_iff] at hfree
  have hsame : finished = trees := by
    induction ih with
    | nil => rfl
    | cons heq _ hrest =>
      rw [heq (hfree _ List.mem_cons_self),
        hrest fun t ht => hfree t (List.mem_cons_of_mem _ ht)]
  rw [hsame]

/-- A tree that refines a filled node has the same rule. -/
theorem Refines.rule?_eq (h : Refines g t s) (hroot : t.rule? = some r) : s.rule? = some r := by
  cases h with
  | hole _ _ _ => cases hroot
  | immediate _ _ => exact hroot
  | apply _ _ _ => exact hroot

/-! ### Refining a filled context -/

/-- What refines a node around a tree is a node of the same rule around what refines the tree. -/
theorem refines_frame_iff {f : Frame} :
    Refines g (f.plug t) s ↔ ∃ left inner right, s = Frame.plug ⟨f.rule, left, right⟩ inner ∧
      List.Forall₂ (Refines g) f.left left ∧ Refines g t inner ∧
      List.Forall₂ (Refines g) f.right right := by
  rw [Frame.plug, refines_apply_iff]
  constructor
  · intro hexists
    obtain ⟨finished, rfl, hfinished⟩ := hexists
    have hleft := List.forall₂_take f.left.length hfinished
    have hright := List.forall₂_drop f.left.length hfinished
    rw [List.take_left] at hleft
    rw [List.drop_left] at hright
    obtain ⟨inner, right, hinner, hrest, hdrop⟩ := List.forall₂_cons_left_iff.mp hright
    refine ⟨_, inner, right, ?_, hleft, hinner, hrest⟩
    rw [Frame.plug, ← hdrop, List.take_append_drop]
  · intro hexists
    obtain ⟨left, inner, right, rfl, hleft, hinner, hright⟩ := hexists
    exact ⟨_, rfl, List.rel_append hleft (.cons hinner hright)⟩

/-- If the refinements of a tree are divided up among some others, those of a context around the tree
are divided up among the contexts around the others. -/
theorem refines_plug_iff {among : Tree → Prop}
    (h : ∀ s, Refines g t s ↔ ∃ node, among node ∧ Refines g node s) (ctx : Context) :
    ∀ s, Refines g (ctx.plug t) s ↔ ∃ node, among node ∧ Refines g (ctx.plug node) s := by
  induction ctx with
  | nil => exact h
  | cons f rest ih =>
    intro s
    simp only [Context.plug, refines_frame_iff, ih]
    constructor
    · intro hexists
      obtain ⟨left, inner, right, hs, hleft, ⟨node, hnode, hinner⟩, hright⟩ := hexists
      exact ⟨node, hnode, left, inner, right, hs, hleft, hinner, hright⟩
    · intro hexists
      obtain ⟨node, hnode, left, inner, right, hs, hleft, hinner, hright⟩ := hexists
      exact ⟨left, inner, right, hs, hleft, ⟨node, hnode, hinner⟩, hright⟩

/-- What refines a context around a filled node has the rule of the node in the place. -/
theorem Refines.rule_at_path {ctx : Context} (h : Refines g (ctx.plug t) s)
    (hroot : t.rule? = some r) : (s.subtree? ctx.path).bind Tree.rule? = some r := by
  induction ctx generalizing s with
  | nil => exact h.rule?_eq hroot
  | cons f rest ih =>
    obtain ⟨left, inner, right, rfl, hleft, hinner, -⟩ := refines_frame_iff.mp h
    have hindex : f.index = (Frame.mk f.rule left right).index :=
      congrArg (· + 1) hleft.length_eq
    rw [Context.path_cons, hindex, Tree.subtree?, Frame.child?_plug]
    exact ih hinner

end TypedGrammar.Grammar
