import TypedGrammar.Proofs.Tree.LeftRules

/-!
# Two places of a tree

A hole is filled, and another hole is looked at. It stands where it stood, below the same rules. To its
left come at least the rules that came there before, and none but these when the hole that was filled
comes after it.
-/

namespace TypedGrammar

variable {ctx : Context} {t t' node : Tree} {path other : Path} {hole hole' : Hole} {r : RuleId}

/-! ### Another hole -/

/-- The path of the open place addresses what was filled in. -/
theorem Context.subtree?_plug (ctx : Context) (t : Tree) : (ctx.plug t).subtree? ctx.path = some t := by
  induction ctx with
  | nil => rfl
  | cons f rest ih =>
    rw [path_cons, plug, Tree.subtree?, Frame.child?_plug]
    exact ih

/-- An addressed node stands in the open place of a context. -/
theorem Tree.exists_context_of_subtree? (h : t.subtree? path = some node) :
    ∃ ctx : Context, t = ctx.plug node ∧ path = ctx.path := by
  induction path generalizing t with
  | nil =>
    obtain rfl := Option.some.inj h
    exact ⟨[], rfl, rfl⟩
  | cons i rest ih =>
    obtain ⟨child, hchild, hrest⟩ := Option.bind_eq_some_iff.mp h
    obtain ⟨f, rfl, rfl⟩ := exists_frame hchild
    obtain ⟨ctx, rfl, rfl⟩ := ih hrest
    exact ⟨f :: ctx, rfl, rfl⟩

/-- A hole has nothing below it. -/
theorem Tree.subtree?_hole_of_ne_nil (hole : Hole) (hpath : path ≠ []) :
    (Tree.hole hole).subtree? path = none := by
  cases path with
  | nil => exact absurd rfl hpath
  | cons i rest => rw [subtree?, child?_eq_none rfl, Option.bind_none]

/-- When the open place is filled, a hole at another path stays there. -/
theorem Context.subtree?_plug_of_ne (node : Tree) (hne : path ≠ ctx.path)
    (h : (ctx.plug (.hole hole')).subtree? path = some (.hole hole)) :
    (ctx.plug node).subtree? path = some (.hole hole) := by
  induction ctx generalizing path with
  | nil =>
    rw [plug, Tree.subtree?_hole_of_ne_nil hole' hne] at h
    cases h
  | cons f rest ih =>
    cases path with
    | nil => cases h
    | cons i path =>
      rw [plug, Tree.subtree?] at h ⊢
      by_cases hi : i = f.index
      · subst hi
        rw [Frame.child?_plug] at h ⊢
        exact ih (fun hsame => hne (congrArg (f.index :: ·) hsame)) h
      · rwa [Frame.child?_plug_of_ne hi] at h

/-! ### The rules above it and to its left -/

/-- Filling the open place, where a hole was, keeps every rule of the tree where it is. -/
theorem Context.extends_plug_hole (ctx : Context) (hole : Hole) (node : Tree) :
    Tree.Extends (ctx.plug (.hole hole)) (ctx.plug node) := by
  refine extends_plug (fun path r hr => ?_) ctx
  rw [Tree.ruleAtPath?_hole] at hr
  cases hr

/-- A tree that extends another has the same rules above a node that both have. Both paths are valid, so
all nodes above are filled in the first tree, and extending keeps them. -/
theorem Tree.Extends.ancestors_eq (h : Extends t t') (hpath : t.checkPath path = .ok ())
    (hpath' : t'.checkPath path = .ok ()) : t'.ancestors path = t.ancestors path := by
  have habove := map_ruleAtPath?_eq hpath
  have hkept : path.inits.dropLast.map t'.ruleAtPath? = path.inits.dropLast.map t.ruleAtPath? := by
    refine List.map_congr_left fun above hmem => ?_
    have hfilled : t.ruleAtPath? above ∈ (t.ancestors path).map some :=
      habove ▸ List.mem_map_of_mem hmem
    obtain ⟨r, -, hr⟩ := List.mem_map.mp hfilled
    rw [← hr, h above r hr.symm]
  rw [map_ruleAtPath?_eq hpath', habove] at hkept
  exact (List.map_inj_right fun _ _ => Option.some.inj).mp hkept

/-- A tree that extends another has every rule to the left of a path that the other has there. -/
theorem Tree.Extends.standsLeft (h : Extends t t') (hr : t.StandsLeft path r) :
    t'.StandsLeft path r := by
  obtain ⟨other, hplace, hr⟩ := hr
  exact ⟨other, hplace, h other r hr⟩

/-- Nothing at or below a path stands to the left of a path that leaves it to the left. -/
theorem Path.BranchesLeft.not_left_of_below (h : Path.BranchesLeft path other) (rest : Path) :
    ¬ (other ++ rest <+: path ∨ Path.BranchesLeft (other ++ rest) path ∨ path <+: other ++ rest) := by
  induction path generalizing other with
  | nil =>
    obtain ⟨common, i, j, _, _, _, hnil, _⟩ := h
    cases common <;> cases hnil
  | cons i path ih =>
    cases other with
    | nil =>
      obtain ⟨common, i, j, _, _, _, _, hnil⟩ := h
      cases common <;> cases hnil
    | cons j other =>
      rw [List.cons_append, List.cons_prefix_cons, List.cons_prefix_cons, branchesLeft_cons_iff]
      rcases branchesLeft_cons_iff.mp h with hlt | ⟨rfl, hbelow⟩
      · omega
      · simpa using ih hbelow

/-- To the left of a path that branches off before the open place stands nothing that was filled in. -/
theorem Context.standsLeft_plug_iff (h : Path.BranchesLeft path ctx.path) (hole : Hole) (node : Tree) :
    (ctx.plug node).StandsLeft path r ↔ (ctx.plug (.hole hole)).StandsLeft path r := by
  constructor
  · intro hr
    obtain ⟨other, hplace, hr⟩ := hr
    rcases ruleAtPath?_plug hole hr with hkept | ⟨rest, rfl, -⟩
    · exact ⟨other, hplace, hkept⟩
    · exact absurd hplace (h.not_left_of_below rest)
  · exact (ctx.extends_plug_hole hole node).standsLeft

end TypedGrammar
