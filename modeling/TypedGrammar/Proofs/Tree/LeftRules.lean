import TypedGrammar.Proofs.Tree.Positions

/-!
# Rules above a position and to the left of it

The two walks along a path are read off the positions of the tree. The walk to the left meets the rules
at the prefixes of the path, at the positions that branch off it to the left, and in the subtree at its
end. Above a node every node is filled, and the walk to its parent meets their rules.
-/

namespace TypedGrammar

variable {path other : Path} {t child : Tree} {r : RuleId} {i j : Nat}

/-! ### To the left -/

/-- The first path leaves the second by a smaller index. -/
def Path.BranchesLeft (other path : Path) : Prop :=
  ∃ (common : Path) (i j : Nat) (rest rest' : Path),
    i < j ∧ other = common ++ i :: rest ∧ path = common ++ j :: rest'

/-- The first indices decide, unless they agree. -/
theorem Path.branchesLeft_cons_iff : Path.BranchesLeft (j :: other) (i :: path) ↔
    j < i ∨ j = i ∧ Path.BranchesLeft other path := by
  constructor
  · intro h
    obtain ⟨common, k, l, rest, rest', hlt, hother, hpath⟩ := h
    cases common with
    | nil =>
      obtain ⟨rfl, -⟩ := List.cons.inj hother
      obtain ⟨rfl, -⟩ := List.cons.inj hpath
      exact .inl hlt
    | cons first common =>
      obtain ⟨rfl, hother'⟩ := List.cons.inj hother
      obtain ⟨rfl, hpath'⟩ := List.cons.inj hpath
      exact .inr ⟨rfl, common, k, l, rest, rest', hlt, hother', hpath'⟩
  · intro h
    cases h with
    | inl hlt => exact ⟨[], j, i, other, path, hlt, rfl, rfl⟩
    | inr hsame =>
      obtain ⟨rfl, common, k, l, rest, rest', hlt, rfl, rfl⟩ := hsame
      exact ⟨j :: common, k, l, rest, rest', hlt, rfl, rfl⟩

namespace Tree

/-- The rule stands at a prefix of the path, at a position that branches off the path to the left, or in
the subtree at its end. -/
def StandsLeft (t : Tree) (path : Path) (r : RuleId) : Prop :=
  ∃ other : Path, (other <+: path ∨ other.BranchesLeft path ∨ path <+: other) ∧
    t.ruleAtPath? other = some r

/-- To the left of the root and below it stand all the rules of the tree. -/
theorem standsLeft_nil_iff : t.StandsLeft [] r ↔ ∃ other, t.ruleAtPath? other = some r := by
  simp [StandsLeft]

/-- To the left of a path stand the rule of the root, the rules of the children before the first index, and
in the child at this index the rules to the left of the rest. A child behind that index neither agrees with
the path nor branches off it to the left. -/
theorem standsLeft_cons_iff : t.StandsLeft (i :: path) r ↔ t.rule? = some r ∨
    (∃ j child, j < i ∧ t.child? j = some child ∧ ∃ other, child.ruleAtPath? other = some r) ∨
    ∃ child, t.child? i = some child ∧ child.StandsLeft path r := by
  constructor
  · intro h
    obtain ⟨other, hplace, hr⟩ := h
    cases other with
    | nil => exact .inl hr
    | cons j other =>
      rw [ruleAtPath?_cons] at hr
      obtain ⟨child, hchild, hr⟩ := Option.bind_eq_some_iff.mp hr
      rw [List.cons_prefix_cons, Path.branchesLeft_cons_iff, List.cons_prefix_cons] at hplace
      by_cases hlt : j < i
      · exact .inr (.inl ⟨j, child, hlt, hchild, other, hr⟩)
      · have hsame : j = i := by omega
        subst hsame
        exact .inr (.inr ⟨child, hchild, other, by simpa using hplace, hr⟩)
  · intro h
    rcases h with hroot | hbefore | hbelow
    · exact ⟨[], .inl List.nil_prefix, hroot⟩
    · obtain ⟨j, child, hlt, hchild, other, hr⟩ := hbefore
      exact ⟨j :: other, .inr (.inl (Path.branchesLeft_cons_iff.mpr (.inl hlt))), by simp [hchild, hr]⟩
    · obtain ⟨child, hchild, other, hplace, hr⟩ := hbelow
      refine ⟨i :: other, ?_, by simp [hchild, hr]⟩
      rw [List.cons_prefix_cons, Path.branchesLeft_cons_iff, List.cons_prefix_cons]
      simpa using hplace

/-- The children before an index are those at the smaller indices. -/
theorem mem_take_children_iff :
    child ∈ t.children.take (i - 1) ↔ ∃ j, j < i ∧ t.child? j = some child := by
  rw [List.mem_iff_getElem?]
  constructor
  · intro h
    obtain ⟨k, hk⟩ := h
    rw [List.getElem?_take] at hk
    split at hk
    · exact ⟨k + 1, by omega, hk⟩
    · cases hk
  · intro h
    obtain ⟨j, hlt, hchild⟩ := h
    cases j with
    | zero => cases hchild
    | succ k =>
      refine ⟨k, ?_⟩
      rw [List.getElem?_take, if_pos (by omega)]
      exact hchild

/-- Where there are no children, no index leads to one. -/
theorem child?_eq_none (hleaf : t.children = []) (i : Nat) : t.child? i = none := by
  cases i with
  | zero => rfl
  | succ i => rw [child?, hleaf, List.getElem?_nil]

/-- The walk to the left of a path, whether it leads to a node or not, meets the rules to the left of it. -/
theorem mem_leftRules_iff : r ∈ t.leftRules path ↔ t.StandsLeft path r := by
  induction path generalizing t with
  | nil => rw [leftRules, mem_preorderRules, standsLeft_nil_iff]
  | cons i rest ih =>
    rw [standsLeft_cons_iff]
    cases t with
    | apply rule children =>
      have hbefore : r ∈ preorderRulesOfAll (children.take (i - 1)) ↔
          ∃ j child, j < i ∧ (apply rule children).child? j = some child ∧
            ∃ other, child.ruleAtPath? other = some r := by
        have htake : ∀ child, child ∈ children.take (i - 1) ↔
            ∃ j, j < i ∧ (apply rule children).child? j = some child :=
          fun child => mem_take_children_iff (t := apply rule children)
        simp only [mem_preorderRulesOfAll, htake]
        tauto
      rw [leftRules, List.mem_append, List.mem_cons, hbefore, ← or_assoc]
      refine or_congr (or_congr_left ?_) ?_
      · simp [rule?, eq_comm]
      · cases (apply rule children).child? i with
        | none => simp
        | some child => simp [ih]
    | immediate rule value =>
      have hnone := child?_eq_none (t := immediate rule value) rfl
      simp [leftRules, hnone, rule?, eq_comm]
    | hole h =>
      have hnone := child?_eq_none (t := hole h) rfl
      simp [leftRules, hnone, rule?]

end Tree

/-! ### Above -/

/-- Every node above the open place is filled. -/
theorem Context.map_ruleAtPath?_plug (ctx : Context) (t : Tree) :
    ctx.path.inits.dropLast.map (ctx.plug t).ruleAtPath? = (ctx.map Frame.rule).map some := by
  induction ctx with
  | nil => rfl
  | cons f rest ih =>
    have hne : (Context.path rest).inits.map (f.index :: ·) ≠ [] := by
      cases Context.path rest <;> simp
    have hbelow : (plug (f :: rest) t).ruleAtPath? ∘ (f.index :: ·) =
        (Context.plug rest t).ruleAtPath? := by
      funext path
      simp [plug, Frame.child?_plug]
    rw [path_cons, List.inits_cons, List.dropLast_cons_of_ne_nil hne, ← List.map_dropLast,
      List.map_cons, List.map_map, hbelow, ih, List.map_cons, List.map_cons]
    rfl

/-- The walk to the parent of a node meets the rules of the nodes above it, all of which are filled. -/
theorem Tree.map_ruleAtPath?_eq (h : t.checkPath path = .ok ()) :
    path.inits.dropLast.map t.ruleAtPath? = (t.ancestors path).map some := by
  obtain ⟨ctx, node, rfl, rfl⟩ := exists_context_of_checkPath h
  rw [Context.ancestors_plug, Context.map_ruleAtPath?_plug]

end TypedGrammar
