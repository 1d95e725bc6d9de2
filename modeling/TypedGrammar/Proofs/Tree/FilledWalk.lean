import TypedGrammar.Proofs.Tree.PathWalks
import TypedGrammar.Proofs.Tree.Preorder
import Mathlib.Order.Bounds.Basic

/-!
# The rules along a path

The walk along a path meets one rule at each prefix of the path that leads to a filled node, the shortest
prefix first, and ends before the first prefix that does not. Any path will do: one that goes on below a
hole or a literal, or asks for a child that is not there, ends the walk early and nothing else.
-/

namespace TypedGrammar.Tree

variable {t node : Tree} {path rest : Path} {r : RuleId} {i k : Nat}

/-- So many prefixes of a path, from the empty one on, lead to filled nodes. -/
def FilledFor (t : Tree) (path : Path) (m : Nat) : Prop :=
  ∀ k < m, ∃ above r, above <+: path ∧ above.length = k ∧ t.ruleAtPath? above = some r

/-- The walk meets at most one rule for each prefix. -/
theorem length_ruleSequence_le (t : Tree) (path : Path) :
    (t.ruleSequence path).length ≤ path.length + 1 := by
  induction path generalizing t with
  | nil => cases t <;> simp [ruleSequence, rule?]
  | cons i rest ih =>
    rw [ruleSequence]
    cases t.rule? with
    | none => simp
    | some r =>
      cases t.child? i with
      | none => simp
      | some child => simpa using ih child

/-- The rules that the walk meets are numbered by the lengths of the prefixes at which they stand. -/
theorem getElem?_ruleSequence (hk : k ≤ path.length) :
    (t.ruleSequence path)[k]? = t.ruleAtPath? (path.take k) := by
  induction path generalizing t k with
  | nil =>
    obtain rfl : k = 0 := Nat.le_zero.mp hk
    cases t <;> rfl
  | cons i rest ih =>
    cases hroot : t.rule? with
    | none =>
      cases t with
      | apply r children => cases hroot
      | immediate r value => cases hroot
      | hole h =>
        rw [ruleAtPath?_hole]
        rfl
    | some r =>
      rw [ruleSequence, hroot]
      cases k with
      | zero => exact hroot.symm
      | succ k =>
        rw [List.take_succ_cons, ruleAtPath?_cons, List.getElem?_cons_succ]
        cases t.child? i with
        | none => rfl
        | some child => exact ih (Nat.le_of_succ_le_succ hk)

/-- The rules on the way along a path are those at its prefixes, by their lengths. -/
theorem getElem?_ruleSequence_eq_some_iff : (t.ruleSequence path)[k]? = some r ↔
    ∃ above, above <+: path ∧ above.length = k ∧ t.ruleAtPath? above = some r := by
  constructor
  · intro h
    have hlt := (List.getElem?_eq_some_iff.mp h).1
    have hk : k ≤ path.length :=
      Nat.le_of_lt_succ (Nat.lt_of_lt_of_le hlt (length_ruleSequence_le t path))
    exact ⟨path.take k, List.take_prefix k path, List.length_take_of_le hk,
      (getElem?_ruleSequence hk).symm.trans h⟩
  · intro h
    obtain ⟨above, hle, rfl, hr⟩ := h
    rw [getElem?_ruleSequence hle.length_le, ← List.prefix_iff_eq_take.mp hle, hr]

/-- The walk meets as many rules as prefixes lead to filled nodes before one does not. -/
theorem isGreatest_length_ruleSequence (t : Tree) (path : Path) :
    IsGreatest {m | t.FilledFor path m} (t.ruleSequence path).length := by
  constructor
  · intro k hk
    obtain ⟨above, hle, hlength, hr⟩ :=
      getElem?_ruleSequence_eq_some_iff.mp (List.getElem?_eq_getElem hk)
    exact ⟨above, _, hle, hlength, hr⟩
  · intro m hm
    by_contra hlt
    obtain ⟨above, r, habove⟩ := hm _ (Nat.lt_of_not_le hlt)
    have hsome := getElem?_ruleSequence_eq_some_iff.mpr ⟨above, habove⟩
    rw [List.getElem?_eq_none (Nat.le_refl _)] at hsome
    cases hsome

/-- The walk finds a rule at each prefix up to where it ends. -/
theorem map_some_ruleSequence (t : Tree) (path : Path) : (t.ruleSequence path).map some =
    (List.range (t.ruleSequence path).length).map fun k => t.ruleAtPath? (path.take k) := by
  refine List.ext_getElem (by simp) fun k hk _ => ?_
  rw [List.length_map] at hk
  have hle := length_ruleSequence_le t path
  rw [List.getElem_map, List.getElem_map, List.getElem_range, ← getElem?_ruleSequence (by omega),
    List.getElem?_eq_getElem hk]

/-- Going on behind a path adds to the rules that are met along it. -/
theorem ruleSequence_le_append (t : Tree) (path rest : Path) :
    t.ruleSequence path <+: t.ruleSequence (path ++ rest) := by
  refine List.prefix_iff_getElem?.mpr fun k hk => ?_
  obtain ⟨above, hle, habove⟩ := getElem?_ruleSequence_eq_some_iff.mp (List.getElem?_eq_getElem hk)
  exact getElem?_ruleSequence_eq_some_iff.mpr
    ⟨above, hle.trans (List.prefix_append path rest), habove⟩

/-- Where a filled node lacks the next child, the walk ends with its rule. -/
theorem length_ruleSequence_of_lacking (hnode : t.subtree? path = some node)
    (hfilled : node.isHole = false) (hlacks : node.child? i = none) :
    (t.ruleSequence (path ++ i :: rest)).length = path.length + 1 := by
  have hrule : ∃ r, node.rule? = some r := by
    cases node with
    | apply r children => exact ⟨r, rfl⟩
    | immediate r value => exact ⟨r, rfl⟩
    | hole h => cases hfilled
  obtain ⟨r, hr⟩ := hrule
  have hlast : (t.ruleSequence (path ++ i :: rest))[path.length]? = some r := by
    refine getElem?_ruleSequence_eq_some_iff.mpr ⟨path, List.prefix_append path _, rfl, ?_⟩
    rw [ruleAtPath?, hnode, Option.bind_some, hr]
  have hend : (t.ruleSequence (path ++ i :: rest))[path.length + 1]? = none := by
    rw [getElem?_ruleSequence (by simp), List.take_append, ruleAtPath?, List.take_of_length_le (by simp),
      subtree?_append, hnode]
    simp [subtree?, hlacks]
  have hlt := (List.getElem?_eq_some_iff.mp hlast).1
  have hle := List.getElem?_eq_none_iff.mp hend
  omega

/-- The walk along a path meets the rules of the filled nodes in an unbroken row. -/
structure WalksFilled (t : Tree) (path : Path) : Prop where
  /-- It meets the rules at as many prefixes, from the empty one on, as lead to filled nodes without a
  break. -/
  longest : ∃ m, IsGreatest {m | t.FilledFor path m} m ∧
    (t.ruleSequence path).map some = (List.range m).map fun k => t.ruleAtPath? (path.take k)
  /-- It answers also where reading the node stops at a broken promise: it ends with the rule of the node
  that lacks the next child. -/
  of_error : ∀ failure, t.nodeAt path = .error failure → ∃ before i rest, path = before ++ i :: rest ∧
    t.checkPath before = .ok () ∧ (t.ruleSequence path).length = before.length + 1
  /-- Along a longer path it meets these rules first. -/
  append : ∀ rest, t.ruleSequence path <+: t.ruleSequence (path ++ rest)
  /-- Above a node below the root it meets as many rules as the path of the node has indices. -/
  above : t.checkPath path = .ok () → path ≠ [] →
    t.ancestors path = t.ruleSequence path.dropLast ∧ (t.ancestors path).length = path.length

/-- In every tree and along any path the walk meets the rules of the filled nodes in an unbroken row. -/
theorem walks_filled (t : Tree) (path : Path) : WalksFilled t path where
  longest := ⟨_, t.isGreatest_length_ruleSequence path, t.map_some_ruleSequence path⟩
  of_error failure h := by
    obtain ⟨i, count, ⟨before, rest, node, rfl, hnode, hfilled, rfl, hindex⟩, -⟩ :=
      nodeAt_eq_error_iff.mp h
    obtain ⟨ctx, rfl, rfl⟩ := exists_context_of_subtree? hnode
    exact ⟨ctx.path, i, rest, rfl, ctx.checkPath_plug node,
      length_ruleSequence_of_lacking hnode hfilled (child?_eq_none_iff.mpr hindex)⟩
  append := t.ruleSequence_le_append path
  above hpath hne := by
    refine ⟨by rw [ancestors, if_neg (by simpa using hne)], ?_⟩
    have hlength := congrArg List.length (map_ruleAtPath?_eq hpath)
    simpa using hlength.symm

end TypedGrammar.Tree
