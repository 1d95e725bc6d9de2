import TypedGrammar.Tree.Walk
import TypedGrammar.Proofs.Tree.Context
import Mathlib.Data.List.Infix

/-!
# Rules at the positions of a tree

The rules above a position and those before it, read off the tree position by position: above a
position are its proper prefixes, and before it in pre-order are the paths that are lexicographically
smaller. In a filled context the rules above and before the open place do not depend on what was
filled in, and they are what the walks along the path and to the left of it collect.
-/

namespace TypedGrammar

variable {t t' : Tree} {path : Path} {r : RuleId}

namespace Tree

/-- The rule of the node at a path; none where there is no node, or a hole. -/
def ruleAtPath? (t : Tree) (path : Path) : Option RuleId := (t.subtree? path).bind rule?

/-- The rules at the proper prefixes of a path, that of the root first. -/
def rulesAbove (t : Tree) (path : Path) : List RuleId :=
  path.inits.dropLast.filterMap t.ruleAtPath?

/-- The rule stands somewhere before the path in pre-order. -/
def StandsBefore (t : Tree) (path : Path) (r : RuleId) : Prop :=
  ∃ other : Path, other < path ∧ t.ruleAtPath? other = some r

/-- The second tree has every rule of the first at the same position. -/
def Extends (t t' : Tree) : Prop :=
  ∀ path r, t.ruleAtPath? path = some r → t'.ruleAtPath? path = some r

/-- At the empty path stands the rule of the root. -/
@[simp] theorem ruleAtPath?_nil (t : Tree) : t.ruleAtPath? [] = t.rule? := rfl

/-- Below a child stands what stands in it at the rest of the path. -/
@[simp] theorem ruleAtPath?_cons (t : Tree) (i : Nat) (rest : Path) :
    t.ruleAtPath? (i :: rest) = (t.child? i).bind fun child => child.ruleAtPath? rest := by
  rw [ruleAtPath?, subtree?, Option.bind_assoc]
  rfl

/-- A hole has no rule at any position. -/
theorem ruleAtPath?_hole (h : Hole) (path : Path) : (Tree.hole h).ruleAtPath? path = none := by
  cases path with
  | nil => rfl
  | cons i rest => cases i <;> simp [child?, children]

/-- The children are those at the indices from 1 on. -/
theorem mem_children_iff {child : Tree} : child ∈ t.children ↔ ∃ i, t.child? i = some child := by
  rw [List.mem_iff_getElem?]
  constructor
  · rintro ⟨i, hi⟩
    exact ⟨i + 1, hi⟩
  · rintro ⟨_ | i, hi⟩
    · cases hi
    · exact ⟨i, hi⟩

/-- A rule stands somewhere in a tree when it stands at the root or somewhere in a child. -/
theorem exists_ruleAtPath?_iff : (∃ path, t.ruleAtPath? path = some r) ↔
    t.rule? = some r ∨ ∃ child ∈ t.children, ∃ path, child.ruleAtPath? path = some r := by
  constructor
  · rintro ⟨_ | ⟨i, rest⟩, hpath⟩
    · exact .inl hpath
    · obtain ⟨child, hchild, hrest⟩ := Option.bind_eq_some_iff.mp (ruleAtPath?_cons t i rest ▸ hpath)
      exact .inr ⟨child, mem_children_iff.mpr ⟨i, hchild⟩, rest, hrest⟩
  · rintro (hroot | ⟨child, hmem, rest, hrest⟩)
    · exact ⟨[], hroot⟩
    · obtain ⟨i, hchild⟩ := mem_children_iff.mp hmem
      exact ⟨i :: rest, by simp [hchild, hrest]⟩

mutual

/-- The rules of a tree are those at its positions. -/
theorem mem_preorderRules : ∀ t : Tree, r ∈ t.preorderRules ↔ ∃ path, t.ruleAtPath? path = some r
  | .apply rule children => by
    rw [exists_ruleAtPath?_iff, preorderRules, List.mem_cons, mem_preorderRulesOfAll children]
    simp [rule?, Tree.children, eq_comm]
  | .immediate rule value => by
    rw [exists_ruleAtPath?_iff, preorderRules, List.mem_singleton]
    simp [rule?, Tree.children, eq_comm]
  | .hole h => by simp [preorderRules, ruleAtPath?_hole]

/-- The rules of several trees are those at the positions of one of them. -/
theorem mem_preorderRulesOfAll : ∀ trees : List Tree,
    r ∈ preorderRulesOfAll trees ↔ ∃ t ∈ trees, ∃ path, t.ruleAtPath? path = some r
  | [] => by simp [preorderRulesOfAll]
  | t :: rest => by
    rw [preorderRulesOfAll, List.mem_append, mem_preorderRules t, mem_preorderRulesOfAll rest]
    simp

end

/-- The rules of a child are among those of the whole tree. -/
theorem mem_preorderRules_of_child {rule : RuleId} {children : List Tree} {child : Tree}
    (hchild : child ∈ children) (hr : r ∈ child.preorderRules) :
    r ∈ (apply rule children).preorderRules :=
  List.mem_cons_of_mem _ ((mem_preorderRulesOfAll children).mpr
    ⟨child, hchild, (mem_preorderRules child).mp hr⟩)

/-- Above a filled node every node is filled. -/
theorem exists_ruleAtPath?_of_append {rest : Path} (h : t.ruleAtPath? (path ++ rest) = some r) :
    ∃ r', t.ruleAtPath? path = some r' := by
  induction path generalizing t with
  | nil =>
    cases rest with
    | nil => exact ⟨r, h⟩
    | cons i rest =>
      cases t with
      | apply rule children => exact ⟨rule, rfl⟩
      | immediate rule value => exact ⟨rule, rfl⟩
      | hole hole =>
        rw [ruleAtPath?_hole] at h
        cases h
  | cons i path ih =>
    rw [List.cons_append, ruleAtPath?_cons] at h
    obtain ⟨child, hchild, hrest⟩ := Option.bind_eq_some_iff.mp h
    simpa [hchild] using ih hrest

/-- A tree that extends another has the same rules above the filled nodes of the other. -/
theorem Extends.rulesAbove_eq (h : Extends t t') (hpath : t.ruleAtPath? path = some r) :
    t'.rulesAbove path = t.rulesAbove path := by
  refine List.filterMap_congr fun above habove => ?_
  obtain ⟨rest, rfl⟩ : above <+: path := List.mem_inits _ _ |>.mp (List.mem_of_mem_dropLast habove)
  obtain ⟨r', hr'⟩ := exists_ruleAtPath?_of_append hpath
  rw [hr', h above r' hr']

/-- A tree that extends another has every rule before a position that the other has there. -/
theorem Extends.standsBefore (h : Extends t t') (hr : t.StandsBefore path r) :
    t'.StandsBefore path r := by
  obtain ⟨other, hother, hr⟩ := hr
  exact ⟨other, hother, h other r hr⟩

/-- Above a position below the root come the rule of the root and the rules above it in the child. -/
theorem rulesAbove_cons {i : Nat} {child : Tree} (hroot : t.rule? = some r)
    (hchild : t.child? i = some child) : t.rulesAbove (i :: path) = r :: child.rulesAbove path := by
  have hne : path.inits.map (i :: ·) ≠ [] := by cases path <;> simp
  have hbelow : t.ruleAtPath? ∘ (i :: ·) = child.ruleAtPath? := by
    funext rest
    simp [hchild]
  rw [rulesAbove, List.inits_cons, List.dropLast_cons_of_ne_nil hne, ← List.map_dropLast,
    List.filterMap_cons_some (f := t.ruleAtPath?) (a := []) hroot, List.filterMap_map, hbelow,
    rulesAbove]

end Tree

/-! ### Around an open place -/

namespace Frame

variable {f : Frame} {i : Nat}

/-- The other children are the same whatever is filled in. -/
theorem child?_plug_of_ne (hi : i ≠ f.index) : (f.plug t).child? i = (f.plug t').child? i := by
  cases i with
  | zero => rfl
  | succ i =>
    have hne : i ≠ f.left.length := fun h => hi (congrArg (· + 1) h)
    simp only [plug, Tree.child?, Tree.children, List.getElem?_append, List.getElem?_cons]
    split
    · rfl
    · rw [if_neg (by omega), if_neg (by omega)]

/-- The children before the open place are those to the left of it. -/
theorem exists_child_left_iff {p : Tree → Prop} :
    (∃ i child, i < f.index ∧ (f.plug t).child? i = some child ∧ p child) ↔
      ∃ child ∈ f.left, p child := by
  have hleft : ∀ i < f.left.length, (f.plug t).child? (i + 1) = f.left[i]? := by
    intro i hi
    rw [plug, Tree.child?, Tree.children, List.getElem?_append_left hi]
  constructor
  · rintro ⟨_ | i, child, hi, hchild, hp⟩
    · cases hchild
    · rw [hleft i (Nat.lt_of_succ_lt_succ hi)] at hchild
      exact ⟨child, List.mem_of_getElem? hchild, hp⟩
  · rintro ⟨child, hmem, hp⟩
    obtain ⟨i, hi⟩ := List.mem_iff_getElem?.mp hmem
    have hlt := (List.getElem?_eq_some_iff.mp hi).1
    exact ⟨i + 1, child, Nat.succ_lt_succ hlt, (hleft i hlt).trans hi, hp⟩

/-- The way into a frame starts with the rule of the frame. -/
theorem ruleSequence_plug (f : Frame) (t : Tree) (path : Path) :
    (f.plug t).ruleSequence (f.index :: path) = f.rule :: t.ruleSequence path := by
  have hchild := f.child?_plug t
  rw [plug] at hchild ⊢
  simp [Tree.ruleSequence, Tree.rule?, hchild]

/-- To the left of a path into a frame are its rule, the rules of the children on the left, and those to
the left in the tree that is plugged in. -/
theorem leftRules_plug (f : Frame) (t : Tree) (path : Path) :
    (f.plug t).leftRules (f.index :: path) =
      f.rule :: Tree.preorderRulesOfAll f.left ++ t.leftRules path := by
  have hchild := f.child?_plug t
  rw [plug] at hchild ⊢
  have hleft : (f.left ++ t :: f.right).take (f.index - 1) = f.left := by
    rw [index, Nat.add_sub_cancel, List.take_left]
  simp [Tree.leftRules, hchild, hleft]

end Frame

namespace Context

/-- The rules on the way to the open place, each with those in the subtrees to the left. -/
def rulesBefore : Context → List RuleId
  | [] => []
  | f :: rest => f.rule :: Tree.preorderRulesOfAll f.left ++ rulesBefore rest

variable {ctx : Context}

/-- At the open place stands the rule of what was filled in. -/
theorem ruleAtPath?_plug_path (ctx : Context) (t : Tree) :
    (ctx.plug t).ruleAtPath? ctx.path = t.rule? := by
  induction ctx with
  | nil => rfl
  | cons f rest ih => simp [plug, Frame.child?_plug, ih]

/-- Above the open place stand the rules on the way to it. -/
theorem rulesAbove_plug (ctx : Context) (t : Tree) :
    (ctx.plug t).rulesAbove ctx.path = ctx.map Frame.rule := by
  induction ctx with
  | nil => rfl
  | cons f rest ih =>
    rw [path_cons, plug, Tree.rulesAbove_cons rfl (f.child?_plug _), ih, List.map_cons]

/-- Before the open place stand the rules on the way to it and those to the left. -/
theorem standsBefore_plug : (ctx.plug t).StandsBefore ctx.path r ↔ r ∈ ctx.rulesBefore := by
  induction ctx with
  | nil => simp [Tree.StandsBefore, path, rulesBefore]
  | cons f rest ih =>
    rw [rulesBefore, List.mem_append, List.mem_cons, Tree.mem_preorderRulesOfAll, ← ih,
      ← f.exists_child_left_iff (t := plug rest t), path_cons, plug]
    constructor
    · rintro ⟨_ | ⟨i, other⟩, hlt, hother⟩
      · exact .inl (.inl (Option.some.inj hother).symm)
      · rw [Tree.ruleAtPath?_cons] at hother
        obtain ⟨child, hchild, hother⟩ := Option.bind_eq_some_iff.mp hother
        rcases List.cons_lt_cons_iff.mp hlt with hi | ⟨rfl, hbelow⟩
        · exact .inl (.inr ⟨i, child, hi, hchild, other, hother⟩)
        · rw [f.child?_plug] at hchild
          obtain rfl := Option.some.inj hchild
          exact .inr ⟨other, hbelow, hother⟩
    · rintro ((rfl | ⟨i, child, hi, hchild, other, hother⟩) | ⟨other, hlt, hother⟩)
      · exact ⟨[], List.nil_lt_cons _ _, rfl⟩
      · exact ⟨i :: other, List.cons_lt_cons_iff.mpr (.inl hi), by simp [hchild, hother]⟩
      · exact ⟨f.index :: other, List.cons_lt_cons_iff.mpr (.inr ⟨rfl, hlt⟩),
          by simp [f.child?_plug, hother]⟩

/-- The walk to the parent of the open place meets the rules on the way. -/
theorem ruleSequence_plug (f : Frame) (rest : Context) (t : Tree) :
    (plug (f :: rest) t).ruleSequence (Context.path (f :: rest)).dropLast =
      (f :: rest).map Frame.rule := by
  induction rest generalizing f with
  | nil => rfl
  | cons f' rest ih =>
    rw [path_cons, List.dropLast_cons_of_ne_nil (by simp), plug, Frame.ruleSequence_plug, ih f']
    rfl

/-- The ancestors of the open place are the rules on the way to it. -/
theorem ancestors_plug (ctx : Context) (t : Tree) :
    (ctx.plug t).ancestors ctx.path = ctx.map Frame.rule := by
  cases ctx with
  | nil => rfl
  | cons f rest =>
    rw [← ruleSequence_plug f rest t]
    rfl

/-- The walk to the left of the open place collects the rules before it and those filled in. -/
theorem leftRules_plug (ctx : Context) (t : Tree) :
    (ctx.plug t).leftRules ctx.path = ctx.rulesBefore ++ t.preorderRules := by
  induction ctx with
  | nil => rfl
  | cons f rest ih => rw [path_cons, plug, rulesBefore, Frame.leftRules_plug, ih, List.append_assoc]

/-- Filling the open place with more extends the tree. -/
theorem extends_plug (h : Tree.Extends t t') (ctx : Context) :
    Tree.Extends (ctx.plug t) (ctx.plug t') := by
  induction ctx with
  | nil => exact h
  | cons f rest ih =>
    rintro (_ | ⟨i, path⟩) r hr
    · exact hr
    · rw [plug, Tree.ruleAtPath?_cons] at hr ⊢
      by_cases hi : i = f.index
      · subst hi
        rw [Frame.child?_plug] at hr ⊢
        exact ih path r hr
      · rwa [Frame.child?_plug_of_ne hi] at hr

/-- A node of a filled context is one of the context around a hole or one that was filled in. -/
theorem ruleAtPath?_plug (hole : Hole) (hr : (ctx.plug t).ruleAtPath? path = some r) :
    (ctx.plug (.hole hole)).ruleAtPath? path = some r ∨
      ∃ rest, path = ctx.path ++ rest ∧ t.ruleAtPath? rest = some r := by
  induction ctx generalizing path with
  | nil => exact .inr ⟨path, rfl, hr⟩
  | cons f rest ih =>
    cases path with
    | nil => exact .inl hr
    | cons i path =>
      rw [plug, Tree.ruleAtPath?_cons] at hr ⊢
      by_cases hi : i = f.index
      · subst hi
        rw [Frame.child?_plug] at hr ⊢
        rcases ih hr with hhole | ⟨below, rfl, hbelow⟩
        · exact .inl hhole
        · exact .inr ⟨below, rfl, hbelow⟩
      · rw [Frame.child?_plug_of_ne hi] at hr
        exact .inl hr

end Context

end TypedGrammar
