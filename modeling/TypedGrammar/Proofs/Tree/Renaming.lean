import TypedGrammar.Proofs.SetComparison
import TypedGrammar.Proofs.Tree.LeftRules

/-!
# Renaming the rules of a tree

A renaming of rules changes the nodes of a tree and the candidates of its holes. It leaves the shape of
the tree alone, so every walk over the renamed tree meets the renamed rules, in the same order. A walk
meets no rule that the tree does not mention.
-/

namespace TypedGrammar

variable {f : RuleId → RuleId} {r : RuleId} {i : Nat}

/-! ### Sets -/

/-- The number of the renamed rule; 0 numbers no rule and stays. -/
def RuleId.mapNumber (f : RuleId → RuleId) : Nat → Nat
  | 0 => 0
  | n + 1 => (f ⟨n⟩).number

namespace BitSet

variable {s : BitSet} {rules : List RuleId}

/-- The set of the renamed rules. -/
def mapRules (f : RuleId → RuleId) (s : BitSet) : BitSet := .ofList (s.members.map (RuleId.mapNumber f))

/-- The rules in a renamed set are the renamed ones. -/
theorem contains_mapRules : (s.mapRules f).contains i = true ↔
    ∃ j, s.contains j = true ∧ RuleId.mapNumber f j = i := by
  simp [mapRules, contains_ofList, mem_members]

/-- Bit 0 stands for no rule and stays. -/
theorem contains_zero_mapRules : (s.mapRules f).contains 0 = s.contains 0 := by
  refine Bool.eq_iff_iff.mpr (contains_mapRules.trans ?_)
  constructor
  · intro h
    obtain ⟨j, hj, hzero⟩ := h
    cases j with
    | zero => exact hj
    | succ n => cases hzero
  · intro h
    exact ⟨0, h, rfl⟩

/-- A renamed set has the renamed rules. -/
theorem containsRule_mapRules : (s.mapRules f).containsRule r = true ↔
    ∃ former, s.containsRule former = true ∧ f former = r := by
  rw [containsRule, contains_mapRules]
  constructor
  · intro h
    obtain ⟨j, hj, hr⟩ := h
    cases j with
    | zero => cases hr
    | succ n => exact ⟨⟨n⟩, hj, RuleId.number_inj.mp hr⟩
  · intro h
    obtain ⟨former, hformer, rfl⟩ := h
    exact ⟨former.number, hformer, rfl⟩

end BitSet

/-! ### Trees -/

/-- The hole with its candidates renamed. -/
def Hole.mapRules (f : RuleId → RuleId) (h : Hole) : Hole := ⟨h.domain.mapRules f, h.kind⟩

namespace Tree

variable {t : Tree} {path : Path}

mutual

/-- The tree with its rules renamed, in the nodes and in the domains of the holes. -/
def mapRules (f : RuleId → RuleId) : Tree → Tree
  | apply rule children => apply (f rule) (mapRulesOfAll f children)
  | immediate rule value => immediate (f rule) value
  | hole h => hole (h.mapRules f)

/-- Several trees with their rules renamed. -/
def mapRulesOfAll (f : RuleId → RuleId) : List Tree → List Tree
  | [] => []
  | t :: rest => mapRules f t :: mapRulesOfAll f rest

end

mutual

/-- The rules that a tree mentions, in its nodes and in the domains of its holes. -/
def mentionedRules : Tree → List RuleId
  | apply rule children => rule :: mentionedRulesOfAll children
  | immediate rule _ => [rule]
  | hole h => h.domain.rules

/-- The rules that several trees mention. -/
def mentionedRulesOfAll : List Tree → List RuleId
  | [] => []
  | t :: rest => mentionedRules t ++ mentionedRulesOfAll rest

end

/-- Several trees are renamed each by itself. -/
theorem mapRulesOfAll_eq (f : RuleId → RuleId) (trees : List Tree) :
    mapRulesOfAll f trees = trees.map (mapRules f) := by
  induction trees with
  | nil => rfl
  | cons t rest ih => rw [mapRulesOfAll, ih, List.map_cons]

/-- Several trees mention the rules that one of them mentions. -/
theorem mem_mentionedRulesOfAll {trees : List Tree} :
    r ∈ mentionedRulesOfAll trees ↔ ∃ t ∈ trees, r ∈ t.mentionedRules := by
  induction trees with
  | nil => simp [mentionedRulesOfAll]
  | cons t rest ih => simp [mentionedRulesOfAll, ih]

/-- The rule of a renamed tree is the renamed one. -/
@[simp] theorem rule?_mapRules (f : RuleId → RuleId) (t : Tree) :
    (t.mapRules f).rule? = t.rule?.map f := by
  cases t <;> simp [mapRules, rule?]

/-- The children of a renamed tree are the renamed ones. -/
@[simp] theorem children_mapRules (f : RuleId → RuleId) (t : Tree) :
    (t.mapRules f).children = t.children.map (mapRules f) := by
  cases t with
  | apply rule trees => exact mapRulesOfAll_eq f trees
  | immediate rule value => rfl
  | hole h => rfl

/-- A child of a renamed tree is the renamed one. -/
@[simp] theorem child?_mapRules (f : RuleId → RuleId) (t : Tree) (i : Nat) :
    (t.mapRules f).child? i = (t.child? i).map (mapRules f) := by
  cases i with
  | zero => rfl
  | succ i => rw [child?, children_mapRules, List.getElem?_map, child?]

/-! ### Walks over a renamed tree -/

mutual

/-- The rules of a renamed tree in pre-order are the renamed ones. -/
theorem preorderRules_mapRules (f : RuleId → RuleId) : ∀ t : Tree,
    (t.mapRules f).preorderRules = t.preorderRules.map f
  | .apply rule children => by
    rw [mapRules, preorderRules, preorderRulesOfAll_mapRules f children, preorderRules, List.map_cons]
  | .immediate rule value => rfl
  | .hole h => rfl

/-- The rules of renamed trees in pre-order are the renamed ones. -/
theorem preorderRulesOfAll_mapRules (f : RuleId → RuleId) : ∀ trees : List Tree,
    preorderRulesOfAll (mapRulesOfAll f trees) = (preorderRulesOfAll trees).map f
  | [] => rfl
  | t :: rest => by
    rw [mapRulesOfAll, preorderRulesOfAll, preorderRules_mapRules f t,
      preorderRulesOfAll_mapRules f rest, preorderRulesOfAll, List.map_append]

end

/-- The rules on a way through a renamed tree are the renamed ones. -/
theorem ruleSequence_mapRules (f : RuleId → RuleId) (t : Tree) (path : Path) :
    (t.mapRules f).ruleSequence path = (t.ruleSequence path).map f := by
  induction path generalizing t with
  | nil => cases t <;> rfl
  | cons i rest ih =>
    rw [ruleSequence, ruleSequence, rule?_mapRules, child?_mapRules]
    cases t.rule? with
    | none => rfl
    | some rule =>
      cases t.child? i with
      | none => rfl
      | some child => simp [ih]

/-- Above a place in a renamed tree are the renamed rules. -/
theorem ancestors_mapRules (f : RuleId → RuleId) (t : Tree) (path : Path) :
    (t.mapRules f).ancestors path = (t.ancestors path).map f := by
  rw [ancestors, ancestors]
  split
  · rfl
  · exact ruleSequence_mapRules f t path.dropLast

/-- So are those to the left of it. -/
theorem leftRules_mapRules (f : RuleId → RuleId) (t : Tree) (path : Path) :
    (t.mapRules f).leftRules path = (t.leftRules path).map f := by
  induction path generalizing t with
  | nil => exact preorderRules_mapRules f t
  | cons i rest ih =>
    cases t with
    | apply rule children =>
      have hchild := child?_mapRules f (apply rule children) i
      rw [mapRules] at hchild ⊢
      rw [leftRules, leftRules, hchild, mapRulesOfAll_eq, ← List.map_take, ← mapRulesOfAll_eq,
        preorderRulesOfAll_mapRules, List.map_append, List.map_cons]
      congr 1
      cases (apply rule children).child? i with
      | none => rfl
      | some child => exact ih child
    | immediate rule value => rfl
    | hole h => rfl

/-! ### Rules that are mentioned -/

mutual

/-- The rules at the nodes of a tree are mentioned. -/
theorem mem_mentionedRules_of_preorder : ∀ t : Tree, r ∈ t.preorderRules → r ∈ t.mentionedRules
  | .apply rule children => by
    intro hr
    rw [preorderRules, List.mem_cons] at hr
    rw [mentionedRules, List.mem_cons]
    exact hr.imp_right (mem_mentionedRulesOfAll_of_preorder children)
  | .immediate rule value => id
  | .hole h => nofun

/-- The rules of several trees are mentioned in them. -/
theorem mem_mentionedRulesOfAll_of_preorder : ∀ trees : List Tree,
    r ∈ preorderRulesOfAll trees → r ∈ mentionedRulesOfAll trees
  | [] => id
  | t :: rest => by
    intro hr
    rw [preorderRulesOfAll, List.mem_append] at hr
    rw [mentionedRulesOfAll, List.mem_append]
    exact hr.imp (mem_mentionedRules_of_preorder t) (mem_mentionedRulesOfAll_of_preorder rest)

end

/-- What is mentioned in a child is mentioned in the tree. -/
theorem mem_mentionedRules_of_child {child : Tree} (hchild : t.child? i = some child)
    (hr : r ∈ child.mentionedRules) : r ∈ t.mentionedRules := by
  have hmem : child ∈ t.children := mem_children_iff.mpr ⟨i, hchild⟩
  cases t with
  | apply rule children =>
    exact List.mem_cons_of_mem rule (mem_mentionedRulesOfAll.mpr ⟨child, hmem, hr⟩)
  | immediate rule value => cases hmem
  | hole h => cases hmem

/-- The rule of the root is mentioned. -/
theorem mem_mentionedRules_of_rule? (hr : t.rule? = some r) : r ∈ t.mentionedRules := by
  cases t with
  | apply rule children =>
    cases hr
    exact List.mem_cons_self
  | immediate rule value =>
    cases hr
    exact List.mem_singleton_self r
  | hole h => cases hr

/-- The walk along a path meets rules that are mentioned. -/
theorem mem_mentionedRules_of_ruleSequence (hr : r ∈ t.ruleSequence path) :
    r ∈ t.mentionedRules := by
  induction path generalizing t with
  | nil => exact mem_mentionedRules_of_rule? (by simpa [ruleSequence] using hr)
  | cons i rest ih =>
    rw [ruleSequence] at hr
    split at hr
    · cases hr
    · rename_i rule hrule
      cases hr with
      | head => exact mem_mentionedRules_of_rule? hrule
      | tail _ hbelow =>
        split at hbelow
        · rename_i child hchild
          exact mem_mentionedRules_of_child hchild (ih hbelow)
        · cases hbelow

/-- The rules above a path are mentioned in the tree. -/
theorem mem_mentionedRules_of_ancestors (hr : r ∈ t.ancestors path) : r ∈ t.mentionedRules := by
  rw [ancestors] at hr
  split at hr
  · cases hr
  · exact mem_mentionedRules_of_ruleSequence hr

/-- The walk to the left of a path meets rules that are mentioned. -/
theorem mem_mentionedRules_of_leftRules (hr : r ∈ t.leftRules path) : r ∈ t.mentionedRules := by
  obtain ⟨other, -, hrule⟩ := mem_leftRules_iff.mp hr
  exact mem_mentionedRules_of_preorder t ((mem_preorderRules t).mpr ⟨other, hrule⟩)

end Tree

/-! ### Around an open place -/

/-- The frame with its rules renamed. -/
def Frame.mapRules (f : RuleId → RuleId) (frame : Frame) : Frame :=
  ⟨f frame.rule, frame.left.map (Tree.mapRules f), frame.right.map (Tree.mapRules f)⟩

namespace Context

variable {ctx : Context} {t : Tree}

/-- The context with its rules renamed. -/
def mapRules (f : RuleId → RuleId) (ctx : Context) : Context := ctx.map (Frame.mapRules f)

/-- Renaming keeps the open place where it is. -/
theorem path_mapRules (f : RuleId → RuleId) (ctx : Context) : (ctx.mapRules f).path = ctx.path := by
  rw [path, mapRules, List.map_map, path]
  refine List.map_congr_left fun frame _ => ?_
  simp [Frame.index, Frame.mapRules]

/-- A renamed tree in a renamed context is the renamed whole. -/
theorem mapRules_plug (f : RuleId → RuleId) (ctx : Context) (t : Tree) :
    (ctx.plug t).mapRules f = (ctx.mapRules f).plug (t.mapRules f) := by
  induction ctx with
  | nil => rfl
  | cons frame rest ih =>
    rw [plug, Frame.plug, Tree.mapRules, Tree.mapRulesOfAll_eq, List.map_append, List.map_cons, ih]
    rfl

/-- What is mentioned at the open place is mentioned in the whole. -/
theorem mem_mentionedRules_plug (ctx : Context) (hr : r ∈ t.mentionedRules) :
    r ∈ (ctx.plug t).mentionedRules := by
  induction ctx with
  | nil => exact hr
  | cons frame rest ih => exact Tree.mem_mentionedRules_of_child (frame.child?_plug _) ih

end Context

end TypedGrammar
