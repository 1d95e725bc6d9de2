import TypedGrammar.Derivation.Expression
import TypedGrammar.Proofs.Tree.HoleOrder

/-!
# Which trees are the same

Two trees are the same when neither has a hole and they are built alike. This can be seen node by node:
at every path both have a filled node with the same label, or neither has a node. A tree with a hole is
not the same as itself, so that this is no equivalence; but it is symmetric and transitive, and whatever
is asked about a tree has the same answer for a tree that is the same.
-/

namespace TypedGrammar.Tree

variable {a b c t t' : Tree} {path : Path}

/-- What a node is apart from the trees below it. -/
inductive Label where
  /-- A rule with the number of its children. -/
  | apply (rule : RuleId) (childCount : Nat)
  /-- A rule with a literal. -/
  | immediate (rule : RuleId) (value : Value)
  /-- A hole, whatever its domain. -/
  | hole

/-- The label of the root. -/
def label : Tree → Label
  | apply r children => .apply r children.length
  | immediate r value => .immediate r value
  | hole _ => .hole

/-- The label of the node at a path, if there is one. -/
def labelAt? (t : Tree) (path : Path) : Option Label := (t.subtree? path).map label

/-- The trees have nodes at the same paths, with the same labels, and none of them is a hole. -/
def BuiltAlike (a b : Tree) : Prop :=
  ∀ path, a.labelAt? path = b.labelAt? path ∧ a.labelAt? path ≠ some .hole

/-- At the empty path stands the label of the root. -/
@[simp] theorem labelAt?_nil (t : Tree) : t.labelAt? [] = some t.label := rfl

/-- Below a child stands what stands in it at the rest of the path. -/
theorem labelAt?_cons (t : Tree) (i : Nat) (path : Path) :
    t.labelAt? (i :: path) = (t.child? i).bind fun child => child.labelAt? path :=
  Option.map_bind

/-! ### Built alike -/

/-- What is below the same child of trees that are built alike is built alike. -/
theorem BuiltAlike.child {i : Nat} (h : BuiltAlike a b) (ha : a.child? i = some t)
    (hb : b.child? i = some t') : BuiltAlike t t' := by
  intro path
  have hpath := h (i :: path)
  rwa [labelAt?_cons, labelAt?_cons, ha, hb, Option.bind_some, Option.bind_some] at hpath

mutual

/-- Trees that are built alike are equal. -/
theorem BuiltAlike.eq : ∀ {a b : Tree}, BuiltAlike a b → a = b
  | .apply r children, b, h => by
    obtain ⟨hlabel, -⟩ := h []
    cases b with
    | apply r' children' =>
      obtain ⟨rfl, hlength⟩ := Label.apply.inj (Option.some.inj hlabel)
      rw [eq_of_builtAlike children children' hlength fun i t t' ht ht' =>
        h.child (show (apply r children).child? (i + 1) = some t from ht) ht']
    | immediate r' value => cases hlabel
    | hole hole => cases hlabel
  | .immediate r value, b, h => by
    obtain ⟨hlabel, -⟩ := h []
    cases b with
    | apply r' children' => cases hlabel
    | immediate r' value' =>
      obtain ⟨rfl, rfl⟩ := Label.immediate.inj (Option.some.inj hlabel)
      rfl
    | hole hole => cases hlabel
  | .hole _, _, h => absurd rfl (h []).2

/-- As many trees that are built alike in pairs are equal. -/
theorem eq_of_builtAlike : ∀ (as bs : List Tree), as.length = bs.length →
    (∀ (i : Nat) a b, as[i]? = some a → bs[i]? = some b → BuiltAlike a b) → as = bs
  | [], [], _, _ => rfl
  | a :: as, b :: bs, hlength, h => by
    rw [(h 0 a b rfl rfl).eq, eq_of_builtAlike as bs (Nat.succ.inj hlength) fun i t t' ht ht' =>
      h (i + 1) t t' ht ht']

end

/-- A tree has no hole when there is none at any path. -/
theorem containsHole_eq_false_iff : t.containsHole = false ↔ ∀ path, t.labelAt? path ≠ some .hole := by
  rw [← holePositions_eq_nil_iff, List.eq_nil_iff_forall_not_mem]
  refine forall_congr' fun path => not_congr ?_
  rw [mem_holePositions, labelAt?, Option.map_eq_some_iff]
  constructor
  · intro h
    obtain ⟨hole, hnode⟩ := h
    exact ⟨.hole hole, hnode, rfl⟩
  · intro h
    obtain ⟨node, hnode, hlabel⟩ := h
    cases node with
    | apply r children => cases hlabel
    | immediate r value => cases hlabel
    | hole hole => exact ⟨hole, hnode⟩

/-- Trees are built alike when the first has no hole and the second is equal to it. -/
theorem builtAlike_iff : BuiltAlike a b ↔ a.containsHole = false ∧ a = b := by
  rw [containsHole_eq_false_iff]
  constructor
  · intro h
    exact ⟨fun path => (h path).2, h.eq⟩
  · intro h
    obtain ⟨hfilled, rfl⟩ := h
    exact fun path => ⟨rfl, hfilled path⟩

/-! ### The test -/

mutual

/-- The test finds out whether the first tree has no hole and the second is equal to it. -/
theorem same_iff_eq : ∀ a b : Tree, a.same b = true ↔ a.containsHole = false ∧ a = b
  | .apply r children, .apply r' children' => by
    rw [same, containsHole, Bool.and_eq_true, decide_eq_true_iff, allSame_iff_eq children children',
      apply.injEq, and_left_comm]
  | .immediate r value, .immediate r' value' => by simp [same, containsHole]
  | .hole _, _ => by simp [same, containsHole]
  | .apply _ _, .immediate _ _ => by simp [same]
  | .apply _ _, .hole _ => by simp [same]
  | .immediate _ _, .apply _ _ => by simp [same]
  | .immediate _ _, .hole _ => by simp [same]

/-- The same for lists of trees. -/
theorem allSame_iff_eq : ∀ as bs : List Tree,
    allSame as bs = true ↔ anyContainsHole as = false ∧ as = bs
  | [], [] => by simp [allSame, anyContainsHole]
  | [], _ :: _ => by simp [allSame]
  | _ :: _, [] => by simp [allSame]
  | a :: as, b :: bs => by
    rw [allSame, anyContainsHole, Bool.and_eq_true, Bool.or_eq_false_iff, same_iff_eq a b,
      allSame_iff_eq as bs, List.cons.injEq, and_and_and_comm]

end

/-- Trees that are told to be the same are equal. -/
theorem eq_of_same (h : a.same b = true) : a = b := ((same_iff_eq a b).mp h).2

/-- What the test says of two trees, and what follows where it says that they are the same. -/
structure IdentifiesBuilt (a b : Tree) : Prop where
  /-- The trees are the same when neither has a hole and they are equal, with literals told apart by their
  bits. -/
  same_iff : a.same b = true ↔ a.containsHole = false ∧ b.containsHole = false ∧ a = b
  /-- Seen node by node, they have the same labels at the same paths, and no hole. -/
  same_iff_builtAlike : a.same b = true ↔ BuiltAlike a b
  symm : a.same b = true → b.same a = true
  trans : ∀ c, a.same b = true → b.same c = true → a.same c = true
  /-- A tree is the same as itself when it has no hole. -/
  self_iff : a.same a = true ↔ a.containsHole = false
  size_eq : a.same b = true → a.size = b.size
  depth_eq : a.same b = true → a.depth = b.depth
  text_eq : a.same b = true → a.text = b.text
  rules_eq : a.same b = true → a.rules = b.rules
  ruleSequence_eq : a.same b = true → ∀ path, a.ruleSequence path = b.ruleSequence path
  toExpression_eq : a.same b = true → ∀ g : Grammar, g.toExpression a = g.toExpression b

/-- For all trees the test identifies those that are built alike without a hole. -/
theorem identifies_built (a b : Tree) : IdentifiesBuilt a b where
  same_iff := by
    rw [same_iff_eq]
    constructor
    · intro h
      obtain ⟨hfilled, rfl⟩ := h
      exact ⟨hfilled, hfilled, rfl⟩
    · intro h
      exact ⟨h.1, h.2.2⟩
  same_iff_builtAlike := by rw [same_iff_eq, builtAlike_iff]
  symm h := by
    obtain rfl := eq_of_same h
    exact h
  trans c h h' := by
    obtain rfl := eq_of_same h
    exact h'
  self_iff := by rw [same_iff_eq, and_iff_left rfl]
  size_eq h := congrArg size (eq_of_same h)
  depth_eq h := congrArg depth (eq_of_same h)
  text_eq h := congrArg text (eq_of_same h)
  rules_eq h := congrArg rules (eq_of_same h)
  ruleSequence_eq h path := congrArg (ruleSequence · path) (eq_of_same h)
  toExpression_eq h g := congrArg g.toExpression (eq_of_same h)

end TypedGrammar.Tree
