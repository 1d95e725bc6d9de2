import TypedGrammar.Proofs.Tree.Positions

/-!
# Where two trees differ first

Two trees are compared by the rules at their positions, in pre-order. They differ first at one position
at most. Nodes of different rules differ at once, and nodes of the same rule differ first where the
first children that differ do.
-/

namespace TypedGrammar.Tree

variable {t u : Tree} {path path' : Path} {r r' s s' : RuleId}

/-- The trees apply different rules at the path, and the same ones at all positions before it in
pre-order. -/
structure DiffersFirst (t u : Tree) (path : Path) (r s : RuleId) : Prop where
  left : t.ruleAtPath? path = some r
  right : u.ruleAtPath? path = some s
  ne : r ≠ s
  before : ∀ other : Path, other < path → t.ruleAtPath? other = u.ruleAtPath? other

/-- Trees do not differ before they differ first. -/
theorem DiffersFirst.not_lt (h : DiffersFirst t u path r s) (h' : DiffersFirst t u path' r' s') :
    ¬ path < path' := by
  intro hlt
  have hsame := h'.before path hlt
  rw [h.left, h.right] at hsame
  exact h.ne (Option.some.inj hsame)

/-- There is one position where trees differ first. -/
theorem DiffersFirst.unique (h : DiffersFirst t u path r s) (h' : DiffersFirst t u path' r' s') :
    path = path' ∧ r = r' ∧ s = s' := by
  obtain rfl : path = path' :=
    List.le_antisymm (List.not_lt.mp (h'.not_lt h)) (List.not_lt.mp (h.not_lt h'))
  exact ⟨rfl, Option.some.inj (h.left.symm.trans h'.left),
    Option.some.inj (h.right.symm.trans h'.right)⟩

/-- Trees with different rules at their roots differ there first. -/
theorem DiffersFirst.root (hleft : t.rule? = some r) (hright : u.rule? = some s) (hne : r ≠ s) :
    DiffersFirst t u [] r s where
  left := hleft
  right := hright
  ne := hne
  before other hlt := absurd hlt (List.not_lt_nil other)

/-- The child behind the first ones. -/
theorem child?_apply_append (x : RuleId) (left right : List Tree) (t : Tree) :
    (Tree.apply x (left ++ t :: right)).child? (left.length + 1) = some t :=
  (⟨x, left, right⟩ : Frame).child?_plug t

/-- Where nodes of one rule have the same first children, they differ first in the next child. -/
theorem DiffersFirst.child (h : DiffersFirst t u path r s) (x : RuleId) (left right right' : List Tree) :
    DiffersFirst (.apply x (left ++ t :: right)) (.apply x (left ++ u :: right'))
      ((left.length + 1) :: path) r s where
  left := by
    rw [ruleAtPath?_cons, child?_apply_append, Option.bind_some, h.left]
  right := by
    rw [ruleAtPath?_cons, child?_apply_append, Option.bind_some, h.right]
  ne := h.ne
  before other hlt := by
    cases other with
    | nil => rfl
    | cons j rest =>
      rw [ruleAtPath?_cons, ruleAtPath?_cons]
      rcases List.cons_lt_cons_iff.mp hlt with hearlier | ⟨rfl, hrest⟩
      · have hsame : (Tree.apply x (left ++ t :: right)).child? j =
            (Tree.apply x (left ++ u :: right')).child? j := by
          cases j with
          | zero => rfl
          | succ j =>
            have hj : j < left.length := Nat.lt_of_succ_lt_succ hearlier
            simp only [child?, children, List.getElem?_append_left hj]
        rw [hsame]
      · rw [child?_apply_append, child?_apply_append, Option.bind_some, Option.bind_some,
          h.before rest hrest]

end TypedGrammar.Tree
