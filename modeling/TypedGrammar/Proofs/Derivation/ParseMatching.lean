import TypedGrammar.Proofs.Derivation.ParseCompleteness
import TypedGrammar.Proofs.Tree.Positions

/-!
# Derivations that match an expression

`Fits` says node by node when a complete derivation matches an expression. The bodies of its rules take
the expression apart, and a rule that is a bare place passes it on whole. Such unit rules can lead back
to a type on the same expression, and nothing is gained by that; a derivation is `Acyclic` when no type
comes twice along a chain of unit rules. What a search finds matches the expression and is acyclic.
-/

namespace TypedGrammar.Grammar

variable {g : Grammar} {r : RuleId} {rule : Rule} {type : String} {e : Expr} {t : Tree}
  {visiting : List String} {children : List Tree}

/-! ### Matching -/

mutual

/-- The tree is a complete derivation of the type and matches the expression. -/
inductive Fits (g : Grammar) : String → Expr → Tree → Prop
  /-- The body of an ordinary rule matches, with the children in its places. -/
  | apply {r : RuleId} {rule : Rule} {e : Expr} {children : List Tree}
      (hr : g.ruleAt? r = some rule) (hordinary : rule.immediate = false)
      (h : FitsBody g rule.body e children) : Fits g rule.type e (.apply r children)
  /-- An immediate rule matches any literal. -/
  | immediate {r : RuleId} {rule : Rule} (hr : g.ruleAt? r = some rule)
      (himmediate : rule.immediate = true) (value : Value) :
      Fits g rule.type (.lit value) (.immediate r value)

/-- The body matches the expression, with the trees in its places. -/
inductive FitsBody (g : Grammar) : Expr → Expr → List Tree → Prop
  | lit (value : Value) : FitsBody g (.lit value) (.lit value) []
  /-- A place matches what a derivation of its type does. -/
  | place {name : String} {e : Expr} {t : Tree} (htype : g.hasType name = true)
      (h : Fits g name e t) : FitsBody g (.sym name) e [t]
  /-- Another symbol matches itself. -/
  | symbol {name : String} (htype : g.hasType name = false) :
      FitsBody g (.sym name) (.sym name) []
  /-- The name of a constant matches its literal as well. -/
  | constant {name : String} {value : Value} (htype : g.hasType name = false)
      (hvalue : g.symbols.constant name = some value) : FitsBody g (.sym name) (.lit value) []
  /-- A call matches argument by argument. -/
  | call (op : String) {args others : List Expr} {children : List Tree}
      (h : FitsArgs g args others children) :
      FitsBody g (.call op args) (.call op others) children

/-- The arguments match the expressions, with the trees in their places. -/
inductive FitsArgs (g : Grammar) : List Expr → List Expr → List Tree → Prop
  | nil : FitsArgs g [] [] []
  | cons {arg e : Expr} {rest others : List Expr} {children later : List Tree}
      (harg : FitsBody g arg e children) (hrest : FitsArgs g rest others later) :
      FitsArgs g (arg :: rest) (e :: others) (children ++ later)

end

mutual

/-- A derivation that matches an expression is complete. -/
theorem Fits.complete (hg : Consistent g) : ∀ {type : String} {e : Expr} {t : Tree},
    Fits g type e t → Complete g type t
  | _, _, _, .apply hr hordinary h => by
    refine .of_children hr hordinary ?_
    rw [hg.childTypes_eq_places hr hordinary]
    exact h.complete hg
  | _, _, _, .immediate hr himmediate value => .immediate hr himmediate value

/-- The trees in the places of a body are complete. -/
theorem FitsBody.complete (hg : Consistent g) : ∀ {body e : Expr} {children : List Tree},
    FitsBody g body e children → List.Forall₂ (Complete g) (g.places body) children
  | _, _, _, .lit _ => .nil
  | _, _, _, .place htype h => by
    rw [places_type htype]
    exact .cons (h.complete hg) .nil
  | _, _, _, .symbol htype => by
    rw [places_symbol htype]
    exact .nil
  | _, _, _, .constant htype _ => by
    rw [places_symbol htype]
    exact .nil
  | _, _, _, .call _ h => h.complete hg

/-- The trees in the places of arguments are complete. -/
theorem FitsArgs.complete (hg : Consistent g) : ∀ {args others : List Expr} {children : List Tree},
    FitsArgs g args others children → List.Forall₂ (Complete g) (g.placesOfArgs args) children
  | _, _, _, .nil => .nil
  | _, _, _, .cons harg hrest => by
    rw [placesOfArgs_cons]
    exact List.rel_append (harg.complete hg) (hrest.complete hg)

end

/-! ### Chains of unit rules -/

/-- Is the body a bare place? -/
def isPlace (g : Grammar) : Expr → Bool
  | .sym name => g.hasType name
  | _ => false

mutual

/-- The types along the chain of unit rules that starts at the root: those of its nodes, and that of the
node below the last of them. A search for this node's type is entered as well while the types above it
are being tried, all on the same expression, so the chain has to have the type. When it is one of those
above, the search is given up: such a cycle closes at the node below the last unit rule. -/
def unitChain (g : Grammar) : Tree → List String
  | .apply r children =>
    match g.ruleAt? r with
    | some rule => rule.type :: if g.isPlace rule.body then g.unitChainBelow children else []
    | none => []
  | .immediate r _ => ((g.ruleAt? r).map Rule.type).toList
  | .hole _ => []

/-- The types along the chain of unit rules that starts at the first child. -/
def unitChainBelow (g : Grammar) : List Tree → List String
  | [] => []
  | child :: _ => g.unitChain child

end

/-- Around a cycle of unit rules the chain comes back to its first type. -/
example : unitCycle.unitChain (.apply ⟨0⟩ [.apply ⟨2⟩ [.apply ⟨1⟩ []]]) = ["A", "B", "A"] := by cbv

/-- Along no chain of unit rules does a type come twice, that of the node at its end included. These are
the trees that a search can find, which gives up where a type comes up again that is being tried for the
same expression. -/
def Acyclic (g : Grammar) (t : Tree) : Prop :=
  ∀ path node, t.subtree? path = some node → (g.unitChain node).Nodup

/-- A body is a bare place when it is the name of a type. -/
theorem isPlace_iff {body : Expr} :
    g.isPlace body = true ↔ ∃ name, body = .sym name ∧ g.hasType name = true := by
  cases body <;> simp [isPlace]

/-- A bare place takes one tree. -/
theorem FitsBody.eq_singleton {body : Expr} (h : FitsBody g body e children)
    (hbody : g.isPlace body = true) : ∃ child, children = [child] := by
  obtain ⟨name, rfl, htype⟩ := isPlace_iff.mp hbody
  cases h with
  | place _ _ => exact ⟨_, rfl⟩
  | symbol hother => simp [htype] at hother
  | constant hother _ => simp [htype] at hother

/-- The type of the root is on its chain. -/
theorem mem_unitChain (hr : g.ruleAt? r = some rule) :
    rule.type ∈ g.unitChain (.apply r children) := by
  rw [unitChain, hr]
  exact List.mem_cons_self

/-- The chain of a unit rule goes on with that of its child. -/
theorem unitChain_unit (hr : g.ruleAt? r = some rule) (hbody : g.isPlace rule.body = true) :
    g.unitChain (.apply r [t]) = rule.type :: g.unitChain t := by
  rw [unitChain, hr]
  simp only [hbody, if_true, unitChainBelow]

/-- The chain of any other rule is its type. -/
theorem unitChain_apply (hr : g.ruleAt? r = some rule) (hbody : g.isPlace rule.body = false) :
    g.unitChain (.apply r children) = [rule.type] := by
  rw [unitChain, hr]
  simp [hbody]

/-- The chain of an immediate rule has its type only. -/
theorem unitChain_immediate (hr : g.ruleAt? r = some rule) (value : Value) :
    g.unitChain (.immediate r value) = [rule.type] := by
  rw [unitChain, hr]
  rfl

/-- The children of an acyclic tree are acyclic. -/
theorem Acyclic.of_mem (h : Acyclic g (.apply r children)) (hmem : t ∈ children) : Acyclic g t := by
  intro path node hnode
  have hchild : t ∈ (Tree.apply r children).children := hmem
  obtain ⟨i, hi⟩ := Tree.mem_children_iff.mp hchild
  refine h (i :: path) node ?_
  rw [Tree.subtree?, hi]
  exact hnode

/-- A tree whose children are acyclic is acyclic if its own chain is without repetition. -/
theorem Acyclic.of_children (hchain : (g.unitChain (.apply r children)).Nodup)
    (hchildren : ∀ t ∈ children, Acyclic g t) : Acyclic g (.apply r children) := by
  intro path node hnode
  cases path with
  | nil =>
    obtain rfl := Option.some.inj hnode
    exact hchain
  | cons i rest =>
    rw [Tree.subtree?] at hnode
    obtain ⟨child, hchild, hrest⟩ := Option.bind_eq_some_iff.mp hnode
    exact hchildren child (Tree.mem_children_iff.mpr ⟨i, hchild⟩) rest node hrest

/-- A tree of an immediate rule has no chain along which a type comes twice. -/
theorem acyclic_immediate (hr : g.ruleAt? r = some rule) (value : Value) :
    Acyclic g (.immediate r value) := by
  intro path node hnode
  cases path with
  | nil =>
    obtain rfl := Option.some.inj hnode
    rw [unitChain_immediate hr]
    exact List.nodup_singleton _
  | cons i rest => cases i <;> simp [Tree.subtree?, Tree.child?, Tree.children] at hnode

/-! ### What is found matches -/

section Search

variable {search : String → Expr → List String → Except Failure (Option Tree)}

mutual

/-- Trees that are found in the places of a body match, if what the search finds does. -/
theorem MatchedBy.fits
    (hsearch : ∀ type e visiting t, search type e visiting = .ok (some t) → Fits g type e t) :
    ∀ {body e : Expr} {visiting : List String} {children : List Tree},
      MatchedBy g search body e visiting children → FitsBody g body e children
  | _, _, _, _, .lit value _ => .lit value
  | _, _, _, _, .place htype h => .place htype (hsearch _ _ _ _ h)
  | _, _, _, _, .symbol htype _ => .symbol htype
  | _, _, _, _, .constant htype hvalue _ => .constant htype hvalue
  | _, _, _, _, .call op h _ => .call op (h.fits hsearch)

/-- The same for arguments. -/
theorem ArgsMatchedBy.fits
    (hsearch : ∀ type e visiting t, search type e visiting = .ok (some t) → Fits g type e t) :
    ∀ {args others : List Expr} {children : List Tree},
      ArgsMatchedBy g search args others children → FitsArgs g args others children
  | _, _, _, .nil => .nil
  | _, _, _, .cons harg hrest => .cons (harg.fits hsearch) (hrest.fits hsearch)

end

end Search

/-- A tree that is found matches the expression. -/
theorem Consistent.fits_of_matchType (hg : Consistent g) {fuel : Nat}
    (hfound : g.matchType fuel type e visiting = .ok (some t)) : Fits g type e t := by
  induction fuel generalizing type e visiting t with
  | zero => cases hfound
  | succ fuel ih =>
    obtain ⟨-, ⟨r, rule, children, hr, rfl, hordinary, hmatch, rfl⟩ |
      ⟨r, rule, value, hr, rfl, himmediate, rfl, rfl⟩⟩ := hg.of_searchBy hfound
    · exact .apply hr hordinary (hmatch.fits fun _ _ _ _ => ih)
    · exact .immediate hr himmediate value

/-- A tree that is found is acyclic, and its chain of unit rules avoids the types that are being tried. -/
theorem Consistent.acyclic_of_matchType (hg : Consistent g) {fuel : Nat}
    (hfound : g.matchType fuel type e visiting = .ok (some t)) :
    Acyclic g t ∧ (g.unitChain t).Disjoint visiting := by
  induction fuel generalizing type e visiting t with
  | zero => cases hfound
  | succ fuel ih =>
    obtain ⟨hfresh, ⟨r, rule, children, hr, rfl, hordinary, hmatch, rfl⟩ |
      ⟨r, rule, value, hr, rfl, himmediate, rfl, rfl⟩⟩ := hg.of_searchBy hfound
    · have hchildren : ∀ child ∈ children, Acyclic g child := by
        intro child hchild
        obtain ⟨s, -, hs⟩ := hmatch.exists_call child hchild
        exact (ih hs).1
      have hchain : (g.unitChain (.apply r children)).Nodup ∧
          (g.unitChain (.apply r children)).Disjoint visiting := by
        cases hbody : g.isPlace rule.body with
        | true =>
          obtain ⟨name, hname, htype⟩ := isPlace_iff.mp hbody
          rw [hname] at hmatch
          obtain ⟨child, rfl, hchild⟩ := hmatch.exists_child htype
          obtain ⟨hacyclic, havoids⟩ := ih hchild
          obtain ⟨hnew, hold⟩ := List.disjoint_cons_right.mp havoids
          rw [unitChain_unit hr hbody]
          exact ⟨List.nodup_cons.mpr ⟨hnew, hacyclic [] child rfl⟩,
            List.disjoint_cons_left.mpr ⟨hfresh, hold⟩⟩
        | false =>
          rw [unitChain_apply hr hbody]
          exact ⟨List.nodup_singleton _, List.singleton_disjoint.mpr hfresh⟩
      exact ⟨.of_children hchain.1 hchildren, hchain.2⟩
    · refine ⟨acyclic_immediate hr value, ?_⟩
      rw [unitChain_immediate hr]
      exact List.singleton_disjoint.mpr hfresh

end TypedGrammar.Grammar
