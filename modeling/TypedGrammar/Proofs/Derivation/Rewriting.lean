import TypedGrammar.Derivation.Commit
import TypedGrammar.Proofs.Derivation.WellTyped
import TypedGrammar.Proofs.Grammar.Reachable

/-!
# Rewriting trees

A tree is built by filling holes, by narrowing them, and by putting well-typed trees in the place of
its nodes. Each step leaves the tree alone or changes what stands in one place, and what comes to
stand there has the type of the place, so the tree stays well-typed at its type. The one exception is
a root without candidates: it has every type, so any tree may replace it.
-/

namespace TypedGrammar

/-- A step of rewriting. -/
inductive TreeStep where
  /-- Fill the hole at a path with an ordinary rule. -/
  | expand (path : Path) (r : RuleId)
  /-- Fill the hole at a path with an immediate rule and its literal. -/
  | fillImmediate (path : Path) (r : RuleId) (value : Value)
  /-- Narrow the hole at a path. -/
  | narrow (path : Path) (allowed : BitSet)
  /-- Put a subtree in the place of the node at a path. -/
  | replace (path : Path) (subtree : Tree)
  /-- Put another tree in the place of the whole. -/
  | replaceRoot (root : Tree)

namespace TreeStep

/-- The tree after a step; after a step that fails it is what the step leaves behind. -/
def run (g : Grammar) (t : Tree) : TreeStep → Tree
  | expand path r => (g.expand t path r).state
  | fillImmediate path r value => (g.fillImmediate t path r value).state
  | narrow path allowed => (t.narrowAt path allowed).state
  | replace path subtree => (g.replace t path subtree).state
  | replaceRoot root => (g.replaceRoot t root).state

/-- The tree after several steps. -/
def runAll (g : Grammar) (t : Tree) (steps : List TreeStep) : Tree := steps.foldl (run g) t

/-- The tree that the step brings along. -/
def given? : TreeStep → Option Tree
  | replace _ subtree => some subtree
  | replaceRoot root => some root
  | _ => none

/-- The step replaces a root hole without candidates, which has no type of its own. -/
def ReplacesUntyped (t : Tree) : TreeStep → Prop
  | replaceRoot _ => ∃ hole, t = .hole hole ∧ hole.isUnsatisfiable = true
  | _ => False

end TreeStep

namespace Grammar

variable {g : Grammar} {t subtree root node : Tree} {path : Path} {r : RuleId} {rule : Rule}
  {type type' : String} {step : TreeStep} {steps : List TreeStep}

/-! ### Filling and narrowing -/

/-- The hole that a path leads to stands in the open place of a context. -/
theorem of_holeAt {hole : Hole} (h : holeAt t path = .ok hole) :
    ∃ ctx : Context, t = ctx.plug (.hole hole) ∧ path = ctx.path := by
  obtain ⟨⟨⟩, hcheck, hnode⟩ := bind_eq_ok.mp h
  obtain ⟨ctx, node, rfl, rfl⟩ := Tree.exists_context_of_checkPath hcheck
  rw [Context.nodeAt_plug, ok_bind] at hnode
  cases node with
  | apply r children => cases hnode
  | immediate r value => cases hnode
  | hole found =>
    cases hnode
    exact ⟨ctx, rfl, rfl⟩

/-- A rule that may be committed is a candidate of the hole that the path leads to. -/
theorem of_checkCommit (h : g.checkCommit t path r = .ok ()) :
    ∃ (ctx : Context) (hole : Hole), t = ctx.plug (.hole hole) ∧ path = ctx.path ∧
      hole.domain.containsRule r = true := by
  obtain ⟨hole, hhole, hlive⟩ := bind_eq_ok.mp h
  obtain ⟨removed, -, hcandidate⟩ := bind_eq_ok.mp hlive
  obtain ⟨ctx, rfl, rfl⟩ := of_holeAt hhole
  refine ⟨ctx, hole, rfl, rfl, ?_⟩
  split at hcandidate
  · cases hcandidate
  · split at hcandidate
    · assumption
    · cases hcandidate

/-- A node of the type of the rule may be committed in place of the hole. -/
theorem WellTyped.commit (ht : WellTyped g type t) (hcheck : g.checkCommit t path r = .ok ())
    (hnode : ∀ rule, g.ruleAt? r = some rule → WellTyped g rule.type node) :
    WellTyped g type (Grammar.commit t path node).state := by
  obtain ⟨ctx, hole, rfl, rfl, hr⟩ := of_checkCommit hcheck
  obtain ⟨slot, hhole, hplug⟩ := ht.exists_slot
  obtain ⟨rule, hrule, rfl⟩ := hhole.rule_of_candidate hr
  rw [Grammar.commit, Context.editNode_plug]
  exact hplug node (hnode rule hrule)

/-- Expanding a hole keeps a tree well-typed, and so does failing to. -/
theorem WellTyped.expand (ht : WellTyped g type t) (hg : Consistent g) (path : Path) (r : RuleId) :
    WellTyped g type (g.expand t path r).state := by
  unfold Grammar.expand
  dsimp only
  split
  · rename_i node hnode
    obtain ⟨⟨⟩, hcheck, hnode⟩ := bind_eq_ok.mp hnode
    exact ht.commit hcheck fun rule hr => hg.wellTyped_expansion hr hnode
  · exact ht

/-- Filling a hole with a literal keeps a tree well-typed. -/
theorem WellTyped.fillImmediate (ht : WellTyped g type t) (path : Path) (r : RuleId)
    (value : Value) : WellTyped g type (g.fillImmediate t path r value).state := by
  unfold Grammar.fillImmediate
  dsimp only
  split
  · rename_i hcheck
    obtain ⟨⟨⟩, hcheck, himmediate⟩ := bind_eq_ok.mp hcheck
    refine ht.commit hcheck fun rule hr => .immediate hr ?_ value
    rw [isImmediate_of_ruleAt? hr, ok_bind] at himmediate
    split at himmediate
    · assumption
    · cases himmediate
  · exact ht

/-- Narrowing a hole keeps a tree well-typed. -/
theorem WellTyped.narrowAt (ht : WellTyped g type t) (path : Path) (allowed : BitSet) :
    WellTyped g type (t.narrowAt path allowed).state := by
  rcases Tree.editNode_state (Tree.narrowRoot allowed) none t path with
    hsame | ⟨ctx, node, rfl, -, hstate⟩
  · rwa [Tree.narrowAt, hsame]
  · obtain ⟨slot, hnode, hplug⟩ := ht.exists_slot
    rw [Tree.narrowAt, hstate]
    refine hplug _ ?_
    cases node with
    | apply r children => exact hnode
    | immediate r value => exact hnode
    | hole hole => exact hnode.narrow allowed

/-! ### Replacing -/

/-- A well-typed tree that passes the check against a type has the type. -/
theorem WellTyped.of_checkTypes {found : Option String} (h : WellTyped g type' subtree)
    (hfound : g.nodeType subtree = .ok found) (hcheck : checkTypes path (some type) found = .ok ()) :
    WellTyped g type subtree := by
  rcases h.nodeType_eq with htype | ⟨hole, rfl, hempty⟩
  · obtain rfl := Except.ok.inj (hfound.symm.trans htype)
    rw [checkTypes] at hcheck
    split at hcheck
    · rename_i hsame
      rwa [hsame]
    · cases hcheck
  · exact wellTyped_of_isUnsatisfiable hempty type

/-- Replacing a subtree by a well-typed one keeps a tree well-typed. The check looks at the rule of the
parent, which stands in the innermost frame around the place. -/
theorem WellTyped.replace (ht : WellTyped g type t) (hsubtree : WellTyped g type' subtree)
    (path : Path) : WellTyped g type (g.replace t path subtree).state := by
  unfold Grammar.replace
  split
  · exact ht
  · rename_i hpath
    dsimp only
    split
    · rename_i hcheck
      obtain ⟨expected, hexpected, hcheck⟩ := bind_eq_ok.mp hcheck
      obtain ⟨found, hfound, hcheck⟩ := bind_eq_ok.mp hcheck
      rcases t.swap_state path subtree with hsame | ⟨ctx, node, rfl, rfl, hstate⟩
      · rwa [hsame]
      · rcases List.eq_nil_or_concat' ctx with rfl | ⟨outer, f, rfl⟩
        · exact absurd rfl hpath
        · rw [hstate]
          rw [Context.path_append] at hexpected
          rw [Context.plug_append] at ht hexpected ⊢
          obtain ⟨slot, hslot, -, hplug⟩ := WellTyped.expectedType_slot ht
          obtain rfl := Except.ok.inj (hexpected.symm.trans hslot)
          exact hplug subtree (hsubtree.of_checkTypes hfound hcheck)
    · exact ht

/-- Replacing the whole tree by a well-typed one gives a well-typed tree. It has the same type unless the
former tree was a hole without candidates. -/
theorem WellTyped.replaceRoot (ht : WellTyped g type t) (hroot : WellTyped g type' root) :
    (∃ found, WellTyped g found (g.replaceRoot t root).state) ∧
      ((¬ ∃ hole, t = .hole hole ∧ hole.isUnsatisfiable = true) →
        WellTyped g type (g.replaceRoot t root).state) := by
  unfold Grammar.replaceRoot
  dsimp only
  split
  · rename_i hcheck
    obtain ⟨expected, hexpected, hcheck⟩ := bind_eq_ok.mp hcheck
    obtain ⟨found, hfound, hcheck⟩ := bind_eq_ok.mp hcheck
    refine ⟨⟨type', hroot⟩, fun htyped => ?_⟩
    obtain rfl := Except.ok.inj (hexpected.symm.trans (ht.nodeType_eq.resolve_right htyped))
    exact hroot.of_checkTypes hfound hcheck
  · exact ⟨⟨type, ht⟩, fun _ => ht⟩

/-! ### Steps and runs -/

/-- A step with well-typed trees keeps a tree well-typed, and at its type unless it replaces a root
hole without candidates. -/
theorem WellTyped.run (ht : WellTyped g type t) (hg : Consistent g)
    (hgiven : ∀ s, step.given? = some s → ∃ type', WellTyped g type' s) :
    (∃ found, WellTyped g found (step.run g t)) ∧
      (¬ step.ReplacesUntyped t → WellTyped g type (step.run g t)) := by
  cases step with
  | expand path r => exact ⟨⟨type, ht.expand hg path r⟩, fun _ => ht.expand hg path r⟩
  | fillImmediate path r value =>
    exact ⟨⟨type, ht.fillImmediate path r value⟩, fun _ => ht.fillImmediate path r value⟩
  | narrow path allowed =>
    exact ⟨⟨type, ht.narrowAt path allowed⟩, fun _ => ht.narrowAt path allowed⟩
  | replace path subtree =>
    obtain ⟨type', hsubtree⟩ := hgiven subtree rfl
    exact ⟨⟨type, ht.replace hsubtree path⟩, fun _ => ht.replace hsubtree path⟩
  | replaceRoot root =>
    obtain ⟨type', hroot⟩ := hgiven root rfl
    exact ht.replaceRoot hroot

/-- Steps with well-typed trees keep a tree well-typed. -/
theorem WellTyped.exists_runAll (ht : WellTyped g type t) (hg : Consistent g)
    (hgiven : ∀ step ∈ steps, ∀ s, step.given? = some s → ∃ type', WellTyped g type' s) :
    ∃ found, WellTyped g found (TreeStep.runAll g t steps) := by
  induction steps generalizing type t with
  | nil => exact ⟨type, ht⟩
  | cons step rest ih =>
    obtain ⟨found, hstep⟩ := (ht.run hg (hgiven step List.mem_cons_self)).1
    exact ih hstep fun other hother => hgiven other (List.mem_cons_of_mem _ hother)

/-- Steps with well-typed trees keep a tree well-typed at its type, unless one of them replaces a root
hole without candidates. -/
theorem WellTyped.runAll (ht : WellTyped g type t) (hg : Consistent g)
    (hgiven : ∀ step ∈ steps, ∀ s, step.given? = some s → ∃ type', WellTyped g type' s)
    (htyped : ∀ before step after, steps = before ++ step :: after →
      ¬ step.ReplacesUntyped (TreeStep.runAll g t before)) :
    WellTyped g type (TreeStep.runAll g t steps) := by
  induction steps generalizing t with
  | nil => exact ht
  | cons step rest ih =>
    have hstep := (ht.run hg (hgiven step List.mem_cons_self)).2 (htyped [] step rest rfl)
    refine ih hstep (fun other hother => hgiven other (List.mem_cons_of_mem _ hother)) ?_
    intro before other after hsplit
    exact htyped (step :: before) other after (congrArg (step :: ·) hsplit)

/-- In a grammar that can come about, start from the hole of a type and take any steps, failing ones
included, that bring along well-typed trees only. The tree that comes out is well-typed, and it is so
at the type as long as no step replaces a root hole without candidates. Every well-typed tree is
complete exactly when it has no hole. -/
theorem Reachable.rewriting_wellTyped (h : Reachable g) (hroot : g.rootHole type = .ok root)
    (hgiven : ∀ step ∈ steps, ∀ s, step.given? = some s → ∃ type', WellTyped g type' s) :
    (∃ found, WellTyped g found (TreeStep.runAll g root steps)) ∧
      ((∀ before step after, steps = before ++ step :: after →
          ¬ step.ReplacesUntyped (TreeStep.runAll g root before)) →
        WellTyped g type (TreeStep.runAll g root steps)) ∧
      ∀ type t, WellTyped g type t → g.isComplete t = .ok !t.containsHole := by
  obtain ⟨domain, hdomain, hsame⟩ := bind_eq_ok.mp hroot
  have hfresh : FreshHole g type root := ⟨domain, hdomain, (Except.ok.inj hsame).symm⟩
  have hstart := hfresh.wellTyped h.consistent
  exact ⟨hstart.exists_runAll h.consistent hgiven, hstart.runAll h.consistent hgiven,
    fun _ _ ht => ht.isComplete_eq⟩

/-- Ones, their sums, and comparisons of these. -/
def comparisons : Grammar :=
  ((empty.addRules "N" [.lit (.int 1), .call "+" [.sym "N", .sym "N"]]).state.addRule "B"
    (.call "<" [.sym "N", .sym "N"])).state

/-- Compare two numbers, narrow the second to a one and replace the first by a one; a comparison is
refused in its place. -/
def comparisonSteps : List TreeStep :=
  [.expand [] ⟨2⟩, .narrow [2] (.ofRules [⟨0⟩]), .replace [1] (.apply ⟨0⟩ []),
    .replace [1] (.unexpanded (.ofRules [⟨2⟩]))]

/-- After these steps there is a comparison with an open side. -/
theorem comparisons_rewriting_wellTyped : Reachable comparisons ∧
    comparisons.rootHole "B" = .ok (.unexpanded (.ofRules [⟨2⟩])) ∧
    (∀ step ∈ comparisonSteps, ∀ s, step.given? = some s → ∃ type, WellTyped comparisons type s) ∧
    ∃ t, TreeStep.runAll comparisons (.unexpanded (.ofRules [⟨2⟩])) comparisonSteps = t ∧
      WellTyped comparisons "B" t ∧ t.containsHole = true ∧ comparisons.isComplete t = .ok false := by
  have hreachable : Reachable comparisons := (Reachable.empty.addRules _ _).addRule _ _
  have hroot : comparisons.rootHole "B" = .ok (.unexpanded (.ofRules [⟨2⟩])) := by cbv
  have hgiven : ∀ step ∈ comparisonSteps, ∀ s, step.given? = some s →
      ∃ type, WellTyped comparisons type s := by
    have hone : comparisons.ruleAt? ⟨0⟩ = some ⟨"N", .lit (.int 1), false, []⟩ := by cbv
    have hcomparison : comparisons.domain "B" = .ok (.ofRules [⟨2⟩]) := by cbv
    simp only [comparisonSteps, List.forall_mem_cons]
    refine ⟨fun s hs => ?_, fun s hs => ?_, fun s hs => ?_, fun s hs => ?_,
      List.forall_mem_nil _⟩
    · cases hs
    · cases hs
    · cases hs
      exact ⟨"N", .of_children hone rfl .nil⟩
    · cases hs
      exact ⟨"B", FreshHole.wellTyped ⟨_, hcomparison, rfl⟩ hreachable.consistent⟩
  have htyped : ∀ before step after, comparisonSteps = before ++ step :: after →
      ¬ step.ReplacesUntyped
        (TreeStep.runAll comparisons (.unexpanded (.ofRules [⟨2⟩])) before) := by
    intro before step after hsplit
    have hstep : step ∈ comparisonSteps := by simp [hsplit]
    simp only [comparisonSteps, List.mem_cons, List.not_mem_nil, or_false] at hstep
    rcases hstep with rfl | rfl | rfl | rfl <;> exact id
  have hopen : (TreeStep.runAll comparisons (.unexpanded (.ofRules [⟨2⟩]))
      comparisonSteps).containsHole = true := by cbv
  obtain ⟨-, hwellTyped, hcomplete⟩ := hreachable.rewriting_wellTyped hroot hgiven
  refine ⟨hreachable, hroot, hgiven, _, rfl, hwellTyped htyped, hopen, ?_⟩
  rw [hcomplete "B" _ (hwellTyped htyped), hopen]
  rfl

end Grammar

end TypedGrammar
