import TypedGrammar.Proofs.Derivation.LegalRewriting
import TypedGrammar.Proofs.Tree.HoleOrder

/-!
# The frontier of open choices

The holes of a filled context are those to the left of its open place, those of what was filled in, and
those to the right, in this order. So a commit replaces one entry in the list of holes by those of the
node that it brings: an ordinary rule opens a hole for each of its children and makes the tree larger by
as many nodes, and a literal opens none. Either way the size less the number of holes grows by one, and
this bounds the number of commits within a size.
-/

namespace TypedGrammar

namespace Tree

variable {t t' node : Tree} {path : Path} {opened : List Path}

/-- The second tree has the given holes where the first has one at the path, and apart from them it has
the holes that the first has. -/
structure ReplacesHole (t : Tree) (path : Path) (opened : List Path) (t' : Tree) : Prop where
  /-- The path is one entry in the list of holes, and it is replaced in place. -/
  paths : t.holePaths.count path = 1 ∧ ∃ before behind,
    t.holePaths = before ++ path :: behind ∧ t'.holePaths = before ++ opened ++ behind
  /-- Every other hole stays as it is, with its domain and its kind. -/
  others : ∀ other, other ≠ path → ∀ h, t.nodeAt other = .ok (some (.hole h)) →
    t'.nodeAt other = .ok (some (.hole h))

/-- Filling the open place, where a hole was, replaces it by the holes of what is filled in. -/
theorem replacesHole_plug (ctx : Context) (hole : Hole) (node : Tree) :
    ReplacesHole (ctx.plug (.hole hole)) ctx.path (node.holePositions.map (ctx.path ++ ·))
      (ctx.plug node) where
  paths := by
    have hholes : (ctx.plug (.hole hole)).holePaths =
        ctx.holesBefore ++ ctx.path :: ctx.holesBehind := by
      rw [holePaths_eq, Context.holePositions_plug]
      simp [holePositions]
    refine ⟨?_, ctx.holesBefore, ctx.holesBehind, hholes, ?_⟩
    · refine List.count_eq_one_of_mem (nodup_holePaths _) ?_
      simp [hholes]
    · rw [holePaths_eq, Context.holePositions_plug]
  others other hne h hother := by
    rw [nodeAt_eq_some_iff] at hother ⊢
    exact ctx.subtree?_plug_of_ne node hne hother

/-- One hole gives way to those that are opened in its place. -/
theorem ReplacesHole.length_eq (h : t.ReplacesHole path opened t') :
    t'.holePaths.length + 1 = t.holePaths.length + opened.length := by
  obtain ⟨-, before, behind, hbefore, hafter⟩ := h.paths
  simp only [hbefore, hafter, List.length_append, List.length_cons]
  omega

end Tree

namespace Grammar

variable {g : Grammar} {t t' node : Tree} {path : Path} {r : RuleId} {bound n : Nat}

/-! ### One commit -/

/-- Fresh holes side by side. -/
theorem holePositionsFrom_freshHoles {types : List String} {holes : List Tree}
    (h : List.Forall₂ (FreshHole g) types holes) (index : Nat) :
    Tree.holePositionsFrom index holes = (List.range' index types.length).map fun i => [i] := by
  induction h generalizing index with
  | nil => rfl
  | cons hfresh _ ih =>
    obtain ⟨domain, -, rfl⟩ := hfresh
    simp [Tree.holePositionsFrom, Tree.unexpanded, Tree.holePositions, ih, List.range'_succ]

/-- The node of an expansion has one hole for each child that its rule asks for, and no more nodes than
these and its root. -/
theorem holes_of_expansion (h : g.expansion r = .ok node) : ∃ k, g.arity r = .ok k ∧
    node.holePositions = (List.range' 1 k).map (fun i => [i]) ∧ node.size = 1 + k := by
  have hsize := size_of_expansion h
  obtain ⟨types, holes, htypes, hfresh, rfl⟩ := of_expansion h
  have hpositions := holePositionsFrom_freshHoles hfresh 1
  refine ⟨types.length, by rw [arity, htypes]; rfl, hpositions, ?_⟩
  rw [hsize, ← Tree.length_holePositions, Tree.holePositions, hpositions]
  simp [Nat.add_comm]

/-- What committing at a path does to the list of holes and to the size. -/
structure CommitsOpen (g : Grammar) (t : Tree) (path : Path) : Prop where
  /-- An ordinary rule opens a hole for each of its children, in place of the one that it fills. -/
  expand : ∀ r, (g.expand t path r).result = .ok () → ∃ k, g.arity r = .ok k ∧
    t.ReplacesHole path ((List.range' 1 k).map fun i => path ++ [i]) (g.expand t path r).state ∧
    (g.expand t path r).state.size = t.size + k
  /-- A literal fills a hole and opens none. -/
  fillImmediate : ∀ r value, (g.fillImmediate t path r value).result = .ok () →
    t.ReplacesHole path [] (g.fillImmediate t path r value).state ∧
    (g.fillImmediate t path r value).state.size = t.size

/-- At every path of every tree a commit opens what its rule asks for. -/
theorem commitsOpen (g : Grammar) (t : Tree) (path : Path) : CommitsOpen g t path where
  expand r h := by
    obtain ⟨hcheck, node, hnode, hcommit⟩ := of_expand h
    obtain ⟨ctx, hole, rfl, rfl, -⟩ := of_checkCommit hcheck
    obtain ⟨k, harity, hholes, hsize⟩ := holes_of_expansion hnode
    have hreplaces := Tree.replacesHole_plug ctx hole node
    rw [hholes, List.map_map] at hreplaces
    rw [hcommit, commit, Context.editNode_plug]
    refine ⟨k, harity, hreplaces, ?_⟩
    simp only [Edit.done, Context.size_plug, hsize, Tree.size]
    omega
  fillImmediate r value h := by
    obtain ⟨hcheck, hcommit⟩ := of_fillImmediate h
    obtain ⟨ctx, hole, rfl, rfl, -⟩ := of_checkCommit hcheck
    rw [hcommit, commit, Context.editNode_plug]
    refine ⟨Tree.replacesHole_plug ctx hole (.immediate r value), ?_⟩
    simp only [Edit.done, Context.size_plug, Tree.size]

/-! ### Several commits -/

/-- A number of commits makes the second tree out of the first. All trees on the way, the first and the
last included, stay within the size. -/
inductive CommitRun (g : Grammar) (bound : Nat) (t : Tree) : Nat → Tree → Prop
  | start (hsize : t.size ≤ bound) : CommitRun g bound t 0 t
  | commit {n : Nat} {t' t'' : Tree} {path : Path} (hrun : CommitRun g bound t n t')
      (hcommits : Commits g t' path t'') (hsize : t''.size ≤ bound) : CommitRun g bound t (n + 1) t''

/-- With each commit the size less the number of holes grows by one. -/
theorem Commits.size_add_holes (h : Commits g t path t') :
    t'.size + t.holePaths.length = t.size + t'.holePaths.length + 1 := by
  cases h with
  | expand r hresult hstate =>
    obtain ⟨k, -, hreplaces, hsize⟩ := (g.commitsOpen t path).expand r hresult
    rw [hstate] at hreplaces hsize
    have hlength := hreplaces.length_eq
    rw [List.length_map, List.length_range'] at hlength
    omega
  | fillImmediate r value hresult hstate =>
    obtain ⟨hreplaces, hsize⟩ := (g.commitsOpen t path).fillImmediate r value hresult
    rw [hstate] at hreplaces hsize
    have hlength := hreplaces.length_eq
    rw [List.length_nil] at hlength
    omega

/-- A run of commits makes the size less the number of holes grow by their number. -/
theorem CommitRun.size_add_holes (h : CommitRun g bound t n t') :
    t'.size + t.holePaths.length = t.size + t'.holePaths.length + n := by
  induction h with
  | start _ => rfl
  | commit _ hcommits _ ih =>
    have hstep := hcommits.size_add_holes
    omega

/-- A run of commits within a bound ends within the bound. -/
theorem CommitRun.size_le (h : CommitRun g bound t n t') : t'.size ≤ bound := by
  cases h with
  | start hsize => exact hsize
  | commit _ _ hsize => exact hsize

/-- A commit replaces one entry in the list of holes by those of the children that its rule asks for, or
drops it for a literal. Within a size there are at most as many commits as the tree has holes and as its
size leaves room for. -/
theorem commits_open_holes (g : Grammar) (t : Tree) : (∀ path, CommitsOpen g t path) ∧
    ∀ bound n t', CommitRun g bound t n t' → n + t.size ≤ t.holePaths.length + bound := by
  refine ⟨g.commitsOpen t, fun bound n t' hrun => ?_⟩
  have hgrown := hrun.size_add_holes
  have hsize := hrun.size_le
  omega

/-- A comparison with a drawn number on its left and a sum of drawn numbers on its right takes five
commits. It has five nodes, and within that size no sixth commit is possible. -/
theorem drawnComparisons_commits_open_holes :
    let root : Tree := .unexpanded (.ofRules [⟨2⟩])
    let drawn : Tree := .immediate ⟨3⟩ (.int 5)
    let finished : Tree := .apply ⟨2⟩ [drawn, .apply ⟨1⟩ [drawn, drawn]]
    CommitsOpen drawnComparisons root [] ∧ CommitRun drawnComparisons 5 root 5 finished ∧
      5 + root.size ≤ root.holePaths.length + 5 ∧
      ∀ t, ¬ CommitRun drawnComparisons 5 root 6 t := by
  intro root drawn finished
  let number : Tree := .unexpanded (.ofRules [⟨1⟩, ⟨3⟩])
  obtain ⟨hopens, hbound⟩ := drawnComparisons.commits_open_holes root
  have hcompare : Commits drawnComparisons root [] (.apply ⟨2⟩ [number, number]) :=
    .expand ⟨2⟩ (by cbv) (by cbv)
  have hleft : Commits drawnComparisons (.apply ⟨2⟩ [number, number]) [1]
      (.apply ⟨2⟩ [drawn, number]) := .fillImmediate ⟨3⟩ (.int 5) (by cbv) (by cbv)
  have hsum : Commits drawnComparisons (.apply ⟨2⟩ [drawn, number]) [2]
      (.apply ⟨2⟩ [drawn, .apply ⟨1⟩ [number, number]]) := .expand ⟨1⟩ (by cbv) (by cbv)
  have hfirst : Commits drawnComparisons (.apply ⟨2⟩ [drawn, .apply ⟨1⟩ [number, number]]) [2, 1]
      (.apply ⟨2⟩ [drawn, .apply ⟨1⟩ [drawn, number]]) :=
    .fillImmediate ⟨3⟩ (.int 5) (by cbv) (by cbv)
  have hsecond : Commits drawnComparisons (.apply ⟨2⟩ [drawn, .apply ⟨1⟩ [drawn, number]]) [2, 2]
      finished := .fillImmediate ⟨3⟩ (.int 5) (by cbv) (by cbv)
  have hrun : CommitRun drawnComparisons 5 root 5 finished :=
    (((((CommitRun.start (by decide)).commit hcompare (by decide)).commit hleft (by decide)).commit
      hsum (by decide)).commit hfirst (by decide)).commit hsecond (by decide)
  refine ⟨hopens [], hrun, hbound 5 5 finished hrun, fun t hlonger => ?_⟩
  have hholes : root.holePaths = [[]] := Tree.holePaths_eq root
  have hle := hbound 5 6 t hlonger
  rw [hholes] at hle
  exact absurd hle (by decide)

end Grammar

end TypedGrammar
