import TypedGrammar.Proofs.Derivation.Committing
import TypedGrammar.Proofs.Grammar.Breaches
import TypedGrammar.Proofs.Tree.PathWalks

/-!
# Operations that check their path

The walks that read and change the node at a path rely on a promise: the filled nodes on the way have
the children that the path asks for. A check of the path is all that it takes to keep the promise. So
the operations that check their path first never ask a node for a child that it lacks, whatever the
tree and the path, in any grammar. Looking for the legal rules of a hole keeps every promise.
-/

namespace TypedGrammar

/-- The walks along a path agree on how the path ends. -/
structure WalksAgree (t : Tree) (path : Path) : Prop where
  /-- A node is read exactly when the check passes. -/
  reads_iff : (∃ node, t.nodeAt path = .ok (some node)) ↔ t.checkPath path = .ok ()
  /-- The node that is read is the one that a change replaces. -/
  changes : ∀ node, t.nodeAt path = .ok (some node) → ∃ ctx : Context, t = ctx.plug node ∧
    path = ctx.path ∧ ∀ (α : Type) (f : Tree → α × Tree),
      t.editAt f path = .ok (some ((f node).1, ctx.plug (f node).2))
  /-- There is nothing to read exactly when the check reports a hole on the way. -/
  reads_nothing_iff : t.nodeAt path = .ok none ↔
    t.checkPath path = report (.invalidPath path .throughHole)
  /-- There is nothing to change in the same case. -/
  changes_nothing_iff : ∀ (α : Type) (f : Tree → α × Tree), t.editAt f path = .ok none ↔
    t.checkPath path = report (.invalidPath path .throughHole)
  /-- Reading is in breach exactly when the check reports a child out of bounds. -/
  reading_breaches_iff : Breaches (t.nodeAt path) ↔
    t.checkPath path = report (.invalidPath path .outOfBounds)
  /-- Changing is in breach in the same case. -/
  changing_breaches_iff : ∀ (α : Type) (f : Tree → α × Tree), Breaches (t.editAt f path) ↔
    t.checkPath path = report (.invalidPath path .outOfBounds)
  /-- Reading stops at the first bad step of the path and tells its index and the number of children. -/
  reading_stops_iff : ∀ failure, t.nodeAt path = .error failure ↔ ∃ i count,
    t.FirstBadStep path i count ∧ failure = .breach (.childOutOfBounds i count path)
  /-- Changing stops there as well and tells the same. -/
  changing_stops_iff : ∀ (α : Type) (f : Tree → α × Tree) (failure : Failure),
    t.editAt f path = .error failure ↔ t.nodeAt path = .error failure

/-- The walks along a path agree at every tree. -/
theorem Tree.walksAgree (t : Tree) (path : Path) : WalksAgree t path where
  reads_iff := exists_nodeAt_iff
  changes _ := exists_context_of_nodeAt
  reads_nothing_iff := nodeAt_eq_none_iff
  changes_nothing_iff _ _ := editAt_eq_none_iff.trans nodeAt_eq_none_iff
  reading_breaches_iff := exists_breach_iff
  changing_breaches_iff _ _ :=
    (exists_congr fun _ => editAt_eq_error_iff).trans exists_breach_iff
  reading_stops_iff _ := nodeAt_eq_error_iff
  changing_stops_iff _ _ _ := editAt_eq_error_iff

/-! ### A child that is not there -/

/-- The result is the breach of asking a node for a child that it lacks. -/
def LacksChild {α : Type} (x : Except Failure α) : Prop :=
  ∃ i count path, x = breached (.childOutOfBounds i count path)

section LacksChild

variable {σ α β : Type} {x : Except Failure α} {failure : Failure}

/-- What keeps every promise does not ask for a child that is lacking. -/
theorem not_lacksChild_of_not_breaches (h : ¬ Breaches x) : ¬ LacksChild x := by
  rintro ⟨i, count, path, hx⟩
  exact h ⟨_, hx⟩

/-- An answer asks for nothing. -/
theorem not_lacksChild_ok (a : α) : ¬ LacksChild (.ok a : Except Failure α) := nofun

/-- A reported condition is no question for a child that is lacking. -/
theorem not_lacksChild_report (error : GrammarError) :
    ¬ LacksChild (report error : Except Failure α) := nofun

/-- Two steps ask for no child that is lacking when neither of them does. -/
theorem not_lacksChild_bind {f : α → Except Failure β} (hx : ¬ LacksChild x)
    (hf : ∀ a, x = .ok a → ¬ LacksChild (f a)) : ¬ LacksChild (x >>= f) := by
  cases x with
  | error failure =>
    rintro ⟨i, count, path, hfailure⟩
    obtain rfl := Except.error.inj hfailure
    exact hx ⟨i, count, path, rfl⟩
  | ok a => exact hf a rfl

/-- Computing something from an answer asks for nothing more. -/
theorem not_lacksChild_map (hx : ¬ LacksChild x) (f : α → β) :
    ¬ LacksChild (x >>= fun a => pure (f a)) :=
  not_lacksChild_bind hx fun _ _ => not_lacksChild_ok _

/-- A change that fails as one of its checks does. -/
theorem not_lacksChild_failed (hx : ¬ LacksChild x) (hfailure : x = .error failure) (state : σ) :
    ¬ LacksChild (Edit.failed state failure : Edit σ β).result := by
  rintro ⟨i, count, path, hresult⟩
  obtain rfl := Except.error.inj hresult
  exact hx ⟨i, count, path, hfailure⟩

end LacksChild

namespace Tree

variable {t node subtree : Tree} {path : Path}

/-- Checking a path is never in breach. -/
theorem not_breaches_checkPath : ¬ Breaches (t.checkPath path) := by
  unfold checkPath
  split
  · exact not_breaches_ok _
  · exact not_breaches_report _

/-- A path that leads to a node leads through the parent of the node. -/
theorem checkPath_dropLast (h : t.checkPath path = .ok ()) : t.checkPath path.dropLast = .ok () := by
  obtain ⟨ctx, node, rfl, rfl⟩ := exists_context_of_checkPath h
  rcases List.eq_nil_or_concat' ctx with rfl | ⟨outer, f, rfl⟩
  · rfl
  · have hpath : (Context.path (outer ++ [f])).dropLast = Context.path outer := by
      rw [Context.path_append]
      exact List.dropLast_concat
    rw [hpath, Context.plug_append]
    exact Context.checkPath_plug outer _

/-- After the check there is a node to read. -/
theorem not_breaches_nodeAt (h : t.checkPath path = .ok ()) : ¬ Breaches (t.nodeAt path) := by
  obtain ⟨node, hnode⟩ := exists_nodeAt_iff.mpr h
  exact not_breaches_of_isOk ⟨_, hnode⟩

/-- Exchanging a subtree is never in breach. -/
theorem not_breaches_swap : ¬ Breaches (t.swap path subtree).result := by
  unfold swap
  split
  · exact not_breaches_report _
  · split
    · rename_i failure hfailure
      rintro ⟨breach, hbreach⟩
      obtain rfl := Except.error.inj hbreach
      exact not_breaches_checkPath ⟨breach, hfailure⟩
    · rename_i hcheck
      obtain ⟨ctx, old, rfl, rfl⟩ := exists_context_of_checkPath hcheck
      rw [editAt, Context.editWalk_plug]
      exact not_breaches_ok _

end Tree

namespace Grammar

variable {g : Grammar} {t subtree : Tree} {path : Path} {r : RuleId} {value : Value}

/-! ### Questions to the grammar -/

/-- The row of a rule has nothing to do with the children of nodes. -/
theorem not_lacksChild_row : ¬ LacksChild (g.row r) := by
  unfold row
  split
  · exact not_lacksChild_ok _
  · exact nofun

/-- Neither has the rule itself. -/
theorem not_lacksChild_live : ¬ LacksChild (g.live r) := by
  refine not_lacksChild_bind not_lacksChild_row fun row _ => ?_
  cases row with
  | none => exact nofun
  | some rule => exact not_lacksChild_ok rule

/-- Neither have the types of its children. -/
theorem not_lacksChild_childTypes : ¬ LacksChild (g.childTypes r) :=
  not_lacksChild_map not_lacksChild_row _

/-- Neither has its kind of evaluation. -/
theorem not_lacksChild_isImmediate : ¬ LacksChild (g.isImmediate r) :=
  not_lacksChild_map not_lacksChild_row _

/-- The type of a tree is found without asking for a child of it. -/
theorem not_lacksChild_nodeType (t : Tree) : ¬ LacksChild (g.nodeType t) := by
  have hrule (r : RuleId) : ¬ LacksChild (g.returnType r) :=
    not_lacksChild_map not_lacksChild_live _
  cases t with
  | apply r children => exact not_lacksChild_map (hrule r) _
  | immediate r value => exact not_lacksChild_map (hrule r) _
  | hole h =>
    rw [nodeType]
    split
    · exact not_lacksChild_map (hrule _) _
    · exact not_lacksChild_ok _

/-- The holes for some types are made without asking for a child. -/
theorem not_lacksChild_childHoles (types : List String) : ¬ LacksChild (g.childHoles types) := by
  induction types with
  | nil => exact not_lacksChild_ok _
  | cons type rest ih =>
    have hdomain : ¬ LacksChild (g.domain type) :=
      not_lacksChild_map (not_lacksChild_of_not_breaches not_breaches_typeEntry) _
    exact not_lacksChild_bind hdomain fun _ _ => not_lacksChild_map ih _

/-- So is the node of an expansion. -/
theorem not_lacksChild_expansion : ¬ LacksChild (g.expansion r) := by
  refine not_lacksChild_bind not_lacksChild_isImmediate fun immediate _ => ?_
  split
  · exact not_lacksChild_report _
  · refine not_lacksChild_bind not_lacksChild_childTypes fun types _ => ?_
    exact not_lacksChild_map (not_lacksChild_childHoles types) _

/-! ### The checked operations -/

/-- Looking for a hole keeps every promise. -/
theorem not_breaches_holeAt : ¬ Breaches (holeAt t path) := by
  refine not_breaches_bind Tree.not_breaches_checkPath fun _ hcheck => ?_
  refine not_breaches_bind (Tree.not_breaches_nodeAt hcheck) fun found _ => ?_
  split
  · exact not_breaches_ok _
  · exact not_breaches_report _

/-- Looking for the legal rules of a hole keeps every promise. -/
theorem not_breaches_legalDomain : ¬ Breaches (g.legalDomain t path) :=
  (breaches_map_iff _).not.mpr not_breaches_holeAt

/-- Checking whether a rule may be committed asks for no child that is lacking. -/
theorem not_lacksChild_checkCommit : ¬ LacksChild (g.checkCommit t path r) := by
  refine not_lacksChild_bind (not_lacksChild_of_not_breaches not_breaches_holeAt) fun h _ => ?_
  refine not_lacksChild_bind (not_lacksChild_map not_lacksChild_row _) fun removed _ => ?_
  split
  · exact not_lacksChild_report _
  · split
    · exact not_lacksChild_ok _
    · exact not_lacksChild_report _

/-- What passed the check of a commit is put in place of the hole. -/
theorem not_lacksChild_commit (h : g.checkCommit t path r = .ok ()) (node : Tree) :
    ¬ LacksChild (commit t path node).result := by
  obtain ⟨hole, hhole, -⟩ := bind_eq_ok.mp h
  rw [result_commit hhole]
  exact not_lacksChild_ok ()

/-- Expanding a hole asks for no child that is lacking. -/
theorem not_lacksChild_expand : ¬ LacksChild (g.expand t path r).result := by
  unfold expand
  dsimp only
  split
  · rename_i node hnode
    obtain ⟨⟨⟩, hcheck, -⟩ := bind_eq_ok.mp hnode
    exact not_lacksChild_commit hcheck node
  · rename_i failure hfailure
    exact not_lacksChild_failed (not_lacksChild_bind not_lacksChild_checkCommit fun _ _ =>
      not_lacksChild_expansion) hfailure t

/-- Filling a hole with a literal asks for no child that is lacking. -/
theorem not_lacksChild_fillImmediate : ¬ LacksChild (g.fillImmediate t path r value).result := by
  unfold fillImmediate
  dsimp only
  split
  · rename_i hchecks
    obtain ⟨⟨⟩, hcheck, -⟩ := bind_eq_ok.mp hchecks
    exact not_lacksChild_commit hcheck _
  · rename_i failure hfailure
    refine not_lacksChild_failed (not_lacksChild_bind not_lacksChild_checkCommit fun _ _ => ?_)
      hfailure t
    refine not_lacksChild_bind not_lacksChild_isImmediate fun immediate _ => ?_
    split
    · exact not_lacksChild_ok _
    · exact not_lacksChild_report _

/-- The rule that the path asks for is that of a node on the way, so a check of the whole path
suffices. -/
theorem not_lacksChild_expectedType : ¬ LacksChild (g.expectedType t path) := by
  unfold expectedType
  split
  · exact not_lacksChild_ok _
  · rename_i index hindex
    refine not_lacksChild_bind (not_lacksChild_of_not_breaches Tree.not_breaches_checkPath)
      fun _ hcheck => ?_
    have hparent := Tree.not_breaches_nodeAt (Tree.checkPath_dropLast hcheck)
    refine not_lacksChild_bind (not_lacksChild_of_not_breaches hparent) fun found _ => ?_
    split
    · exact not_lacksChild_report _
    · refine not_lacksChild_bind not_lacksChild_childTypes fun types _ => ?_
      split
      · exact not_lacksChild_ok _
      · exact not_lacksChild_report _

/-- Comparing two types is never in breach. -/
theorem not_breaches_checkTypes {expected found : Option String} :
    ¬ Breaches (checkTypes path expected found) := by
  unfold checkTypes
  split
  · split
    · exact not_breaches_ok _
    · exact not_breaches_report _
  · exact not_breaches_ok _

/-- Replacing a subtree asks for no child that is lacking. -/
theorem not_lacksChild_replace : ¬ LacksChild (g.replace t path subtree).result := by
  unfold replace
  split
  · exact not_lacksChild_report _
  · dsimp only
    split
    · exact not_lacksChild_of_not_breaches Tree.not_breaches_swap
    · rename_i failure hfailure
      refine not_lacksChild_failed (not_lacksChild_bind not_lacksChild_expectedType fun _ _ => ?_)
        hfailure t
      refine not_lacksChild_bind (not_lacksChild_nodeType subtree) fun found _ => ?_
      exact not_lacksChild_of_not_breaches not_breaches_checkTypes

/-- The operations on the node at a path that never ask for a child that is not there. -/
structure ChecksPath (g : Grammar) (t : Tree) (path : Path) : Prop where
  swap : ∀ subtree, ¬ LacksChild (t.swap path subtree).result
  expectedType : ¬ LacksChild (g.expectedType t path)
  replace : ∀ subtree, ¬ LacksChild (g.replace t path subtree).result
  expand : ∀ r, ¬ LacksChild (g.expand t path r).result
  fillImmediate : ∀ r value, ¬ LacksChild (g.fillImmediate t path r value).result
  legalDomain : ¬ LacksChild (g.legalDomain t path)

/-- Each operation that checks its path asks for no child that is lacking. -/
theorem checksPath (g : Grammar) (t : Tree) (path : Path) : ChecksPath g t path where
  swap _ := not_lacksChild_of_not_breaches Tree.not_breaches_swap
  expectedType := not_lacksChild_expectedType
  replace _ := not_lacksChild_replace
  expand _ := not_lacksChild_expand
  fillImmediate _ _ := not_lacksChild_fillImmediate
  legalDomain := not_lacksChild_of_not_breaches not_breaches_legalDomain

end Grammar

/-- For every tree and every path, the walks that read, change and check agree on how the path ends.
In any grammar, the operations that check the path never ask a node for a child that it lacks, and the
legal rules are found or a condition is reported. -/
theorem Tree.path_walks_agree (t : Tree) (path : Path) : WalksAgree t path ∧
    ∀ g : Grammar, g.ChecksPath t path ∧ ¬ Breaches (g.legalDomain t path) :=
  ⟨t.walksAgree path, fun g => ⟨g.checksPath t path, Grammar.not_breaches_legalDomain⟩⟩

end TypedGrammar
