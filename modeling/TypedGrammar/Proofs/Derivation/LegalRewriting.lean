import TypedGrammar.Proofs.Derivation.Committing
import TypedGrammar.Proofs.Grammar.FailedChanges

/-!
# Rewriting succeeds exactly when it is legal

Three layers of checks stand before a commit: the path, the hole at its end, and the rule. Each failure
is one of the reasons that the checks look for, the first that applies. Where there is none, the node of
the rule comes to stand in place of the hole. In the same way a typed replacement fails for the first
reason that applies, or puts the subtree in its place. Either the change is done as a whole, or nothing
changes.
-/

namespace TypedGrammar.Grammar

variable {g : Grammar} {t subtree node : Tree} {path : Path} {r : RuleId} {immediate : Bool}
  {hole : Hole} {error : GrammarError} {value : Value} {asked : Option String}

/-! ### All or nothing -/

section AllOrNothing

variable {α : Type} {Legal : Prop} {Fault : GrammarError → Prop} {Effect : Tree → α → Prop}
  {edit : Edit Tree α}

/-- A change of a tree is done as a whole when it is legal. Otherwise it reports one of the reasons
against it and leaves the tree alone. -/
structure AllOrNothing (t : Tree) (Legal : Prop) (Fault : GrammarError → Prop)
    (Effect : Tree → α → Prop) (edit : Edit Tree α) : Prop where
  /-- It succeeds exactly when it is legal. -/
  ok_iff : (∃ answer, edit.result = .ok answer) ↔ Legal
  /-- It fails for exactly the reasons against it. -/
  error_iff : ∀ failure, edit.result = .error failure ↔
    ∃ error, Fault error ∧ failure = .reported error
  /-- When it succeeds, the new tree and the answer are as they should be. -/
  effect : ∀ answer, edit.result = .ok answer → Effect edit.state answer
  /-- When it fails, the tree is as it was. -/
  keeps : edit.Keeps t

/-- An operation is all or nothing when it is legal or has a fault, does its work when it is legal, and is
refused for each fault. No change is both done and refused, so the two directions follow from the cases. -/
theorem AllOrNothing.of_cases (hcases : Legal ∨ ∃ error, Fault error)
    (hdone : Legal → ∃ t' answer, Effect t' answer ∧ edit = .done t' answer)
    (hrefused : ∀ error, Fault error → edit = .refused t error) :
    AllOrNothing t Legal Fault Effect edit := by
  have hexclusive (hlegal : Legal) (error : GrammarError) (hfault : Fault error) : False := by
    obtain ⟨t', answer, -, hedit⟩ := hdone hlegal
    cases congrArg Edit.result (hedit.symm.trans (hrefused error hfault))
  rcases hcases with hlegal | ⟨error, hfault⟩
  · obtain ⟨t', answer, heffect, rfl⟩ := hdone hlegal
    exact {
      ok_iff := iff_of_true ⟨answer, rfl⟩ hlegal
      error_iff := fun _ => iff_of_false nofun fun ⟨error, hfault, _⟩ =>
        hexclusive hlegal error hfault
      effect := fun _ hanswer => Except.ok.inj hanswer ▸ heffect
      keeps := Edit.keeps_of_ok rfl t }
  · obtain rfl := hrefused error hfault
    exact {
      ok_iff := iff_of_false nofun fun hlegal => hexclusive hlegal error hfault
      error_iff := by
        refine fun failure => ⟨fun h => ⟨error, hfault, (Except.error.inj h).symm⟩, ?_⟩
        rintro ⟨other, hother, rfl⟩
        exact congrArg Edit.result (hrefused other hother)
      effect := nofun
      keeps := Edit.keeps_failed t _ }

/-- What is no reason against a change is never reported. -/
theorem AllOrNothing.result_ne (h : AllOrNothing t Legal Fault Effect edit) (herror : ¬ Fault error) :
    edit.result ≠ report error := by
  intro hresult
  obtain ⟨other, hother, hreported⟩ := (h.error_iff _).mp hresult
  exact herror (Failure.reported.inj hreported ▸ hother)

end AllOrNothing

/-- The second tree is the first one with another node at the path. -/
def ReplacedAt (t : Tree) (path : Path) (old node t' : Tree) : Prop :=
  ∃ ctx : Context, t = ctx.plug old ∧ path = ctx.path ∧ t' = ctx.plug node

/-! ### Reasons against a commit -/

/-- The path leads to the hole, and the rule is a live candidate of it and of the given kind. -/
structure Committable (g : Grammar) (t : Tree) (path : Path) (r : RuleId) (immediate : Bool)
    (hole : Hole) : Prop where
  addressed : t.subtree? path = some (.hole hole)
  live : g.isLive r = true
  candidate : hole.domain.containsRule r = true
  kind : g.isImmediate r = .ok immediate

/-- Why a rule cannot be committed at a path, whatever its kind. Each reason applies when those before
it do not. -/
inductive CheckFault (g : Grammar) (t : Tree) (path : Path) (r : RuleId) : GrammarError → Prop
  /-- The path leads to no node. -/
  | invalidPath {fault : PathFault} (hfault : t.pathFault? path = some fault) :
    CheckFault g t path r (.invalidPath path fault)
  /-- The node is not a hole. -/
  | notHole {node : Tree} (hnode : t.subtree? path = some node) (hfilled : node.hole? = none) :
    CheckFault g t path r (.invalidPath path .notHole)
  /-- The rule was taken out. -/
  | removedRule {hole : Hole} (hhole : t.subtree? path = some (.hole hole))
    (hremoved : g.isRemoved r = .ok true) : CheckFault g t path r (.removedRule r)
  /-- The rule is no candidate of the hole. -/
  | ruleNotInDomain {hole : Hole} (hhole : t.subtree? path = some (.hole hole))
    (hlive : g.isLive r = true) (hother : hole.domain.containsRule r = false) :
    CheckFault g t path r (.ruleNotInDomain r hole.domain)

/-- Why a rule cannot be committed at a path as one of a kind. The kind is looked at last. -/
inductive CommitFault (g : Grammar) (t : Tree) (path : Path) (r : RuleId) (immediate : Bool) :
    GrammarError → Prop
  /-- The rule cannot be committed at all. -/
  | check {error : GrammarError} (h : CheckFault g t path r error) :
    CommitFault g t path r immediate error
  /-- The rule is immediate, but there is no literal. -/
  | needsValue {hole : Hole} (hkind : immediate = false) (h : Committable g t path r true hole) :
    CommitFault g t path r immediate (.needsValue r)
  /-- The rule is ordinary, but there is a literal. -/
  | notImmediate {hole : Hole} (hkind : immediate = true) (h : Committable g t path r false hole) :
    CommitFault g t path r immediate (.notImmediate r)

/-- A rule of the table can be committed, or there is a reason against it. -/
theorem committable_or_fault (hr : r.index < g.size) (t : Tree) (path : Path) (immediate : Bool) :
    (∃ hole, Committable g t path r immediate hole) ∨
      ∃ error, CommitFault g t path r immediate error := by
  cases hfault : t.pathFault? path with
  | some fault => exact .inr ⟨_, .check (.invalidPath hfault)⟩
  | none =>
    obtain ⟨ctx, node, rfl, rfl⟩ := Tree.exists_context hfault
    have hnode := ctx.subtree?_plug node
    cases node with
    | apply x children => exact .inr ⟨_, .check (.notHole hnode rfl)⟩
    | immediate x value => exact .inr ⟨_, .check (.notHole hnode rfl)⟩
    | hole hole =>
      cases hrule : g.ruleAt? r with
      | none =>
        exact .inr ⟨_, .check (.removedRule hnode (isRemoved_eq_ok_true_iff.mpr ⟨hr, hrule⟩))⟩
      | some rule =>
        have hlive : g.isLive r = true := isLive_iff.mpr ⟨rule, hrule⟩
        cases hcandidate : hole.domain.containsRule r with
        | false => exact .inr ⟨_, .check (.ruleNotInDomain hnode hlive hcandidate)⟩
        | true =>
          have hcommit : Committable g _ _ r rule.immediate hole :=
            ⟨hnode, hlive, hcandidate, isImmediate_of_ruleAt? hrule⟩
          cases immediate <;> cases hkind : rule.immediate <;> rw [hkind] at hcommit
          · exact .inl ⟨hole, hcommit⟩
          · exact .inr ⟨_, .needsValue rfl hcommit⟩
          · exact .inr ⟨_, .notImmediate rfl hcommit⟩
          · exact .inl ⟨hole, hcommit⟩

/-! ### What a commit does -/

/-- A rule that can be committed passes the check. -/
theorem Committable.checkCommit_eq (h : Committable g t path r immediate hole) :
    g.checkCommit t path r = .ok () := by
  obtain ⟨rule, hrule⟩ := isLive_iff.mp h.live
  exact checkCommit_of_candidate (holeAt_eq_ok_iff.mpr h.addressed) hrule h.candidate

/-- A rule with a fault is reported by the check. -/
theorem CheckFault.checkCommit_eq (h : CheckFault g t path r error) :
    g.checkCommit t path r = report error := by
  rw [checkCommit]
  cases h with
  | invalidPath hfault =>
    rw [holeAt, Tree.checkPath, hfault]
    rfl
  | notHole hnode hfilled =>
    obtain ⟨ctx, rfl, rfl⟩ := Tree.exists_context_of_subtree? hnode
    rw [holeAt, Context.checkPath_plug, ok_bind, Context.nodeAt_plug, ok_bind, Option.bind_some,
      hfilled]
    rfl
  | removedRule hhole hremoved =>
    rw [holeAt_eq_ok_iff.mpr hhole, ok_bind, hremoved]
    rfl
  | ruleNotInDomain hhole hlive hother =>
    obtain ⟨rule, hrule⟩ := isLive_iff.mp hlive
    rw [holeAt_eq_ok_iff.mpr hhole, ok_bind, isRemoved_of_ruleAt? hrule, ok_bind, hother]
    rfl

/-- The node applies the rule to one hole for each child, open for all rules of the type of the child. -/
def FreshNode (g : Grammar) (r : RuleId) (node : Tree) : Prop :=
  ∃ types holes, g.childTypes r = .ok types ∧ List.Forall₂ (FreshHole g) types holes ∧
    node = .apply r holes

/-- An ordinary rule that can be committed puts its node in the place of the hole. -/
theorem Consistent.expand_of_committable (hg : Consistent g)
    (h : Committable g t path r false hole) : ∃ t', (∃ node, FreshNode g r node ∧
      ReplacedAt t path (.hole hole) node t') ∧ g.expand t path r = .done t' () := by
  obtain ⟨rule, hrule⟩ := isLive_iff.mp h.live
  have hordinary : rule.immediate = false :=
    Except.ok.inj ((isImmediate_of_ruleAt? hrule).symm.trans h.kind)
  obtain ⟨node, hnode⟩ := hg.exists_expansion hrule hordinary
  have hcheck := h.checkCommit_eq
  obtain ⟨ctx, rfl, rfl⟩ := Tree.exists_context_of_subtree? h.addressed
  refine ⟨ctx.plug node, ⟨node, of_expansion hnode, ctx, rfl, rfl, rfl⟩, ?_⟩
  rw [expand, hcheck, ok_bind, hnode]
  exact Context.editNode_plug ..

/-- With a fault the expansion is refused. -/
theorem CommitFault.expand_eq (h : CommitFault g t path r false error) :
    g.expand t path r = .refused t error := by
  cases h with
  | check hcheck =>
    rw [expand, hcheck.checkCommit_eq]
    rfl
  | needsValue _ hother =>
    rw [expand, hother.checkCommit_eq, ok_bind, expansion, hother.kind]
    rfl
  | notImmediate hkind => cases hkind

/-- An immediate rule that can be committed puts its literal in the place of the hole. -/
theorem fillImmediate_of_committable (h : Committable g t path r true hole) (value : Value) :
    ∃ t', ReplacedAt t path (.hole hole) (.immediate r value) t' ∧
      g.fillImmediate t path r value = .done t' () := by
  have hcheck := h.checkCommit_eq
  obtain ⟨ctx, rfl, rfl⟩ := Tree.exists_context_of_subtree? h.addressed
  refine ⟨ctx.plug (.immediate r value), ⟨ctx, rfl, rfl, rfl⟩, ?_⟩
  rw [fillImmediate, hcheck, ok_bind, h.kind]
  exact Context.editNode_plug ..

/-- With a fault the literal is refused. -/
theorem CommitFault.fillImmediate_eq (h : CommitFault g t path r true error) :
    g.fillImmediate t path r value = .refused t error := by
  cases h with
  | check hcheck =>
    rw [fillImmediate, hcheck.checkCommit_eq]
    rfl
  | needsValue hkind => cases hkind
  | notImmediate _ hother =>
    rw [fillImmediate, hother.checkCommit_eq, ok_bind, hother.kind]
    rfl

/-- An ordinary rule opens a hole for each of its children in place of a hole that it is a candidate
of. -/
theorem Consistent.allOrNothing_expand (hg : Consistent g) (hr : r.index < g.size) (t : Tree)
    (path : Path) : AllOrNothing t (∃ hole, Committable g t path r false hole)
      (CommitFault g t path r false)
      (fun t' _ => ∃ hole node, FreshNode g r node ∧ ReplacedAt t path (.hole hole) node t')
      (g.expand t path r) := by
  refine .of_cases (committable_or_fault hr t path false) ?_ fun _ hfault => hfault.expand_eq
  rintro ⟨hole, hlegal⟩
  obtain ⟨t', ⟨node, hnode, hplace⟩, hedit⟩ := hg.expand_of_committable hlegal
  exact ⟨t', (), ⟨hole, node, hnode, hplace⟩, hedit⟩

/-- An immediate rule puts its literal in place of a hole that it is a candidate of. -/
theorem allOrNothing_fillImmediate (hr : r.index < g.size) (t : Tree) (path : Path)
    (value : Value) : AllOrNothing t (∃ hole, Committable g t path r true hole)
      (CommitFault g t path r true)
      (fun t' _ => ∃ hole, ReplacedAt t path (.hole hole) (.immediate r value) t')
      (g.fillImmediate t path r value) := by
  refine .of_cases (committable_or_fault hr t path true) ?_ fun _ hfault => hfault.fillImmediate_eq
  rintro ⟨hole, hlegal⟩
  obtain ⟨t', hplace, hedit⟩ := fillImmediate_of_committable hlegal value
  exact ⟨t', (), ⟨hole, hplace⟩, hedit⟩

/-- The reasons against a commit are about the path and the rule, not about types. -/
theorem not_commitFault_unknownType (type : String) :
    ¬ CommitFault g t path r immediate (.unknownType type) := by
  intro h
  cases h with
  | check hcheck => cases hcheck

/-- The rule can be committed at the path in the way that its kind asks for, with any literal if it is
immediate. -/
def CanCommit (g : Grammar) (t : Tree) (path : Path) (r : RuleId) : Prop :=
  (g.isImmediate r = .ok false ∧ (g.expand t path r).result = .ok ()) ∨
    (g.isImmediate r = .ok true ∧ ∀ value, (g.fillImmediate t path r value).result = .ok ())

/-- A rule that the constraints leave to a hole of live candidates can be committed to it. -/
theorem Consistent.canCommit_of_legalDomain (hg : Consistent g) {legal : BitSet}
    (ht : ∀ x ∈ t.mentionedRules, g.isLive x = true) (hlegal : g.legalDomain t path = .ok legal)
    (hr : legal.containsRule r = true) : CanCommit g t path r := by
  obtain ⟨hole, hhole, hnarrowed⟩ := bind_eq_ok.mp hlegal
  obtain rfl := Except.ok.inj hnarrowed
  have hcandidate : hole.domain.containsRule r = true :=
    BitSet.isSubset_iff.mp Constraint.propagateAll_isSubset _ hr
  obtain ⟨rule, hrule⟩ := isLive_iff.mp (ht r (mem_mentionedRules_of_holeAt hhole hcandidate))
  have hkind := isImmediate_of_ruleAt? hrule
  cases himmediate : rule.immediate with
  | false =>
    rw [himmediate] at hkind
    exact .inl ⟨hkind, by rw [hg.result_expand hhole hrule hcandidate, himmediate]; rfl⟩
  | true =>
    rw [himmediate] at hkind
    refine .inr ⟨hkind, fun value => ?_⟩
    rw [result_fillImmediate hhole hrule hcandidate, himmediate]
    rfl

/-! ### Typed replacement -/

/-- The rule above the end of the path asks for the type there, or for none when the path goes on behind
the children that the rule asks for. -/
def AsksFor (g : Grammar) (t : Tree) (path : Path) (asked : Option String) : Prop :=
  ∃ (above : Path) (i : Nat) (parent : Tree) (r : RuleId) (types : List String),
    path = above ++ [i] ∧ t.checkPath path = .ok () ∧ t.subtree? above = some parent ∧
      parent.rule? = some r ∧ g.childTypes r = .ok types ∧ types[i - 1]? = asked

/-- The subtree may stand at the end of the path: its type, if it has one, is asked for there. -/
def FitsAt (g : Grammar) (t : Tree) (path : Path) (subtree : Tree) : Prop :=
  ∃ type, AsksFor g t path (some type) ∧
    ∀ found, g.nodeType subtree = .ok (some found) → found = type

/-- Why a subtree cannot stand at the end of a path. Each reason applies when those before it do not. -/
inductive ReplaceFault (g : Grammar) (t : Tree) (path : Path) (subtree : Tree) : GrammarError → Prop
  /-- The root has no place. -/
  | emptyPath (hpath : path = []) : ReplaceFault g t path subtree .emptyPath
  /-- The path leads to no node. -/
  | invalidPath {fault : PathFault} (hfault : t.pathFault? path = some fault) :
    ReplaceFault g t path subtree (.invalidPath path fault)
  /-- The rule of the parent asks for fewer children. -/
  | pastArity (hasked : AsksFor g t path none) :
    ReplaceFault g t path subtree (.invalidPath path .pastArity)
  /-- The subtree has another type. -/
  | typeMismatch {type found : String} (hasked : AsksFor g t path (some type))
    (hfound : g.nodeType subtree = .ok (some found)) (hne : type ≠ found) :
    ReplaceFault g t path subtree (.typeMismatch path type found)

/-- A tree of live rules has a type, or is a hole without candidates. -/
theorem isOk_nodeType (hlive : ∀ x ∈ subtree.mentionedRules, g.isLive x = true) :
    ∃ found, g.nodeType subtree = .ok found := by
  have hrule (x : RuleId) (hx : x ∈ subtree.mentionedRules) :
      ∃ type, (do return some (← g.returnType x) : Except Failure (Option String)) = .ok type := by
    obtain ⟨rule, hr⟩ := isLive_iff.mp (hlive x hx)
    rw [returnType_eq_ok_iff.mpr ⟨rule, hr, rfl⟩]
    exact ⟨some rule.type, rfl⟩
  cases subtree with
  | apply x children => exact hrule x (Tree.mem_mentionedRules_of_rule? rfl)
  | immediate x value => exact hrule x (Tree.mem_mentionedRules_of_rule? rfl)
  | hole hole =>
    rw [nodeType]
    split
    · rename_i x hfirst
      exact hrule x (BitSet.mem_rules.mpr (BitSet.containsRule_of_firstRule? hfirst))
    · exact ⟨none, rfl⟩

/-- In a tree of live rules something or nothing is asked for at every path below the root. -/
theorem exists_asksFor (hlive : ∀ x ∈ t.mentionedRules, g.isLive x = true) (hroot : path ≠ [])
    (hpath : t.pathFault? path = none) : ∃ asked, AsksFor g t path asked := by
  obtain ⟨ctx, node, rfl, rfl⟩ := Tree.exists_context hpath
  rcases List.eq_nil_or_concat' ctx with rfl | ⟨outer, f, rfl⟩
  · exact absurd rfl hroot
  · have hcheck := Context.checkPath_plug (outer ++ [f]) node
    rw [Context.plug_append] at hlive hcheck ⊢
    rw [Context.path_append] at hcheck ⊢
    have hmentioned := Context.mem_mentionedRules_plug outer
      (Tree.mem_mentionedRules_of_rule? (t := f.plug node) rfl)
    obtain ⟨rule, hr⟩ := isLive_iff.mp (hlive f.rule hmentioned)
    exact ⟨_, Context.path outer, f.index, f.plug node, f.rule, rule.childTypes, rfl, hcheck,
      Context.subtree?_plug outer _, rfl, childTypes_of_ruleAt? hr, rfl⟩

/-- The type that is expected at a place is the one that its parent asks for. -/
theorem AsksFor.expectedType_eq (h : AsksFor g t path asked) : g.expectedType t path =
    asked.elim (report (.invalidPath path .pastArity)) fun type => .ok (some type) := by
  obtain ⟨above, i, parent, r, types, rfl, hcheck, hparent, hr, htypes, rfl⟩ := h
  obtain ⟨ctx, rfl, rfl⟩ := Tree.exists_context_of_subtree? hparent
  rw [expectedType, List.getLast?_concat, List.dropLast_concat]
  simp only [hcheck, ok_bind, Context.nodeAt_plug, Option.bind_some, hr, htypes]
  cases types[i - 1]? with
  | none => rfl
  | some type => rfl

/-- There is a parent to ask below the root only. -/
theorem AsksFor.isEmpty_ne (h : AsksFor g t path asked) : path.isEmpty ≠ true := by
  obtain ⟨above, i, -, -, -, rfl, -⟩ := h
  simp

/-- A subtree of live rules fits at the end of a path, or there is a reason against it. -/
theorem fits_or_fault (ht : ∀ x ∈ t.mentionedRules, g.isLive x = true)
    (hsubtree : ∀ x ∈ subtree.mentionedRules, g.isLive x = true) (path : Path) :
    FitsAt g t path subtree ∨ ∃ error, ReplaceFault g t path subtree error := by
  by_cases hroot : path = []
  · exact .inr ⟨_, .emptyPath hroot⟩
  cases hfault : t.pathFault? path with
  | some fault => exact .inr ⟨_, .invalidPath hfault⟩
  | none =>
    obtain ⟨asked, hasked⟩ := exists_asksFor ht hroot hfault
    obtain ⟨found, hfound⟩ := isOk_nodeType hsubtree
    cases asked with
    | none => exact .inr ⟨_, .pastArity hasked⟩
    | some type =>
      by_cases hother : ∃ other, found = some other ∧ type ≠ other
      · obtain ⟨other, rfl, hne⟩ := hother
        exact .inr ⟨_, .typeMismatch hasked hfound hne⟩
      · refine .inl ⟨type, hasked, fun other hsame => ?_⟩
        obtain rfl := Except.ok.inj (hfound.symm.trans hsame)
        by_contra hne
        exact hother ⟨other, rfl, Ne.symm hne⟩

/-- A tree that fits at a place is put there, and the former one comes out. -/
theorem replace_of_fitsAt (hsubtree : ∀ x ∈ subtree.mentionedRules, g.isLive x = true)
    (h : FitsAt g t path subtree) : ∃ t' old, ReplacedAt t path old subtree t' ∧
      g.replace t path subtree = .done t' old := by
  obtain ⟨type, hasked, hfits⟩ := h
  obtain ⟨found, hfound⟩ := isOk_nodeType hsubtree
  have hexpected : g.expectedType t path = .ok (some type) := hasked.expectedType_eq
  have htypes : checkTypes path (some type) found = .ok () := by
    cases found with
    | none => rfl
    | some other => exact if_pos (hfits other hfound).symm
  have hroot := hasked.isEmpty_ne
  obtain ⟨-, -, -, -, -, -, hcheck, -⟩ := hasked
  obtain ⟨ctx, old, rfl, rfl⟩ := Tree.exists_context_of_checkPath hcheck
  refine ⟨ctx.plug subtree, old, ⟨ctx, rfl, rfl, rfl⟩, ?_⟩
  rw [replace, if_neg hroot, hexpected, ok_bind, hfound, ok_bind, htypes]
  exact ctx.swap_plug old subtree (by simpa using hroot)

/-- With a fault the replacement is refused. -/
theorem ReplaceFault.replace_eq (h : ReplaceFault g t path subtree error) :
    g.replace t path subtree = .refused t error := by
  cases h with
  | emptyPath hpath =>
    rw [replace, hpath]
    rfl
  | invalidPath hfault =>
    rcases List.eq_nil_or_concat' path with rfl | ⟨above, i, rfl⟩
    · cases hfault
    · rw [replace, if_neg (by simp), expectedType, List.getLast?_concat, Tree.checkPath, hfault]
      rfl
  | pastArity hasked =>
    have hexpected : g.expectedType t path = report (.invalidPath path .pastArity) :=
      hasked.expectedType_eq
    rw [replace, if_neg hasked.isEmpty_ne, hexpected]
    rfl
  | @typeMismatch type found hasked hfound hne =>
    have hexpected : g.expectedType t path = .ok (some type) := hasked.expectedType_eq
    rw [replace, if_neg hasked.isEmpty_ne, hexpected, ok_bind, hfound, ok_bind, checkTypes,
      if_neg hne]
    rfl

/-! ### All operations -/

/-- What rewriting at a path does and when it is legal. -/
structure RewritesLegally (g : Grammar) (t : Tree) (path : Path) (subtree : Tree) : Prop where
  /-- An ordinary rule of the table opens a hole for each of its children in place of a hole that it is
  a candidate of. -/
  expand : ∀ r, r.index < g.size → AllOrNothing t (∃ hole, Committable g t path r false hole)
    (CommitFault g t path r false)
    (fun t' _ => ∃ hole node, FreshNode g r node ∧ ReplacedAt t path (.hole hole) node t')
    (g.expand t path r)
  /-- An immediate rule of the table puts its literal in place of a hole that it is a candidate of. -/
  fillImmediate : ∀ r value, r.index < g.size →
    AllOrNothing t (∃ hole, Committable g t path r true hole) (CommitFault g t path r true)
      (fun t' _ => ∃ hole, ReplacedAt t path (.hole hole) (.immediate r value) t')
      (g.fillImmediate t path r value)
  /-- No commit asks for a type that is not known. -/
  knows_types : ∀ r value type, r.index < g.size →
    (g.expand t path r).result ≠ report (.unknownType type) ∧
      (g.fillImmediate t path r value).result ≠ report (.unknownType type)
  /-- A subtree of the type that is asked for takes the place of the node at the path, and the answer is
  that node. -/
  replace : AllOrNothing t (FitsAt g t path subtree) (ReplaceFault g t path subtree)
    (fun t' old => ReplacedAt t path old subtree t') (g.replace t path subtree)
  /-- Every legal rule of a hole can be committed to it. -/
  legal : ∀ legal r, g.legalDomain t path = .ok legal → legal.containsRule r = true →
    CanCommit g t path r

/-- In a grammar that can come about, with trees of live rules, committing a rule to a hole and putting
a subtree in the place of a node are all or nothing: they succeed exactly when they are legal, report
the first reason against them otherwise, and then change nothing. The legal rules of a hole can be
committed to it. -/
theorem Reachable.rewrites_legally (h : Reachable g)
    (ht : ∀ x ∈ t.mentionedRules, g.isLive x = true)
    (hsubtree : ∀ x ∈ subtree.mentionedRules, g.isLive x = true) (path : Path) :
    RewritesLegally g t path subtree where
  expand _ hr := h.consistent.allOrNothing_expand hr t path
  fillImmediate _ value hr := allOrNothing_fillImmediate hr t path value
  knows_types _ value type hr :=
    ⟨(h.consistent.allOrNothing_expand hr t path).result_ne (not_commitFault_unknownType type),
      (allOrNothing_fillImmediate hr t path value).result_ne (not_commitFault_unknownType type)⟩
  replace :=
    .of_cases (fits_or_fault ht hsubtree path) (replace_of_fitsAt hsubtree) fun _ hfault =>
      hfault.replace_eq
  legal _ _ hlegal hr := h.consistent.canCommit_of_legalDomain ht hlegal hr

/-- Sums and comparisons of numbers that are drawn, after the one was taken out. -/
def drawnComparisons : Grammar :=
  ((comparisons.addImmediateRule "N" (.call "draw" [])).state.removeRule ⟨0⟩).state

/-- The open side of a comparison takes a sum and a drawn number, the latter with a literal only. It
takes neither the one that was taken out nor a comparison, and a comparison cannot replace it. -/
theorem drawnComparisons_rewrites_legally :
    let t : Tree := .apply ⟨2⟩ [.unexpanded (.ofRules [⟨1⟩, ⟨3⟩]), .immediate ⟨3⟩ (.int 5)]
    let subtree : Tree := .unexpanded (.ofRules [⟨2⟩])
    Reachable drawnComparisons ∧ (∀ x ∈ t.mentionedRules, drawnComparisons.isLive x = true) ∧
      (∀ x ∈ subtree.mentionedRules, drawnComparisons.isLive x = true) ∧
      RewritesLegally drawnComparisons t [1] subtree ∧
      (drawnComparisons.expand t [1] ⟨0⟩).result = report (.removedRule ⟨0⟩) ∧
      (drawnComparisons.expand t [1] ⟨2⟩).result =
        report (.ruleNotInDomain ⟨2⟩ (.ofRules [⟨1⟩, ⟨3⟩])) ∧
      (drawnComparisons.expand t [1] ⟨3⟩).result = report (.needsValue ⟨3⟩) ∧
      (drawnComparisons.replace t [1] subtree).result = report (.typeMismatch [1] "N" "B") ∧
      CanCommit drawnComparisons t [1] ⟨1⟩ ∧ CanCommit drawnComparisons t [1] ⟨3⟩ := by
  intro t subtree
  have hreachable : Reachable drawnComparisons :=
    (((Reachable.empty.addRules _ _).addRule _ _).addImmediateRule _ _).removeRule _
  have ht : ∀ x ∈ t.mentionedRules, drawnComparisons.isLive x = true := by
    have hmentioned : t.mentionedRules = [⟨2⟩, ⟨1⟩, ⟨3⟩, ⟨3⟩] := by cbv
    rw [hmentioned]
    simp only [List.forall_mem_cons]
    exact ⟨by cbv, by cbv, by cbv, by cbv, List.forall_mem_nil _⟩
  have hsubtree : ∀ x ∈ subtree.mentionedRules, drawnComparisons.isLive x = true := by
    have hmentioned : subtree.mentionedRules = [⟨2⟩] := by cbv
    rw [hmentioned]
    exact List.forall_mem_singleton.mpr (by cbv)
  have hrewrites := hreachable.rewrites_legally ht hsubtree [1]
  have hsize (r : RuleId) (hr : r.index < 4) : r.index < drawnComparisons.size := by
    have hfour : drawnComparisons.size = 4 := by cbv
    rwa [hfour]
  have hlegal : drawnComparisons.legalDomain t [1] = .ok (.ofRules [⟨1⟩, ⟨3⟩]) := by cbv
  refine ⟨hreachable, ht, hsubtree, hrewrites, ?_, ?_, ?_, ?_, hrewrites.legal _ _ hlegal (by cbv),
    hrewrites.legal _ _ hlegal (by cbv)⟩
  · exact ((hrewrites.expand ⟨0⟩ (hsize _ (by decide))).error_iff _).mpr
      ⟨_, .check (.removedRule rfl (by cbv)), rfl⟩
  · exact ((hrewrites.expand ⟨2⟩ (hsize _ (by decide))).error_iff _).mpr
      ⟨_, .check (.ruleNotInDomain rfl (by cbv) (by cbv)), rfl⟩
  · exact ((hrewrites.expand ⟨3⟩ (hsize _ (by decide))).error_iff _).mpr
      ⟨_, .needsValue rfl ⟨rfl, by cbv, by cbv, by cbv⟩, rfl⟩
  · refine (hrewrites.replace.error_iff _).mpr ⟨_, .typeMismatch ?_ (by cbv) (by decide), rfl⟩
    exact ⟨[], 1, t, ⟨2⟩, ["N", "N"], rfl, rfl, rfl, rfl, by cbv, rfl⟩

end TypedGrammar.Grammar
