import Mathlib
import TypedGrammar.Derivation.Count
import TypedGrammar.Derivation.Expression
import TypedGrammar.Derivation.Parse
import TypedGrammar.Derivation.Score
import TypedGrammar.Derivation.Witness
import TypedGrammar.Proofs.Constraint.Retargeting
import TypedGrammar.Proofs.Grammar.Renaming

/-!
# Derivations in a grammar with renamed rules

What the algorithms compute in a grammar with renamed rules is what they compute in the grammar itself,
renamed. Rules are tried in the order of their names, and a renaming that keeps this order keeps which of
them comes first.
-/

namespace TypedGrammar.Grammar

variable {f : RuleId → RuleId} {g g' : Grammar} {r : RuleId} {rules : List RuleId}

/-! ### Counting -/

section Count

variable (h : Renames f g g')

include h

/-- The sum over renamed rules is the same. -/
theorem Renames.countSum_eq (count : String → CountMemo → Except Failure (Nat × CountMemo))
    (memo : CountMemo) (hlive : ∀ r ∈ rules, g.isLive r = true) :
    countSum g' count memo (rules.map f) = countSum g count memo rules := by
  induction rules generalizing memo with
  | nil => rfl
  | cons r rest ih =>
    obtain ⟨hr, hrest⟩ := List.forall_mem_cons.mp hlive
    simp only [List.map_cons, countSum, h.childTypes_image hr, ih _ hrest]

/-- The count for a type is the same, and so is what is remembered. -/
theorem Renames.countType_eq (hg : Consistent g) (depth : Nat) (type : String) (memo : CountMemo) :
    g'.countType depth type memo = g.countType depth type memo := by
  induction depth generalizing type memo with
  | zero => rfl
  | succ depth ih =>
    have hcallee : g'.countType depth = g.countType depth := by
      funext type memo
      exact ih type memo
    rw [countType, countType, hcallee, h.rulesOrNone_eq,
      h.countSum_eq _ _ (hg.isLive_of_rulesOrNone type)]

/-- The number of derivations does not depend on the names of the rules. -/
theorem Renames.countDerivations_eq (hg : Consistent g) (type : String) (depth : Nat) :
    g'.countDerivations type depth = g.countDerivations type depth := by
  rw [countDerivations, countDerivations, h.hasType_eq, h.countType_eq hg]

end Count

/-! ### One derivation -/

section Find

variable {find find' : String → DeadEnds → Except Failure (Option Tree × DeadEnds)}

/-- The outcome of a search for a tree with the rules renamed. -/
def renameFound (f : RuleId → RuleId) (found : Option Tree × DeadEnds) : Option Tree × DeadEnds :=
  (found.1.map (Tree.mapRules f), found.2)

/-- Children that are found one by one are renamed one by one. -/
theorem findChildren_renamed (hfind : ∀ type dead, find' type dead = renameFound f <$> find type dead)
    (dead : DeadEnds) (types : List String) :
    findChildren find' dead types =
      (fun found => (found.1.map (List.map (Tree.mapRules f)), found.2)) <$>
        findChildren find dead types := by
  induction types generalizing dead with
  | nil => rfl
  | cons type rest ih =>
    simp only [findChildren, hfind, bind_map_left, map_bind]
    refine bind_congr fun found => ?_
    obtain ⟨found, dead'⟩ := found
    cases found with
    | none => rfl
    | some t =>
      simp only [renameFound, Option.map_some, ih, bind_map_left, map_bind]
      refine bind_congr fun others => ?_
      cases others.1 <;> rfl

variable (h : Renames f g g')

include h

/-- The first rule whose children are found is the renamed one. The dead ends that are met stay, as they
are types, which have no new names. -/
theorem Renames.findRuleNode_eq
    (hfind : ∀ type dead, find' type dead = renameFound f <$> find type dead) (dead : DeadEnds)
    (hlive : ∀ r ∈ rules, g.isLive r = true) :
    findRuleNode g' find' dead (rules.map f) = renameFound f <$> findRuleNode g find dead rules := by
  induction rules generalizing dead with
  | nil => rfl
  | cons r rest ih =>
    obtain ⟨hr, hrest⟩ := List.forall_mem_cons.mp hlive
    simp only [List.map_cons, findRuleNode, h.isImmediate_image hr, h.childTypes_image hr, map_bind,
      findChildren_renamed hfind, bind_map_left]
    refine bind_congr fun immediate => ?_
    cases immediate with
    | true => exact ih dead hrest
    | false =>
      simp only [Bool.false_eq_true, if_false, map_bind]
      refine bind_congr fun types => bind_congr fun found => ?_
      obtain ⟨children, dead'⟩ := found
      cases children with
      | none => exact ih dead' hrest
      | some children =>
        simp [renameFound, Tree.mapRules, Tree.mapRulesOfAll_eq]

/-- What is found for a type is the renamed tree, with the same dead ends. -/
theorem Renames.findType_eq (hg : Consistent g) (depth : Nat) (type : String) (dead : DeadEnds) :
    g'.findType depth type dead = renameFound f <$> g.findType depth type dead := by
  induction depth generalizing type dead with
  | zero => rfl
  | succ depth ih =>
    rw [findType, findType]
    split
    · rfl
    · rw [h.rulesOrNone_eq, h.findRuleNode_eq ih dead (hg.isLive_of_rulesOrNone type),
        bind_map_left, map_bind]
      refine bind_congr fun found => ?_
      obtain ⟨found, dead'⟩ := found
      cases found <;> rfl

/-- The derivation that is found is the renamed one. -/
theorem Renames.oneDerivation_eq (hg : Consistent g) (type : String) (depth : Nat) :
    g'.oneDerivation type depth = Option.map (Tree.mapRules f) <$> g.oneDerivation type depth := by
  rw [oneDerivation, oneDerivation, h.hasType_eq]
  split
  · rw [h.findType_eq hg, bind_map_left, map_bind]
    rfl
  · rfl

end Find

/-! ### Parsing -/

/-- Where a body has no placeholder there is nothing to rename. -/
theorem answer_without_children (p : Prop) [Decidable p] :
    (.ok (if p then some [] else none) : Except Failure (Option (List Tree))) =
      Option.map (List.map (Tree.mapRules f)) <$> .ok (if p then some [] else none) := by
  split <;> rfl

section Parse

variable {matchType matchType' : String → Expr → List String → Except Failure (Option Tree)}

mutual

/-- The children that fill a body are renamed. -/
theorem Renames.matchBody_eq (h : Renames f g g') (hmatch : ∀ type e visiting,
      matchType' type e visiting = Option.map (Tree.mapRules f) <$> matchType type e visiting) :
    ∀ (body e : Expr) (visiting : List String),
    matchBody g' matchType' body e visiting =
      Option.map (List.map (Tree.mapRules f)) <$> matchBody g matchType body e visiting
  | .sym name, e, visiting => by
    rw [matchBody.eq_def, matchBody.eq_def]
    dsimp only
    rw [h.hasType_eq]
    split
    · simp only [hmatch, bind_map_left, map_bind]
      refine bind_congr fun found => ?_
      cases found <;> rfl
    · cases e with
      | lit value =>
        dsimp only
        rw [h.symbols_eq]
        exact answer_without_children _
      | sym other => exact answer_without_children _
      | call op args => exact answer_without_children _
  | .call op args, .call op' args', visiting => by
    rw [matchBody, matchBody]
    split
    · exact h.matchArgs_eq hmatch args args'
    · rfl
  | .call op args, .lit value, visiting => rfl
  | .call op args, .sym name, visiting => rfl
  | .lit value, e, visiting => by
    rw [matchBody, matchBody]
    exact answer_without_children _

/-- Matching arguments gives the renamed trees when matching by a type does. -/
theorem Renames.matchArgs_eq (h : Renames f g g') (hmatch : ∀ type e visiting,
      matchType' type e visiting = Option.map (Tree.mapRules f) <$> matchType type e visiting) :
    ∀ args others : List Expr,
    matchArgs g' matchType' args others =
      Option.map (List.map (Tree.mapRules f)) <$> matchArgs g matchType args others
  | [], others => by
    rw [matchArgs, matchArgs]
    rfl
  | arg :: rest, [] => rfl
  | arg :: rest, e :: others => by
    rw [matchArgs, matchArgs, h.matchBody_eq hmatch arg e [], bind_map_left, map_bind]
    refine bind_congr fun found => ?_
    cases found with
    | none => rfl
    | some children =>
      simp only [Option.map_some, h.matchArgs_eq hmatch rest others, bind_map_left, map_bind]
      refine bind_congr fun found => ?_
      cases found with
      | none => rfl
      | some trees => simp

end

variable (h : Renames f g g')

include h

/-- The first rule whose body matches is the renamed one. -/
theorem Renames.matchOrdinary_eq (hmatch : ∀ type e visiting,
      matchType' type e visiting = Option.map (Tree.mapRules f) <$> matchType type e visiting)
    (e : Expr) (visiting : List String) (hlive : ∀ r ∈ rules, g.isLive r = true) :
    matchOrdinary g' matchType' e visiting (rules.map f) =
      Option.map (Tree.mapRules f) <$> matchOrdinary g matchType e visiting rules := by
  induction rules with
  | nil => rfl
  | cons r rest ih =>
    obtain ⟨hr, hrest⟩ := List.forall_mem_cons.mp hlive
    simp only [List.map_cons, matchOrdinary, h.isImmediate_image hr, h.body_image hr, map_bind,
      h.matchBody_eq hmatch, bind_map_left]
    refine bind_congr fun immediate => ?_
    cases immediate with
    | true => exact ih hrest
    | false =>
      simp only [Bool.false_eq_true, if_false, map_bind]
      refine bind_congr fun body => bind_congr fun found => ?_
      cases found with
      | none => exact ih hrest
      | some children => simp [Tree.mapRules, Tree.mapRulesOfAll_eq]

/-- The first immediately evaluated rule is the renamed one. -/
theorem Renames.firstImmediate?_eq (hlive : ∀ r ∈ rules, g.isLive r = true) :
    g'.firstImmediate? (rules.map f) = Option.map f <$> g.firstImmediate? rules := by
  induction rules with
  | nil => rfl
  | cons r rest ih =>
    obtain ⟨hr, hrest⟩ := List.forall_mem_cons.mp hlive
    rw [List.map_cons, firstImmediate?, firstImmediate?, h.isImmediate_image hr, map_bind]
    refine bind_congr fun immediate => ?_
    cases immediate with
    | true => rfl
    | false => exact ih hrest

/-- A literal is matched by the renamed rule. -/
theorem Renames.matchImmediate_eq (e : Expr) (hlive : ∀ r ∈ rules, g.isLive r = true) :
    g'.matchImmediate (rules.map f) e =
      Option.map (Tree.mapRules f) <$> g.matchImmediate rules e := by
  cases e with
  | lit value =>
    rw [matchImmediate, matchImmediate, h.firstImmediate?_eq hlive, bind_map_left, map_bind]
    refine bind_congr fun found => ?_
    cases found <;> rfl
  | sym name => rfl
  | call op args => rfl

/-- A search for a type finds the renamed tree. -/
theorem Renames.matchType_eq (hg : Consistent g) (fuel : Nat) (type : String) (e : Expr)
    (visiting : List String) : g'.matchType fuel type e visiting =
      Option.map (Tree.mapRules f) <$> g.matchType fuel type e visiting := by
  induction fuel generalizing type e visiting with
  | zero => rfl
  | succ fuel ih =>
    rw [matchType, matchType, h.get?_eq]
    split
    · rfl
    · cases hentry : g.types.get? type with
      | none => rfl
      | some entry =>
        have hlive := hg.isLive_of_entry hentry
        simp only [Option.map_some, h.matchOrdinary_eq ih e _ hlive, h.matchImmediate_eq e hlive,
          bind_map_left, map_bind]
        refine bind_congr fun found => ?_
        cases found <;> rfl

/-- The tree that is found for an expression is the renamed one, and so is the failure to find one. -/
theorem Renames.fromExpression_eq (hg : Consistent g) (e : Expr) (type : String) :
    g'.fromExpression e type = Tree.mapRules f <$> g.fromExpression e type := by
  rw [fromExpression, fromExpression, h.hasType_eq, parseFuel, parseFuel, h.size_types_eq]
  split
  · rw [h.matchType_eq hg, bind_map_left, map_bind]
    refine bind_congr fun found => ?_
    cases found <;> rfl
  · rfl

end Parse

/-! ### Expressions and completeness -/

/-- A hole has the type that it had, since its first candidate is the renamed one. -/
theorem Renames.nodeType_hole_eq (h : Renames f g g') {hole : Hole}
    (hlive : ∀ r ∈ (Tree.hole hole).mentionedRules, g.isLive r = true) :
    g'.nodeType (.hole (hole.mapRules f)) = g.nodeType (.hole hole) := by
  have hrules : (hole.domain.mapRules f).rules = hole.domain.rules.map f :=
    BitSet.rules_mapRules fun r hr s hs => h.increasing r s (hlive r hr) (hlive s hs)
  rw [nodeType, nodeType, Hole.mapRules, BitSet.firstRule?, BitSet.firstRule?, hrules, List.head?_map]
  cases hfirst : hole.domain.rules.head? with
  | none => rfl
  | some r =>
    have hr : g.isLive r = true := hlive r (List.mem_of_head? hfirst)
    simp only [Option.map_some, h.returnType_image hr]

mutual

/-- A renamed tree stands for the same expression. -/
theorem Renames.toExpression_eq (h : Renames f g g') : ∀ t : Tree,
    (∀ r ∈ t.mentionedRules, g.isLive r = true) → g'.toExpression (t.mapRules f) = g.toExpression t
  | .apply rule children, hlive => by
    obtain ⟨hrule, hchildren⟩ := List.forall_mem_cons.mp hlive
    rw [Tree.mapRules, toExpression, toExpression, h.symbolKinds_image hrule, h.body_image hrule,
      h.expressionsOf_eq children hchildren]
  | .immediate rule value, _ => rfl
  | .hole hole, hlive => by
    rw [Tree.mapRules, toExpression, toExpression, h.nodeType_hole_eq hlive]

/-- Renamed trees stand for the same expressions. -/
theorem Renames.expressionsOf_eq (h : Renames f g g') : ∀ trees : List Tree,
    (∀ r ∈ Tree.mentionedRulesOfAll trees, g.isLive r = true) →
      g'.expressionsOf (Tree.mapRulesOfAll f trees) = g.expressionsOf trees
  | [], _ => rfl
  | t :: rest, hlive => by
    obtain ⟨ht, hrest⟩ := List.forall_mem_append.mp hlive
    rw [Tree.mapRulesOfAll, expressionsOf, expressionsOf, h.toExpression_eq t ht,
      h.expressionsOf_eq rest hrest]

end

mutual

/-- A renamed tree is complete when the tree is. -/
theorem Renames.isComplete_eq (h : Renames f g g') : ∀ t : Tree,
    (∀ r ∈ t.mentionedRules, g.isLive r = true) → g'.isComplete (t.mapRules f) = g.isComplete t
  | .apply rule children, hlive => by
    obtain ⟨hrule, hchildren⟩ := List.forall_mem_cons.mp hlive
    have hlength : (Tree.mapRulesOfAll f children).length = children.length := by
      rw [Tree.mapRulesOfAll_eq, List.length_map]
    rw [Tree.mapRules, isComplete, isComplete, h.arity_image hrule, hlength,
      h.allComplete_eq children hchildren]
  | .immediate rule value, _ => rfl
  | .hole hole, _ => rfl

/-- Renamed trees are complete when the trees are. -/
theorem Renames.allComplete_eq (h : Renames f g g') : ∀ trees : List Tree,
    (∀ r ∈ Tree.mentionedRulesOfAll trees, g.isLive r = true) →
      g'.allComplete (Tree.mapRulesOfAll f trees) = g.allComplete trees
  | [], _ => rfl
  | t :: rest, hlive => by
    obtain ⟨ht, hrest⟩ := List.forall_mem_append.mp hlive
    rw [Tree.mapRulesOfAll, allComplete, allComplete, h.isComplete_eq t ht,
      h.allComplete_eq rest hrest]

end

/-! ### Expanding -/

/-- A rule that may be committed was not taken out. -/
theorem isLive_of_checkCommit {t : Tree} {path : Path} (h : g.checkCommit t path r = .ok ()) :
    g.isLive r = true := by
  obtain ⟨hole, -, hlive⟩ := bind_eq_ok.mp h
  obtain ⟨removed, hremoved, hcandidate⟩ := bind_eq_ok.mp hlive
  cases removed with
  | false => exact isLive_of_isRemoved hremoved
  | true => cases hcandidate

/-- An expansion that succeeds passed the check and put the node of the expansion in place. -/
theorem of_expand {t : Tree} {path : Path} (h : (g.expand t path r).result = .ok ()) :
    g.checkCommit t path r = .ok () ∧
      ∃ node, g.expansion r = .ok node ∧ g.expand t path r = commit t path node := by
  unfold expand at h ⊢
  dsimp only at h ⊢
  split at h
  · rename_i node hnode
    obtain ⟨⟨⟩, hcheck, hexpansion⟩ := bind_eq_ok.mp hnode
    exact ⟨hcheck, node, hexpansion, rfl⟩
  · cases h

section Expand

variable (h : Renames f g g')

include h

/-- The holes for the children are renamed. -/
theorem Renames.childHoles_eq (hg : Consistent g) (types : List String) :
    g'.childHoles types = List.map (Tree.mapRules f) <$> g.childHoles types := by
  induction types with
  | nil => rfl
  | cons type rest ih =>
    rw [childHoles, childHoles, h.domain_eq hg, ih]
    simp only [bind_map_left, map_bind]
    rfl

/-- The node of an expansion is renamed. -/
theorem Renames.expansion_eq (hg : Consistent g) {node : Tree} (hnode : g.expansion r = .ok node)
    (hr : g.isLive r = true) : g'.expansion (f r) = .ok (node.mapRules f) := by
  obtain ⟨immediate, himmediate, hnode⟩ := bind_eq_ok.mp hnode
  cases immediate with
  | true => cases hnode
  | false =>
    obtain ⟨types, htypes, hnode⟩ := bind_eq_ok.mp hnode
    obtain ⟨children, hchildren, hnode⟩ := bind_eq_ok.mp hnode
    obtain rfl := Except.ok.inj hnode
    rw [expansion, h.isImmediate_image hr, himmediate, h.childTypes_image hr, htypes]
    simp only [ok_bind, h.childHoles_eq hg, hchildren, Tree.mapRules, Tree.mapRulesOfAll_eq]
    rfl

/-- A rule that may be committed may be committed under its new name. -/
theorem Renames.checkCommit_eq {t : Tree} {path : Path} (hcheck : g.checkCommit t path r = .ok ()) :
    g'.checkCommit (t.mapRules f) path (f r) = .ok () := by
  have hr := isLive_of_checkCommit hcheck
  obtain ⟨rule, hrule⟩ := isLive_iff.mp hr
  obtain ⟨ctx, hole, rfl, rfl, hcandidate⟩ := of_checkCommit hcheck
  have hrenamed : (hole.mapRules f).domain.containsRule (f r) = true :=
    BitSet.containsRule_mapRules.mpr ⟨r, hcandidate, rfl⟩
  rw [checkCommit, holeAt_mapRules (holeAt_plug ctx hole), h.isRemoved_image hr,
    isRemoved_of_ruleAt? hrule]
  simp [hrenamed, pure, Except.pure]

/-- An expansion that succeeds succeeds on the renamed tree, and gives the renamed tree. -/
theorem Renames.expand_eq (hg : Consistent g) {t : Tree} {path : Path}
    (hexpand : (g.expand t path r).result = .ok ()) :
    g'.expand (t.mapRules f) path (f r) = .done ((g.expand t path r).state.mapRules f) () := by
  obtain ⟨hcheck, node, hnode, hcommit⟩ := of_expand hexpand
  rw [hcommit, expand, h.checkCommit_eq hcheck, ok_bind,
    h.expansion_eq hg hnode (isLive_of_checkCommit hcheck)]
  obtain ⟨ctx, hole, rfl, rfl, -⟩ := of_checkCommit hcheck
  simp only [commit, Context.editNode_plug, Edit.done, Context.mapRules_plug]
  rw [← Context.path_mapRules f, Context.editNode_plug]
  rfl

end Expand

end TypedGrammar.Grammar
