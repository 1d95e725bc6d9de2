import Mathlib
import TypedGrammar.Grammar.Probability
import TypedGrammar.Proofs.Derivation.Renaming
import TypedGrammar.Proofs.Grammar.Compacting

/-!
# Compacting only renames

`OnlyRenames` says what a compacted grammar has in common with the one before. The mapping moves the rules
up in order, what is known about a rule goes along with it, and every algorithm on derivations gives the
renamed result.
-/

namespace TypedGrammar.Grammar

variable {g g' : Grammar} {f : RuleId → RuleId} {r : RuleId} {rule : Rule}
  {mapping : List (Option RuleId)}

/-! ### Log-probabilities -/

/-- The result of two steps is that of the second on what the first gives. -/
theorem result_bind {α β : Type} (first : Logged α) (next : α → Logged β) :
    (first >>= next).result = first.result >>= fun a => (next a).result := by
  change (first.andThen next).result = _
  unfold Logged.andThen
  split
  · rename_i a hfirst
    rw [hfirst]
    rfl
  · rename_i failure hfirst
    rw [hfirst]
    rfl

/-- The log-probability of a rule is the one stored, or else the uniform one of its type. -/
theorem Indexed.result_logProbability (hg : Indexed g) (hr : g.ruleAt? r = some rule) :
    (g.logProbability r).result = .ok (match g.storedWeight? r with
      | some w => .exact w
      | none => .estimated (uniformLog (listed g.types rule.type).length)) := by
  have htype : (Logged.ofResult (g.returnType r)).result = .ok rule.type :=
    returnType_eq_ok_iff.mpr ⟨rule, hr, rfl⟩
  rw [logProbability, result_bind, htype, ok_bind, storedWeight?]
  cases hws : g.weights with
  | none =>
    obtain ⟨entry, hentry⟩ := Option.isSome_iff_exists.mp (hg.hasType_of_ruleAt? hr)
    rw [listed_of_get? hentry, show g.types.get? rule.type = some entry from hentry]
    rfl
  | some ws =>
    have hlt : r.index < ws.size := hg.weights_size ws hws ▸ index_lt_of_ruleAt? hr
    have hw : ws[r.index]? = some ws[r.index] := Array.getElem?_eq_getElem hlt
    have hstored : (Logged.ofResult (weightAt ws r)).result = .ok ws[r.index] := by
      rw [weightAt_eq_ok_iff.mpr hw]
      rfl
    dsimp only
    rw [result_bind, hstored, Option.bind_some, hw]
    rfl

/-- A rule keeps its log-probability, be it stored or assumed. -/
theorem Consistent.logProbability_compacted (hg : Consistent g) (hr : g.isLive r = true) :
    (g.compacted.logProbability (renamed g.movedNames r)).result = (g.logProbability r).result := by
  obtain ⟨rule, hrule⟩ := isLive_iff.mp hr
  rw [hg.compacted.result_logProbability (hg.ruleAt?_compacted hrule), hg.result_logProbability hrule,
    hg.storedWeight?_compacted hr, hg.listed_compacted, List.length_map]

/-! ### Only renaming -/

/-- The second grammar is the first one with its rules moved up by the mapping, and it computes what the
first one computes. -/
structure OnlyRenames (g g' : Grammar) (mapping : List (Option RuleId)) : Prop where
  /-- The mapping has an entry for each row. -/
  length_eq : mapping.length = g.size
  /-- The rows without a new name are those that were taken out. -/
  gap_iff : ∀ r : RuleId, mapping[r.index]? = some none ↔ g.isRemoved r = .ok true
  /-- The other rules have the name that renaming gives them. -/
  entry : ∀ r : RuleId, g.isLive r = true → mapping[r.index]? = some (some (renamed mapping r))
  /-- The new names are in the order of the old ones. -/
  increasing : ∀ r s r' s' : RuleId, mapping[r.index]? = some (some r') →
    mapping[s.index]? = some (some s') → r < s → r' < s'
  /-- Their numbers are those from one to the number of rules. -/
  number_iff : ∀ n, (∃ r r' : RuleId, mapping[r.index]? = some (some r') ∧ r'.number = n) ↔
    1 ≤ n ∧ n ≤ g.liveCount
  /-- The table has as many rows as there were rules. -/
  size_eq : g'.size = g.liveCount
  /-- None of them is a gap. -/
  full : ∀ r : RuleId, r.index < g'.size → g'.isRemoved r = .ok false
  /-- The answers about a rule are the same. -/
  answers : ∀ r r' : RuleId, mapping[r.index]? = some (some r') → g'.body r' = g.body r ∧
    g'.returnType r' = g.returnType r ∧ g'.isImmediate r' = g.isImmediate r ∧
    g'.isTerminal r' = g.isTerminal r ∧ g'.childTypes r' = g.childTypes r ∧
    g'.symbolKinds r' = g.symbolKinds r ∧ (g'.logProbability r').result = (g.logProbability r).result
  typeNames_eq : g'.typeNames = g.typeNames
  /-- The rules of a type are the renamed ones. -/
  rulesOfType_eq : ∀ type, g'.rulesOfType type = List.map (renamed mapping) <$> g.rulesOfType type
  /-- So is their set. -/
  domain_eq : ∀ type, g'.domain type = BitSet.mapRules (renamed mapping) <$> g.domain type
  symbols_eq : g'.symbols = g.symbols
  /-- The constraints are left as they are. -/
  constraints_eq : g'.constraints = g.constraints
  countDerivations_eq : ∀ type depth, g'.countDerivations type depth = g.countDerivations type depth
  /-- The derivation that is found is the renamed one, if there is any. -/
  oneDerivation_eq : ∀ type depth, g'.oneDerivation type depth =
    Option.map (Tree.mapRules (renamed mapping)) <$> g.oneDerivation type depth
  /-- The tree that is found for an expression is the renamed one, if there is any. -/
  fromExpression_eq : ∀ e type, g'.fromExpression e type =
    Tree.mapRules (renamed mapping) <$> g.fromExpression e type
  /-- A renamed tree stands for the same expression. -/
  toExpression_eq : ∀ t : Tree, (∀ r ∈ t.mentionedRules, g.isLive r = true) →
    g'.toExpression (t.mapRules (renamed mapping)) = g.toExpression t
  /-- A renamed tree is complete when the tree is. -/
  isComplete_eq : ∀ t : Tree, (∀ r ∈ t.mentionedRules, g.isLive r = true) →
    g'.isComplete (t.mapRules (renamed mapping)) = g.isComplete t
  /-- An expansion that succeeds succeeds on the renamed tree, and gives the renamed tree. -/
  expand_eq : ∀ t path r, (g.expand t path r).result = .ok () →
    g'.expand (t.mapRules (renamed mapping)) path (renamed mapping r) =
      .done ((g.expand t path r).state.mapRules (renamed mapping)) ()
  /-- Compacting again changes nothing. -/
  again : g'.compact = .done g' ((List.range g'.size).map fun i => some ⟨i⟩)

/-- Compacting a grammar that can come about succeeds, and it only renames the rules. -/
theorem Reachable.compact_only_renames (h : Reachable g) :
    ∃ mapping, g.compact.result = .ok mapping ∧ OnlyRenames g g.compact.state mapping := by
  have hg := h.consistent
  have hrenames := hg.compacted_renames
  have hcompact := hg.compact_eq
  have hresult : g.compact.result = .ok g.movedNames := congrArg Edit.result hcompact
  have hstate : g.compact.state = g.compacted := congrArg Edit.state hcompact
  refine ⟨g.movedNames, hresult, ?_⟩
  rw [hstate]
  exact {
    length_eq := length_renumbering 0 g.rows.toList
    gap_iff := fun _ => gap_iff_movedNames
    entry := fun _ hr => entry_of_isLive hr
    increasing := fun r s r' s' hr hs hlt => by
      obtain ⟨hlive, rfl⟩ := of_entry hr
      obtain ⟨hlive', rfl⟩ := of_entry hs
      exact renamed_movedNames_lt hlive hlive' hlt
    number_iff := number_iff_movedNames g
    size_eq := size_compacted g
    full := fun _ => isRemoved_compacted
    answers := fun r r' hr => by
      obtain ⟨hlive, rfl⟩ := of_entry hr
      exact ⟨hrenames.body_image hlive, hrenames.returnType_image hlive,
        hrenames.isImmediate_image hlive, hrenames.isTerminal_image hlive,
        hrenames.childTypes_image hlive, hrenames.symbolKinds_image hlive,
        hg.logProbability_compacted hlive⟩
    typeNames_eq := hrenames.typeNames_eq
    rulesOfType_eq := hrenames.rulesOfType_eq
    domain_eq := hrenames.domain_eq hg
    symbols_eq := rfl
    constraints_eq := rfl
    countDerivations_eq := hrenames.countDerivations_eq hg
    oneDerivation_eq := hrenames.oneDerivation_eq hg
    fromExpression_eq := hrenames.fromExpression_eq hg
    toExpression_eq := hrenames.toExpression_eq
    isComplete_eq := hrenames.isComplete_eq
    expand_eq := fun _ _ _ => hrenames.expand_eq hg
    again := hg.compact_compacted }

/-- Sums of ones move up by one when the gap before them is closed. -/
theorem flatSums_compact_only_renames : Reachable flatSums ∧
    flatSums.compact.result = .ok [none, some ⟨0⟩, some ⟨1⟩] ∧
    OnlyRenames flatSums flatSums.compact.state [none, some ⟨0⟩, some ⟨1⟩] := by
  have hsums : Reachable flatSums := ((Reachable.empty.addRules _ _).removeRule _).addConstraint _
  have hmapping : flatSums.compact.result = .ok [none, some ⟨0⟩, some ⟨1⟩] := by cbv
  obtain ⟨mapping, hresult, hrenames⟩ := hsums.compact_only_renames
  obtain rfl := Except.ok.inj (hmapping.symm.trans hresult)
  exact ⟨hsums, hmapping, hrenames⟩

end TypedGrammar.Grammar
