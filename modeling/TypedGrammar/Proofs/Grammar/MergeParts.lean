import Mathlib
import TypedGrammar.Proofs.Grammar.Distinct
import TypedGrammar.Proofs.Grammar.UniformWeights

/-!
# What a merge comes to

A merge that succeeds appends the rules of the other grammar, computes the index anew, settles the
weights and adds the constraints. When no two rules of the other grammar have the same type and body,
the rules behind the former ones are those that were not known, in their order, and the former ones
stay where they were.
-/

namespace TypedGrammar.Grammar

variable {g g' grown other : Grammar} {r : RuleId} {rule : Rule} {ids : List RuleId}
  {mapping : List (Option RuleId)}

/-! ### The rules that are added -/

/-- The rule of the other grammar has a type and body that this one does not know. -/
def isNew (g other : Grammar) (r : RuleId) : Bool :=
  (other.ruleAt? r).any fun rule => !decide (Knows g rule.type rule.body)

/-- The rules of the other grammar that this one does not know, ascending. -/
def newRules (g other : Grammar) : List RuleId := other.ruleIds.filter (g.isNew other)

/-- A rule before its symbols are resolved. -/
def bare (rule : Rule) : Rule := { rule with kinds := [] }

/-- A gap is not a new rule. -/
theorem isNew_of_gap (hr : other.ruleAt? r = none) : g.isNew other r = false := by
  rw [isNew, hr]
  rfl

/-- A rule is new when its type and body are not known. -/
theorem isNew_of_ruleAt? (hr : other.ruleAt? r = some rule) :
    g.isNew other r = !decide (Knows g rule.type rule.body) := by
  rw [isNew, hr, Option.any_some]

/-- A push makes no other rule known when no two rules have the same type and body. -/
theorem filter_isNew_pushRule (hother : Distinct other) (hr : other.ruleAt? r = some rule)
    (hids : r ∉ ids) (immediate : Bool) (weight : Option Float) :
    ids.filter ((g.pushRule rule.type rule.body immediate weight).2.isNew other) =
      ids.filter (g.isNew other) := by
  refine List.filter_congr fun s hs => ?_
  cases hs' : other.ruleAt? s with
  | none => rw [isNew_of_gap hs', isNew_of_gap hs']
  | some found =>
    have hne : ¬ (found.type = rule.type ∧ found.body = rule.body) := by
      rintro ⟨htype, hbody⟩
      exact hids (hother s r found rule hs' hr htype hbody ▸ hs)
    simp [isNew_of_ruleAt? hs', knows_pushRule_iff, hne]

/-- The rules that are pushed are those that were not known at first, with their weights. -/
theorem Merges.appends (h : Merges other g ids mapping g') (hother : Distinct other)
    (hids : ids.Nodup) :
    g'.rows.toList =
        g.rows.toList ++ (ids.filter (g.isNew other)).map (fun r => (other.ruleAt? r).map bare) ∧
      g'.weights = g.weights.map fun ws =>
        ws ++ ((ids.filter (g.isNew other)).map fun r => (other.storedWeight? r).getD 0.0).toArray := by
  induction h with
  | nil g => simp
  | @gap g _ r _ _ hr _ ih =>
    have hold : g.isNew other r ≠ true := by simp [isNew_of_gap hr]
    rw [List.filter_cons_of_neg hold]
    exact ih (List.nodup_cons.mp hids).2
  | @known g _ r known rule rule' _ _ hr hknown htype hbody _ ih =>
    have hknows : Knows g rule.type rule.body := ⟨known, rule', hknown, htype, hbody⟩
    have hold : g.isNew other r ≠ true := by simp [isNew_of_ruleAt? hr, hknows]
    rw [List.filter_cons_of_neg hold]
    exact ih (List.nodup_cons.mp hids).2
  | @pushed g _ r rule _ _ hr hnew _ _ ih =>
    obtain ⟨hr', hrest⟩ := List.nodup_cons.mp hids
    obtain ⟨hrows, hweights⟩ := ih hrest
    rw [filter_isNew_pushRule hother hr hr'] at hrows hweights
    rw [List.filter_cons_of_pos (by simp [isNew_of_ruleAt? hr, hnew]), hrows, hweights]
    constructor
    · simp [pushRule, hr, bare]
    · cases hg : g.weights with
      | none => simp [pushRule, hg]
      | some ws => simp [pushRule, hg]

/-! ### What a merge comes to -/

/-- What a merge that succeeds comes to: the rules are appended, the weights are settled, and the
constraints are added to what that gives. -/
structure MergeParts (g other : Grammar) (mapping : List (Option RuleId)) (grown : Grammar) :
    Prop where
  agree : g.isProbabilistic = other.isProbabilistic ∨ other.isEmpty = true ∨ g.isEmpty = true
  checked : other.checkConstraints other.constraints = .ok ()
  merges : Merges other (g.mergeStart other) ((List.range other.size).map RuleId.mk) mapping grown
  weighted : (g.mergeWeighted other grown).result = .ok ()
  state_eq : (g.merge other).state = { (g.mergeWeighted other grown).state with
    constraints := addNewConstraints (g.mergeWeighted other grown).state.constraints
      (other.constraints.map (Constraint.mapRules (renamed mapping))) }

/-- A merge that succeeds has these parts. -/
theorem Consistent.mergeParts (hg : Consistent g) (h : (g.merge other).result = .ok mapping) :
    ∃ grown, MergeParts g other mapping grown := by
  have hmerge := merge_eq g other
  rw [hmerge] at h
  split at h
  · cases h
  · rename_i hagree
    split at h
    · cases h
    · rename_i hchecked
      split at h
      · cases h
      · rename_i mapping' grown hrows
        split at h
        · cases h
        · rename_i hweighted
          cases h
          rw [if_neg hagree, hchecked, hrows] at hmerge
          simp only [hweighted] at hmerge
          rw [weightedRows_eq] at hrows
          exact ⟨grown, modes_agree_iff.mp (Bool.eq_false_iff.mpr hagree), hchecked,
            (hg.mergeStart other).merges hrows, hweighted, by rw [hmerge]; rfl⟩

/-! ### The table after a merge -/

/-- Setting the mode of a merge does not change which rules are new. -/
theorem isNew_mergeStart (g other : Grammar) :
    (g.mergeStart other).isNew other = g.isNew other := by
  have hknows : ∀ type body, Knows (g.mergeStart other) type body ↔ Knows g type body := by
    simp only [Knows, ruleAt?_mergeStart, implies_true]
  funext r
  simp only [isNew, hknows]

/-- The new rules are those among all positions that are new. -/
theorem filter_isNew (g other : Grammar) :
    ((List.range other.size).map RuleId.mk).filter (g.isNew other) = g.newRules other := by
  rw [newRules, ruleIds, List.filter_filter]
  refine List.filter_congr fun r _ => ?_
  cases hr : other.ruleAt? r with
  | none => rw [isNew_of_gap hr, Bool.false_and]
  | some rule =>
    have hlive : other.isLive r = true := Option.isSome_iff_exists.mpr ⟨rule, hr⟩
    rw [hlive, Bool.and_true]

/-- A table has each position once. -/
theorem nodup_positions (g : Grammar) : ((List.range g.size).map RuleId.mk).Nodup :=
  List.nodup_range.map fun _ _ h => congrArg RuleId.index h

section Parts

variable (h : MergeParts g other mapping grown)

include h

/-- The new rules are behind the former ones in the grown table. -/
theorem MergeParts.rows_eq (hother : Distinct other) : grown.rows.toList =
    g.rows.toList ++ (g.newRules other).map fun r => (other.ruleAt? r).map bare := by
  have happends := (h.merges.appends hother (nodup_positions other)).1
  rwa [rows_mergeStart, isNew_mergeStart, filter_isNew] at happends

/-- So are their weights. -/
theorem MergeParts.weights_eq (hother : Distinct other) : grown.weights =
    (g.mergeStart other).weights.map fun ws =>
      ws ++ ((g.newRules other).map fun r => (other.storedWeight? r).getD 0.0).toArray := by
  have happends := (h.merges.appends hother (nodup_positions other)).2
  rwa [isNew_mergeStart, filter_isNew] at happends

/-- The table grows by the rules that are new. -/
theorem MergeParts.size_eq (hother : Distinct other) :
    grown.size = g.size + (g.newRules other).length := by
  have hlength := congrArg List.length (h.rows_eq hother)
  simpa [size] using hlength

/-- A former rule stays where it was. -/
theorem MergeParts.ruleAt?_former (hother : Distinct other) (hr : r.index < g.size) :
    grown.ruleAt? r = g.ruleAt? r := by
  rw [ruleAt?, ruleAt?, ← Array.getElem?_toList, ← Array.getElem?_toList, h.rows_eq hother,
    List.getElem?_append_left hr]

/-- A new rule comes behind the former ones and the new ones before it. -/
theorem MergeParts.ruleAt?_new (hother : Distinct other) {k : Nat}
    (hk : (g.newRules other)[k]? = some r) :
    grown.ruleAt? ⟨g.size + k⟩ = (other.ruleAt? r).map bare := by
  have hlength : g.rows.toList.length = g.size := rfl
  rw [ruleAt?, ← Array.getElem?_toList, h.rows_eq hother,
    List.getElem?_append_right (Nat.le_add_right g.size k), hlength, Nat.add_sub_cancel_left,
    List.getElem?_map, hk]
  rfl

/-- A merge resolves the symbols of the grown table anew, and that is all that it does to the rules. -/
theorem MergeParts.exists_resolve : ∃ x : Grammar, ∀ r,
    (g.merge other).state.ruleAt? r = (grown.ruleAt? r).map x.resolve := by
  obtain ⟨x, hresolve⟩ := exists_resolve_mergeIndexed grown other
  refine ⟨x, fun r => ?_⟩
  rw [h.state_eq, state_mergeWeighted]
  exact hresolve r

end Parts

end TypedGrammar.Grammar
