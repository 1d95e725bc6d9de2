import TypedGrammar.Grammar.Merge
import TypedGrammar.Proofs.Grammar.RuleSearch
import Mathlib.Data.List.Forall2

/-!
# Appending the rules of another grammar

`Merges` says what happens to the rules of another grammar one by one: a gap becomes nothing, a rule
that is known becomes the rule that has its type and body, and any other rule is pushed behind the
table. A merge does this to a table and then computes the index anew, settles the weights and adds the
constraints; `merge_eq` takes it apart into these steps.
-/

namespace TypedGrammar.Grammar

variable {g g' grown other : Grammar} {r : RuleId} {rule : Rule} {type : String} {body : Expr}
  {ids : List RuleId} {mapping : List (Option RuleId)}

/-- The weight stored for a rule, if there is one. -/
def storedWeight? (g : Grammar) (r : RuleId) : Option Float := g.weights.bind fun ws => ws[r.index]?

/-- What a rule takes along to another grammar is the weight stored for it. -/
theorem eq_of_carriedWeight {weight : Option Float} (h : g.carriedWeight r = .ok weight) :
    weight = g.storedWeight? r := by
  unfold carriedWeight at h
  unfold storedWeight?
  split at h
  · rename_i hplain
    cases h
    rw [hplain]
    rfl
  · rename_i ws hws
    obtain ⟨w, hw, h⟩ := bind_eq_ok.mp h
    cases h
    rw [hws, Option.bind_some, weightAt_eq_ok_iff.mp hw]

/-- Appending the listed rules of the other grammar leads from one grammar to another, and the list
names for each of them the rule that it became. -/
inductive Merges (other : Grammar) :
    Grammar → List RuleId → List (Option RuleId) → Grammar → Prop
  | nil (g : Grammar) : Merges other g [] [] g
  | gap {g g' : Grammar} {r : RuleId} {ids : List RuleId} {mapping : List (Option RuleId)}
      (hr : other.ruleAt? r = none) (hrest : Merges other g ids mapping g') :
      Merges other g (r :: ids) (none :: mapping) g'
  | known {g g' : Grammar} {r known : RuleId} {rule rule' : Rule} {ids : List RuleId}
      {mapping : List (Option RuleId)} (hr : other.ruleAt? r = some rule)
      (hknown : g.ruleAt? known = some rule') (htype : rule'.type = rule.type)
      (hbody : rule'.body = rule.body) (hrest : Merges other g ids mapping g') :
      Merges other g (r :: ids) (some known :: mapping) g'
  | pushed {g g' : Grammar} {r : RuleId} {rule : Rule} {ids : List RuleId}
      {mapping : List (Option RuleId)} (hr : other.ruleAt? r = some rule)
      (hnew : ¬ Knows g rule.type rule.body)
      (hweight : other.carriedWeight r = .ok (other.storedWeight? r))
      (hrest : Merges other
        (g.pushRule rule.type rule.body rule.immediate (other.storedWeight? r)).2 ids mapping g') :
      Merges other g (r :: ids) (some ⟨g.size⟩ :: mapping) g'

/-- Appending rows is appending the rules at the positions of the rows. -/
theorem Indexed.merges (hg : Indexed g)
    (h : g.mergeRows (ids.map fun r => (other.ruleAt? r, other.carriedWeight r)) =
      .ok (mapping, g')) : Merges other g ids mapping g' := by
  induction ids generalizing g mapping with
  | nil =>
    cases h
    exact .nil _
  | cons r rest ih =>
    rw [List.map_cons] at h
    cases hr : other.ruleAt? r with
    | none =>
      rw [hr, mergeRows] at h
      obtain ⟨⟨later, grown⟩, hlater, h⟩ := bind_eq_ok.mp h
      cases h
      exact .gap hr (ih hg hlater)
    | some rule =>
      rw [hr, mergeRows] at h
      rcases hg.findRule?_cases rule.type rule.body with
        ⟨known, rule', hfind, hknown, htype, hbody⟩ | ⟨hfind, hnew⟩
      · rw [hfind, ok_bind] at h
        obtain ⟨⟨later, grown⟩, hlater, h⟩ := bind_eq_ok.mp h
        cases h
        exact .known hr hknown htype hbody (ih hg hlater)
      · rw [hfind, ok_bind] at h
        obtain ⟨weight, hweight, h⟩ := bind_eq_ok.mp h
        obtain ⟨⟨later, grown⟩, hlater, h⟩ := bind_eq_ok.mp h
        cases h
        obtain rfl := eq_of_carriedWeight hweight
        exact .pushed hr hnew hweight (ih (hg.pushRule _ _ _ _) hlater)

/-- Appending the listed rules of the other grammar stops at a rule that would have to be pushed and has
no weight to take along. The rules before it are appended. -/
def LacksWeight (g other : Grammar) (ids : List RuleId) (failure : Failure) : Prop :=
  ∃ before r after mapping grown rule, ids = before ++ r :: after ∧
    Merges other g before mapping grown ∧ other.ruleAt? r = some rule ∧
    ¬ Knows grown rule.type rule.body ∧ other.carriedWeight r = .error failure

/-- What lacks a weight behind a rule lacks it in the list that the rule comes first in. -/
theorem LacksWeight.cons {failure : Failure}
    (hstep : ∀ {before mapping grown}, Merges other g' before mapping grown →
      ∃ mapping', Merges other g (r :: before) mapping' grown)
    (h : LacksWeight g' other ids failure) : LacksWeight g other (r :: ids) failure := by
  obtain ⟨before, s, after, mapping, grown, rule, rfl, hbefore, hstop⟩ := h
  obtain ⟨mapping', hmerges⟩ := hstep hbefore
  exact ⟨r :: before, s, after, mapping', grown, rule, rfl, hmerges, hstop⟩

/-- Adding rules to a grammar stops only at a new one without a weight. -/
theorem LacksWeight.of_mergeRows {failure : Failure} (hg : Indexed g)
    (h : g.mergeRows (ids.map fun r => (other.ruleAt? r, other.carriedWeight r)) = .error failure) :
    LacksWeight g other ids failure := by
  induction ids generalizing g with
  | nil => cases h
  | cons r rest ih =>
    rw [List.map_cons] at h
    cases hr : other.ruleAt? r with
    | none =>
      rw [hr, mergeRows] at h
      rcases bind_eq_error.mp h with hlater | ⟨_, -, h⟩
      · exact (ih hg hlater).cons fun hbefore => ⟨_, .gap hr hbefore⟩
      · cases h
    | some rule =>
      rw [hr, mergeRows] at h
      rcases hg.findRule?_cases rule.type rule.body with
        ⟨known, rule', hfind, hknown, htype, hbody⟩ | ⟨hfind, hnew⟩
      · rw [hfind, ok_bind] at h
        rcases bind_eq_error.mp h with hlater | ⟨_, -, h⟩
        · exact (ih hg hlater).cons fun hbefore => ⟨_, .known hr hknown htype hbody hbefore⟩
        · cases h
      · rw [hfind, ok_bind] at h
        rcases bind_eq_error.mp h with hmissing | ⟨weight, hweight, h⟩
        · exact ⟨[], r, rest, [], g, rule, rfl, .nil g, hr, hnew, hmissing⟩
        · obtain rfl := eq_of_carriedWeight hweight
          rcases bind_eq_error.mp h with hlater | ⟨_, -, h⟩
          · exact (ih (hg.pushRule _ _ _ _) hlater).cons fun hbefore =>
              ⟨_, .pushed hr hnew hweight hbefore⟩
          · cases h

/-- Appending rows fails exactly where a weight is missing. -/
theorem Indexed.mergeRows_eq_error_iff {failure : Failure} (hg : Indexed g) :
    g.mergeRows (ids.map fun r => (other.ruleAt? r, other.carriedWeight r)) = .error failure ↔
      LacksWeight g other ids failure := by
  refine ⟨.of_mergeRows hg, ?_⟩
  rintro ⟨before, r, after, mapping, grown, rule, rfl, hbefore, hr, hnew, hmissing⟩
  induction hbefore with
  | nil g =>
    rw [List.nil_append, List.map_cons, hr, mergeRows, hg.findRule?_of_not_knows hnew, ok_bind,
      hmissing]
    rfl
  | gap hs _ ih =>
    rw [List.cons_append, List.map_cons, hs, mergeRows, ih hg hnew]
    rfl
  | @known g _ _ known found rule' _ _ hs hknown htype hbody _ ih =>
    obtain ⟨image, hfind⟩ := hg.exists_findRule? ⟨known, rule', hknown, htype, hbody⟩
    rw [List.cons_append, List.map_cons, hs, mergeRows, hfind, ok_bind]
    dsimp only
    rw [ih hg hnew]
    rfl
  | pushed hs habsent hweight _ ih =>
    rw [List.cons_append, List.map_cons, hs, mergeRows, hg.findRule?_of_not_knows habsent, ok_bind]
    dsimp only
    rw [hweight, ok_bind, ih (hg.pushRule _ _ _ _) hnew]
    rfl

/-- The rows of a table with the weights that they take along, by position. -/
theorem weightedRows_eq (g : Grammar) :
    g.weightedRows = ((List.range g.size).map RuleId.mk).map fun r =>
      (g.ruleAt? r, g.carriedWeight r) := by
  rw [weightedRows]
  refine List.ext_getElem (by simp [size]) fun i hi _ => ?_
  have hrow : i < g.rows.size := by simpa using hi
  simp [ruleAt?, hrow]

/-! ### The rules of the table -/

/-- A rule pushed behind the table is the only new one. -/
theorem ruleAt?_pushRule (g : Grammar) (type : String) (body : Expr) (immediate : Bool)
    (weight : Option Float) (r : RuleId) :
    (g.pushRule type body immediate weight).2.ruleAt? r =
      if r.index = g.size then some ⟨type, body, immediate, []⟩ else g.ruleAt? r := by
  rw [ruleAt?, pushRule, Array.getElem?_push, size]
  split
  · rfl
  · rfl

/-- After a push the rule that was pushed is known in addition. -/
theorem knows_pushRule_iff {type' : String} {body' : Expr} {immediate : Bool}
    {weight : Option Float} :
    Knows (g.pushRule type body immediate weight).2 type' body' ↔
      Knows g type' body' ∨ (type' = type ∧ body' = body) := by
  constructor
  · rintro ⟨r, rule, hr, rfl, rfl⟩
    rw [ruleAt?_pushRule] at hr
    split at hr
    · cases hr
      exact .inr ⟨rfl, rfl⟩
    · exact .inl ⟨r, rule, hr, rfl, rfl⟩
  · rintro (⟨r, rule, hr, htype, hbody⟩ | ⟨rfl, rfl⟩)
    · refine ⟨r, rule, ?_, htype, hbody⟩
      rwa [ruleAt?_pushRule, if_neg (Nat.ne_of_lt (index_lt_of_ruleAt? hr))]
    · exact ⟨⟨g.size⟩, _, by rw [ruleAt?_pushRule, if_pos rfl], rfl, rfl⟩

/-- Rules that were in the table stay where they are. -/
theorem Merges.ruleAt?_of_ruleAt? (h : Merges other g ids mapping g')
    (hr : g.ruleAt? r = some rule) : g'.ruleAt? r = some rule := by
  induction h with
  | nil g => exact hr
  | gap _ _ ih => exact ih hr
  | known _ _ _ _ _ ih => exact ih hr
  | pushed _ _ _ _ ih =>
    apply ih
    rwa [ruleAt?_pushRule, if_neg (Nat.ne_of_lt (index_lt_of_ruleAt? hr))]

/-- The constants and the constraints stay the same. -/
theorem Merges.same_rest (h : Merges other g ids mapping g') :
    g'.symbols = g.symbols ∧ g'.constraints = g.constraints := by
  induction h with
  | nil g => exact ⟨rfl, rfl⟩
  | gap _ _ ih => exact ih
  | known _ _ _ _ _ ih => exact ih
  | pushed _ _ _ _ ih => exact ih

/-- The index fits after the rules were appended. -/
theorem Merges.indexed (h : Merges other g ids mapping g') (hg : Indexed g) : Indexed g' := by
  induction h with
  | nil g => exact hg
  | gap _ _ ih => exact ih hg
  | known _ _ _ _ _ ih => exact ih hg
  | pushed _ _ _ _ ih => exact ih (hg.pushRule _ _ _ _)

/-- The types and bodies that are known in the end are those that were known and those of the rules
that were appended. -/
theorem Merges.knows_iff (h : Merges other g ids mapping g') {type : String} {body : Expr} :
    Knows g' type body ↔ Knows g type body ∨
      ∃ r ∈ ids, ∃ rule, other.ruleAt? r = some rule ∧ rule.type = type ∧ rule.body = body := by
  induction h with
  | nil g => simp
  | gap hr _ ih => simp [ih, hr]
  | @known g _ r known rule rule' _ _ hr hknown htype hbody _ ih =>
    have hsame : rule.type = type ∧ rule.body = body → Knows g type body := by
      rintro ⟨rfl, rfl⟩
      exact ⟨known, rule', hknown, htype, hbody⟩
    simp only [ih, List.exists_mem_cons_iff, hr, Option.some.injEq, exists_eq_left']
    tauto
  | pushed hr _ _ _ ih =>
    simp only [ih, knows_pushRule_iff, List.exists_mem_cons_iff, hr, Option.some.injEq,
      exists_eq_left', eq_comm, or_assoc]

/-- What a rule of the other grammar became: nothing for a gap, else a rule with its type and body. -/
def Becomes (other g' : Grammar) (r : RuleId) (entry : Option RuleId) : Prop :=
  (other.ruleAt? r = none ∧ entry = none) ∨
    ∃ rule r' rule', other.ruleAt? r = some rule ∧ entry = some r' ∧ g'.ruleAt? r' = some rule' ∧
      rule'.type = rule.type ∧ rule'.body = rule.body

/-- The list names a rule with the same type and body for each rule, and nothing for gaps. -/
theorem Merges.becomes (h : Merges other g ids mapping g') :
    List.Forall₂ (Becomes other g') ids mapping := by
  induction h with
  | nil g => exact .nil
  | gap hr _ ih => exact .cons (.inl ⟨hr, rfl⟩) ih
  | known hr hknown htype hbody hrest ih =>
    exact .cons (.inr ⟨_, _, _, hr, rfl, hrest.ruleAt?_of_ruleAt? hknown, htype, hbody⟩) ih
  | @pushed g _ r rule _ _ hr _ _ hrest ih =>
    have hpushed : (g.pushRule rule.type rule.body rule.immediate
        (other.storedWeight? r)).2.ruleAt? ⟨g.size⟩ =
          some ⟨rule.type, rule.body, rule.immediate, []⟩ := by
      rw [ruleAt?_pushRule, if_pos rfl]
    exact .cons (.inr ⟨_, _, _, hr, rfl, hrest.ruleAt?_of_ruleAt? hpushed, rfl, rfl⟩) ih

/-! ### Renaming constraints -/

/-- The rules of a checked list are in the table. -/
theorem exists_rule_of_checkRules {rules : List RuleId} (h : g.checkRules rules = .ok ()) :
    ∀ r ∈ rules, ∃ rule, g.ruleAt? r = some rule := by
  induction rules with
  | nil => exact nofun
  | cons r rest ih =>
    obtain ⟨⟨⟩, hr, hrest⟩ := bind_eq_ok.mp h
    refine List.forall_mem_cons.mpr ⟨?_, ih hrest⟩
    rw [checkRule] at hr
    split at hr
    · cases hr
    · cases hr
    · rename_i rule hrow
      exact ⟨rule, ruleAt?_eq_some_iff.mpr hrow⟩

/-- The rules of checked constraints are in the table. -/
theorem exists_rule_of_checkConstraints {constraints : List Constraint}
    (h : g.checkConstraints constraints = .ok ()) :
    ∀ c ∈ constraints, ∀ r ∈ c.rules, ∃ rule, g.ruleAt? r = some rule := by
  induction constraints with
  | nil => exact nofun
  | cons c rest ih =>
    obtain ⟨⟨⟩, hc, hrest⟩ := bind_eq_ok.mp h
    refine List.forall_mem_cons.mpr ⟨?_, ih hrest⟩
    rw [checkConstraint] at hc
    split at hc
    · exact exists_rule_of_checkRules hc
    · cases hc

/-- Rules whose rows were mapped are renamed. -/
theorem renameRules_eq {rules : List RuleId} (h : ∀ r ∈ rules, r.index < mapping.length) :
    rules.mapM (renameRule mapping) = .ok (rules.map (renamed mapping)) :=
  mapM_eq_ok fun r hr => if_pos (h r hr)

/-- A constraint on rules whose rows were mapped is renamed. -/
theorem renameConstraint_eq {c : Constraint} (h : ∀ r ∈ c.rules, r.index < mapping.length) :
    renameConstraint mapping c = .ok (c.mapRules (renamed mapping)) := by
  cases c with
  | comesAfter rule predecessors =>
    obtain ⟨hrule, hbefore⟩ := List.forall_mem_cons.mp h
    rw [renameConstraint, renameRules_eq hbefore, ok_bind, renameRule, if_pos hrule]
    rfl
  | ordered order =>
    rw [renameConstraint, renameRules_eq (show ∀ r ∈ order, _ from h)]
    rfl
  | forbidden sequence =>
    rw [renameConstraint, renameRules_eq (show ∀ r ∈ sequence, _ from h)]
    rfl

/-- Appending rows gives an entry for each of them. -/
theorem length_of_mergeRows {rows : List (Option Rule × Except Failure (Option Float))}
    (h : g.mergeRows rows = .ok (mapping, g')) : mapping.length = rows.length := by
  induction rows generalizing g mapping with
  | nil =>
    cases h
    rfl
  | cons first rest ih =>
    obtain ⟨row, weight⟩ := first
    cases row with
    | none =>
      obtain ⟨⟨later, grown⟩, hlater, h⟩ := bind_eq_ok.mp h
      cases h
      exact congrArg Nat.succ (ih hlater)
    | some rule =>
      obtain ⟨found, -, h⟩ := bind_eq_ok.mp h
      cases found with
      | none =>
        obtain ⟨carried, -, h⟩ := bind_eq_ok.mp h
        obtain ⟨⟨later, grown⟩, hlater, h⟩ := bind_eq_ok.mp h
        cases h
        exact congrArg Nat.succ (ih hlater)
      | some known =>
        obtain ⟨⟨later, grown⟩, hlater, h⟩ := bind_eq_ok.mp h
        cases h
        exact congrArg Nat.succ (ih hlater)

/-- Checked constraints can be renamed once the rows were appended. -/
theorem renameConstraints_eq (hchecked : other.checkConstraints other.constraints = .ok ())
    (hrows : g.mergeRows other.weightedRows = .ok (mapping, g')) :
    other.constraints.mapM (renameConstraint mapping) =
      .ok (other.constraints.map (Constraint.mapRules (renamed mapping))) := by
  have hlen : mapping.length = other.size := by
    rw [length_of_mergeRows hrows, weightedRows_eq]
    simp
  refine mapM_eq_ok fun c hc => renameConstraint_eq fun r hr => ?_
  obtain ⟨rule, hrule⟩ := exists_rule_of_checkConstraints hchecked c hc r hr
  exact hlen ▸ index_lt_of_ruleAt? hrule

/-! ### Step by step -/

/-- The grammar that the rules are appended to: one without rows takes over that the other grammar has
probabilities. -/
def mergeStart (g other : Grammar) : Grammar :=
  if g.isEmpty && other.isProbabilistic && !g.isProbabilistic then { g with weights := some #[] }
  else g

/-- Setting the mode of a merge changes no row. -/
theorem rows_mergeStart (g other : Grammar) : (g.mergeStart other).rows = g.rows := by
  unfold mergeStart
  split <;> rfl

/-- Setting the mode of a merge keeps a grammar consistent. -/
theorem Consistent.mergeStart (h : Consistent g) (other : Grammar) :
    Consistent (g.mergeStart other) := by
  unfold Grammar.mergeStart
  split
  · rename_i hempty
    simp only [Bool.and_eq_true] at hempty
    exact h.becomeProbabilistic hempty.1.1
  · exact h

/-- Setting the mode of a merge changes no rule. -/
theorem ruleAt?_mergeStart (g other : Grammar) (r : RuleId) :
    (g.mergeStart other).ruleAt? r = g.ruleAt? r := by
  rw [ruleAt?, rows_mergeStart, ruleAt?]

/-- The grammar with the rules appended, after the constants of the other one were added. -/
def mergeIndexed (grown other : Grammar) : Grammar :=
  reindex { grown with symbols := addSymbols grown.symbols other.symbols.entries }

/-- When the constants are merged and the index is computed anew the grammar is consistent. -/
theorem Indexed.mergeIndexed (h : Indexed grown) (other : Grammar) :
    Consistent (grown.mergeIndexed other) :=
  Indexed.reindex (g := { grown with symbols := addSymbols grown.symbols other.symbols.entries })
    ⟨h.lists, h.weights_size⟩

/-- Symbols are resolved anew, and that is all that happens to the rules. -/
theorem exists_resolve_mergeIndexed (grown other : Grammar) : ∃ x : Grammar, ∀ r,
    (grown.mergeIndexed other).ruleAt? r = (grown.ruleAt? r).map x.resolve :=
  ⟨_, ruleAt?_reindex { grown with symbols := addSymbols grown.symbols other.symbols.entries }⟩

/-- The same with its weights, which are uniform ones if a grammar without rows has probabilities and
the rules that it takes have none. -/
def mergeWeighted (g other grown : Grammar) : Edit Grammar Unit :=
  if g.isEmpty && (g.mergeStart other).isProbabilistic && !other.isProbabilistic then
    (grown.mergeIndexed other).initUniform
  else .done (grown.mergeIndexed other) ()

/-- The first check of a merge succeeds when the grammars agree on having probabilities or one of them has
no rows. -/
theorem modes_agree_iff :
    (g.isProbabilistic != other.isProbabilistic && !other.isEmpty && !g.isEmpty) = false ↔
      g.isProbabilistic = other.isProbabilistic ∨ other.isEmpty = true ∨ g.isEmpty = true := by
  simp [imp_iff_not_or, or_assoc]

/-- A merge step by step. Renaming the constraints cannot fail behind the checks. -/
theorem merge_eq (g other : Grammar) : g.merge other =
    if g.isProbabilistic != other.isProbabilistic && !other.isEmpty && !g.isEmpty then
      .refused g .probabilityMismatch
    else match other.checkConstraints other.constraints with
      | .error failure => .failed g failure
      | .ok () =>
        match (g.mergeStart other).mergeRows other.weightedRows with
        | .error failure => .failed g failure
        | .ok (mapping, grown) =>
          match (g.mergeWeighted other grown).result with
          | .error failure => .failed g failure
          | .ok () => .done { (g.mergeWeighted other grown).state with
              constraints := addNewConstraints (g.mergeWeighted other grown).state.constraints
                (other.constraints.map (Constraint.mapRules (renamed mapping))) } mapping := by
  unfold merge
  split
  · rfl
  · cases hchecked : other.checkConstraints other.constraints with
    | error failure => rfl
    | ok _ =>
      change (match (g.mergeStart other).mergeRows other.weightedRows with
        | .error failure => _
        | .ok (mapping, grown) => _) = _
      cases hrows : (g.mergeStart other).mergeRows other.weightedRows with
      | error failure => rfl
      | ok answer =>
        obtain ⟨mapping, grown⟩ := answer
        dsimp only
        rw [renameConstraints_eq hchecked hrows]
        rfl

/-- The weights are all that is settled after the index was computed. -/
theorem state_mergeWeighted (g other grown : Grammar) : (g.mergeWeighted other grown).state =
    { grown.mergeIndexed other with weights := (g.mergeWeighted other grown).state.weights } := by
  unfold mergeWeighted
  split
  · unfold initUniform
    split <;> rfl
  · rfl

/-- Settling the weights of a merge changes no row. -/
theorem rows_mergeWeighted (g other grown : Grammar) :
    (g.mergeWeighted other grown).state.rows = (grown.mergeIndexed other).rows := by
  rw [state_mergeWeighted]

end TypedGrammar.Grammar
