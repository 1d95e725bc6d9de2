import TypedGrammar.Proofs.Grammar.Reachable
import TypedGrammar.Proofs.Grammar.MergeRun

/-!
# Tables without repetition

No two rules of a grammar that can come about have the same type and body. A rule is added when its
body is new, and merged when no rule of its type has its body; every other operation resolves symbols,
takes rules out or moves them up, and none of these changes the type or the body of a rule.
-/

namespace TypedGrammar.Grammar

variable {g g' : Grammar} {r : RuleId} {rule : Rule} {type : String} {body : Expr}

/-- No two rules of the table have the same type and body. -/
def Distinct (g : Grammar) : Prop :=
  ∀ r r' rule rule', g.ruleAt? r = some rule → g.ruleAt? r' = some rule' →
    rule.type = rule'.type → rule.body = rule'.body → r = r'

/-- A table whose rules are at the same places as in one without repetition is without repetition. -/
theorem Distinct.of_view (h : Distinct g) (hview : ∀ r rule', g'.ruleAt? r = some rule' →
      ∃ rule, g.ruleAt? r = some rule ∧ rule.type = rule'.type ∧ rule.body = rule'.body) :
    Distinct g' := by
  intro r s first second hr hs htype hbody
  obtain ⟨rule, hrule, hruleType, hruleBody⟩ := hview r first hr
  obtain ⟨other, hother, hotherType, hotherBody⟩ := hview s second hs
  refine h r s rule other hrule hother ?_ ?_
  · rw [hruleType, htype, hotherType]
  · rw [hruleBody, hbody, hotherBody]

/-- Whether rules are distinct depends on the rows alone. -/
theorem Distinct.of_rows (h : Distinct g) (hrows : g'.rows = g.rows) : Distinct g' := by
  refine h.of_view fun r rule hr => ⟨rule, ?_, rfl, rfl⟩
  rwa [ruleAt?, hrows] at hr

/-- Computing the index anew leaves the rules distinct. -/
theorem Distinct.reindex (h : Distinct g) : Distinct g.reindex := by
  refine h.of_view fun r rule hr => ?_
  rw [ruleAt?_reindex] at hr
  obtain ⟨former, hformer, rfl⟩ := Option.map_eq_some_iff.mp hr
  exact ⟨former, hformer, rfl, rfl⟩

/-! ### Adding a rule -/

/-- A rule whose type and body are not known may be pushed behind the table. -/
theorem Distinct.pushRule (h : Distinct g) (hnew : ¬ Knows g type body) (immediate : Bool)
    (weight : Option Float) : Distinct (g.pushRule type body immediate weight).2 := by
  intro r s rule other hr hs htype hbody
  rw [ruleAt?_pushRule] at hr hs
  split at hr <;> split at hs
  · rename_i hr' hs'
    exact congrArg RuleId.mk (hr'.trans hs'.symm)
  · cases hr
    exact absurd ⟨s, other, hs, htype.symm, hbody.symm⟩ hnew
  · cases hs
    exact absurd ⟨r, rule, hr, htype, hbody⟩ hnew
  · exact h r s rule other hr hs htype hbody

/-- Adding an entry leaves the rules distinct, since a known one is not added again. -/
theorem Distinct.addEntry (h : Distinct g) (type : String) (body : Expr) (immediate : Bool)
    (weight : Option Float) : Distinct (g.addEntry type body immediate weight).state := by
  unfold Grammar.addEntry
  split
  · exact h
  · split
    · exact h
    · rename_i hnew
      exact (h.pushRule (not_knows_of_containsBody (Bool.eq_false_iff.mpr hnew) type) _ _).reindex

/-- Adding a rule leaves the rules distinct. -/
theorem Distinct.addRule (h : Distinct g) (type : String) (body : Expr) :
    Distinct (g.addRule type body).state := by
  unfold Grammar.addRule
  split
  · exact h
  · exact h.addEntry type body false none

/-- Adding an immediate rule leaves the rules distinct. -/
theorem Distinct.addImmediateRule (h : Distinct g) (type : String) (body : Expr) :
    Distinct (g.addImmediateRule type body).state := by
  unfold Grammar.addImmediateRule
  split
  · exact h
  · exact h.addEntry type body true none

/-- Adding rules of a type leaves the rules distinct. -/
theorem Distinct.addRules (h : Distinct g) (type : String) (bodies : List Expr) :
    Distinct (g.addRules type bodies).state := by
  induction bodies generalizing g with
  | nil => exact h
  | cons body rest ih =>
    have hstep := h.addRule type body
    unfold Grammar.addRules
    split
    · rename_i hadded
      rw [hadded] at hstep
      exact ih hstep
    · rename_i hrefused
      rw [hrefused] at hstep
      exact hstep

/-- Adding a rule with a probability leaves the rules distinct. -/
theorem Distinct.addRuleWithProbability (h : Distinct g) (p : Float) (type : String)
    (body : Expr) : Distinct (g.addRuleWithProbability p type body).state := by
  unfold Grammar.addRuleWithProbability
  split
  · exact h
  · have hstart : Distinct (if g.isProbabilistic then g else { g with weights := some #[] }) := by
      split
      · exact h
      · exact h.of_rows rfl
    dsimp only
    split
    · exact hstart.addEntry type body false _
    · exact hstart

/-! ### Taking rules out -/

/-- Taking a rule out makes no two rules alike. -/
theorem Distinct.removeRule (h : Distinct g) (r : RuleId) : Distinct (g.removeRule r).state := by
  have hgap : Distinct (g.withGap r) :=
    h.of_view fun s rule hs => ⟨rule, (ruleAt?_withGap hs).2, rfl, rfl⟩
  rcases removeRule_cases g r with hsame | ⟨rule, -, hstate⟩
  · rwa [hsame]
  · rw [hstate]
    unfold Grammar.delist
    split
    · exact hgap
    · dsimp only
      split
      · exact Distinct.reindex (hgap.of_rows rfl)
      · exact hgap.of_rows rfl

/-- A table is without repetition when every rule has another type or body than those before it. -/
theorem distinct_iff_pairwise : Distinct g ↔ g.rows.toList.Pairwise fun row row' =>
    ∀ rule ∈ row, ∀ rule' ∈ row', ¬ (rule.type = rule'.type ∧ rule.body = rule'.body) := by
  have hview : ∀ i (hi : i < g.rows.toList.length) rule,
      rule ∈ g.rows.toList[i] ↔ g.ruleAt? ⟨i⟩ = some rule := by
    intro i hi rule
    rw [ruleAt?_eq_some_iff, ← Array.getElem?_toList, List.getElem?_eq_getElem hi, Option.mem_def,
      Option.some.injEq]
  rw [List.pairwise_iff_getElem]
  simp only [hview]
  constructor
  · rintro h i j hi hj hlt rule hr rule' hr' ⟨htype, hbody⟩
    exact Nat.ne_of_lt hlt (congrArg RuleId.index (h ⟨i⟩ ⟨j⟩ rule rule' hr hr' htype hbody))
  · intro h r s rule rule' hr hs htype hbody
    have hr' := index_lt_of_ruleAt? hr
    have hs' := index_lt_of_ruleAt? hs
    rcases Nat.lt_trichotomy r.index s.index with hlt | heq | hlt
    · exact absurd ⟨htype, hbody⟩ (h _ _ hr' hs' hlt rule hr rule' hs)
    · exact congrArg RuleId.mk heq
    · exact absurd ⟨htype.symm, hbody.symm⟩ (h _ _ hs' hr' hlt rule' hs rule hr)

/-- Rows that move up keep their order. -/
theorem Distinct.compact (h : Distinct g) (hg : Indexed g) : Distinct g.compact.state := by
  rw [hg.compact_eq]
  refine Distinct.reindex (distinct_iff_pairwise.mpr ?_)
  exact (distinct_iff_pairwise.mp h).filter _

/-! ### Merging -/

/-- Merged rules are pushed only if they are not known. -/
theorem Merges.distinct {other : Grammar} {ids : List RuleId} {mapping : List (Option RuleId)}
    (h : Merges other g ids mapping g') (hg : Distinct g) : Distinct g' := by
  induction h with
  | nil g => exact hg
  | gap _ _ ih => exact ih hg
  | known _ _ _ _ _ ih => exact ih hg
  | pushed _ hnew _ _ ih => exact ih (hg.pushRule hnew _ _)

/-- A merge leaves the rules distinct. -/
theorem Distinct.merge (h : Distinct g) (hg : Consistent g) (other : Grammar) :
    Distinct (g.merge other).state := by
  have hstart : Distinct (g.mergeStart other) := h.of_rows (rows_mergeStart g other)
  rw [merge_eq]
  split
  · exact h
  · split
    · exact h
    · split
      · exact h
      · rename_i mapping grown hrows
        rw [weightedRows_eq] at hrows
        have hgrown := ((hg.mergeStart other).merges hrows).distinct hstart
        have hindexed : Distinct (grown.mergeIndexed other) := Distinct.reindex (hgrown.of_rows rfl)
        have hweighted : Distinct (g.mergeWeighted other grown).state :=
          hindexed.of_rows (rows_mergeWeighted g other grown)
        split
        · exact h
        · exact hweighted.of_rows rfl

/-! ### Every grammar that can come about -/

/-- Adding a constraint changes no row. -/
theorem rows_addConstraint (g : Grammar) (c : Constraint) :
    (g.addConstraint c).state.rows = g.rows := by
  unfold addConstraint
  split <;> rfl

/-- Giving each rule its share changes no row. -/
theorem rows_initUniform (g : Grammar) : g.initUniform.state.rows = g.rows := by
  unfold initUniform
  split <;> rfl

/-- Normalizing the weights changes no row. -/
theorem rows_normalize (g : Grammar) : g.normalize.state.rows = g.rows := by
  unfold normalize
  split
  · rfl
  · split <;> rfl

/-- No two rules of a grammar that can come about have the same type and body. -/
theorem Reachable.distinct (h : Reachable g) : Distinct g := by
  induction h with
  | empty => exact nofun
  | emptyProbabilistic => exact nofun
  | withSymbols _ symbols ih => exact Distinct.reindex (ih.of_rows rfl)
  | addRule _ type body ih => exact ih.addRule type body
  | addRules _ type bodies ih => exact ih.addRules type bodies
  | addImmediateRule _ type body ih => exact ih.addImmediateRule type body
  | addRuleWithProbability _ p type body ih => exact ih.addRuleWithProbability p type body
  | removeRule _ r ih => exact ih.removeRule r
  | compact hg ih => exact ih.compact hg.consistent.toIndexed
  | merge hg _ ih _ => exact ih.merge hg.consistent _
  | addConstraint _ c ih => exact ih.of_rows (rows_addConstraint _ c)
  | clearConstraints _ ih => exact ih.of_rows rfl
  | normalize _ ih => exact ih.of_rows (rows_normalize _)
  | initUniform _ ih => exact ih.of_rows (rows_initUniform _)

end TypedGrammar.Grammar
