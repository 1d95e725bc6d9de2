import TypedGrammar.Proofs.Derivation.Rewriting
import TypedGrammar.Proofs.Grammar.Changes
import TypedGrammar.Proofs.Grammar.Embedding

/-!
# Stable names of rules

A rule keeps its name as long as the table is not compacted. No other change moves a row: rules come
behind the table, and a rule that is taken out leaves a gap that nothing fills again. So the names that
are given to new rules are greater than all names before them, and none is given twice.
-/

namespace TypedGrammar.Grammar

variable {g g' : Grammar} {change : Change} {changes : List Change} {r : RuleId} {rule rule' : Rule}
  {rows rows' rows'' : List (Option Rule)}

/-! ### Rows that keep their places -/

/-- Each row of the first outline is the same row or a gap in the second. -/
def KeepsRows (rows rows' : List (Option Rule)) : Prop :=
  ∀ (i : Nat) (row : Option Rule), rows[i]? = some row → rows'[i]? = some row ∨ rows'[i]? = some none

/-- Rows stay when nothing is changed. -/
theorem KeepsRows.refl (rows : List (Option Rule)) : KeepsRows rows rows := fun _ _ hrow => .inl hrow

/-- Rows that stay in two changes stay in both together. -/
theorem KeepsRows.trans (h : KeepsRows rows rows') (h' : KeepsRows rows' rows'') :
    KeepsRows rows rows'' := by
  intro i row hrow
  rcases h i row hrow with hsame | hgap
  · exact h' i row hsame
  · exact .inr ((h' i none hgap).elim id id)

/-- Rows stay when one is appended. -/
theorem KeepsRows.append (rows : List (Option Rule)) (row : Option Rule) :
    KeepsRows rows (rows ++ [row]) := by
  intro i kept hkept
  have hi := (List.getElem?_eq_some_iff.mp hkept).1
  exact .inl ((List.getElem?_append_left hi).trans hkept)

/-- The other rows stay when one becomes a gap. -/
theorem KeepsRows.set_none (rows : List (Option Rule)) (i : Nat) : KeepsRows rows (rows.set i none) := by
  intro j kept hkept
  have hj := (List.getElem?_eq_some_iff.mp hkept).1
  rw [List.getElem?_set]
  split
  · rename_i hij
    exact .inr (if_pos (hij ▸ hj))
  · exact .inl hkept

/-- Only closing the gaps moves rows. -/
theorem RowStep.keepsRows (h : RowStep change rows rows') (hcompact : change ≠ .compact) :
    KeepsRows rows rows' := by
  cases h with
  | added _ _ => exact .append rows _
  | joined _ _ => exact .append rows _
  | takenOut i => exact .set_none rows i
  | closed => exact absurd rfl hcompact

/-- Rows stay in every change but the one that closes the gaps. -/
theorem keepsRows_of_rowSteps (h : RowSteps change rows rows') (hcompact : change ≠ .compact) :
    KeepsRows rows rows' := by
  induction h with
  | refl => exact .refl rows
  | tail _ hlast ih => exact ih.trans (hlast.keepsRows hcompact)

/-- Runs without compaction keep the rows in their places. -/
theorem Consistent.keepsRows_runAll (hg : Consistent g) (hcompact : Change.compact ∉ changes) :
    KeepsRows g.outline (g.runAll changes).outline := by
  refine hg.runAll_induction (P := KeepsRows g.outline) (fun change hmem rows rows' hstep h => ?_)
    (.refl _)
  refine h.trans (hstep.keepsRows ?_)
  rintro rfl
  exact hcompact hmem

/-! ### What that means for rules -/

/-- Tables that keep their rows do not shrink. -/
theorem KeepsRows.size_le (h : KeepsRows g.outline g'.outline) : g.size ≤ g'.size := by
  by_contra hlt
  rw [Nat.not_le] at hlt
  have hrow := getElem?_outline (r := ⟨g'.size⟩) hlt
  have hnone : g'.outline[g'.size]? = none := List.getElem?_eq_none (Nat.le_of_eq (length_outline g'))
  rcases h _ _ hrow with hsame | hgap
  · exact nomatch hnone.symm.trans hsame
  · exact nomatch hnone.symm.trans hgap

/-- A rule that is there before and after is the same up to what its symbols stand for. -/
theorem KeepsRows.bare_eq (h : KeepsRows g.outline g'.outline) (hr : g.ruleAt? r = some rule)
    (hr' : g'.ruleAt? r = some rule') : bare rule' = bare rule := by
  have hrow := getElem?_outline_eq_some_iff.mpr ⟨rule, hr, rfl⟩
  have hrow' := getElem?_outline_eq_some_iff.mpr ⟨rule', hr', rfl⟩
  rcases h _ _ hrow with hsame | hgap
  · exact Option.some.inj (Option.some.inj (hrow'.symm.trans hsame))
  · exact nomatch hrow'.symm.trans hgap

/-- A gap stays a gap. -/
theorem KeepsRows.isRemoved (h : KeepsRows g.outline g'.outline) (hr : g.isRemoved r = .ok true) :
    g'.isRemoved r = .ok true := by
  rw [isRemoved_eq_ok_true_iff] at hr ⊢
  have hr' := Nat.lt_of_lt_of_le hr.1 h.size_le
  have hrow := getElem?_outline hr.1
  rw [hr.2] at hrow
  have hgap := (h _ _ hrow).elim id id
  rw [getElem?_outline hr'] at hgap
  exact ⟨hr', Option.map_eq_none_iff.mp (Option.some.inj hgap)⟩

/-- A name that came to a rule lies behind the table. -/
theorem KeepsRows.size_le_index (h : KeepsRows g.outline g'.outline) (hr : g.isLive r = false)
    (hr' : g'.isLive r = true) : g.size ≤ r.index := by
  by_contra hlt
  obtain ⟨rule', hrule'⟩ := isLive_iff.mp hr'
  have hgap : g.isRemoved r = .ok true :=
    isRemoved_eq_ok_true_iff.mpr ⟨Nat.not_le.mp hlt,
      Option.isNone_iff_eq_none.mp (Option.isSome_eq_false_iff.mp hr)⟩
  have hgap' := (isRemoved_eq_ok_true_iff.mp (h.isRemoved hgap)).2
  exact nomatch hrule'.symm.trans hgap'

/-! ### New names -/

/-- The names are those of new rows, in the order of the table. -/
structure NewNames (g g' : Grammar) (ids : List RuleId) : Prop where
  ascending : ids.Pairwise (· < ·)
  size_le : ∀ r ∈ ids, g.size ≤ r.index
  lt_size : ∀ r ∈ ids, r.index < g'.size

/-- Nothing is added by an empty list of names. -/
theorem NewNames.nil (g g' : Grammar) : NewNames g g' [] := ⟨.nil, nofun, nofun⟩

/-- The rule that an edit answers with, if there is one. -/
def answered (edit : Edit Grammar (Option RuleId)) : List RuleId := edit.result.toOption.join.toList

/-- New names of a later change come behind those of an earlier one. -/
theorem NewNames.append {middle : Grammar} {ids later : List RuleId} (h : NewNames g middle ids)
    (h' : NewNames middle g' later) (hle : g.size ≤ middle.size) (hle' : middle.size ≤ g'.size) :
    NewNames g g' (ids ++ later) where
  ascending := List.pairwise_append.mpr ⟨h.ascending, h'.ascending, fun r hr s hs =>
    Nat.lt_of_lt_of_le (h.lt_size r hr) (h'.size_le s hs)⟩
  size_le r hr := (List.mem_append.mp hr).elim (h.size_le r) fun hlater =>
    Nat.le_trans hle (h'.size_le r hlater)
  lt_size r hr := (List.mem_append.mp hr).elim
    (fun hfirst => Nat.lt_of_lt_of_le (h.lt_size r hfirst) hle') (h'.lt_size r)

/-- An entry that is added gets a new name. -/
theorem newNames_addEntry (g : Grammar) (type : String) (body : Expr) (immediate : Bool)
    (weight : Option Float) : NewNames g (g.addEntry type body immediate weight).state
      (answered (g.addEntry type body immediate weight)) := by
  unfold addEntry
  split
  · exact .nil _ _
  · split
    · exact .nil _ _
    · refine ⟨List.pairwise_singleton _ _, fun r hr => ?_, fun r hr => ?_⟩
      · obtain rfl := List.mem_singleton.mp hr
        exact Nat.le_refl _
      · obtain rfl := List.mem_singleton.mp hr
        simp [Edit.done, ← length_outline, outline_pushRule]

/-- A rule that is added gets a new name. -/
theorem newNames_addRule (g : Grammar) (type : String) (body : Expr) :
    NewNames g (g.addRule type body).state (answered (g.addRule type body)) := by
  unfold addRule
  split
  · exact .nil _ _
  · exact newNames_addEntry ..

/-- An immediate rule that is added gets a new name. -/
theorem newNames_addImmediateRule (g : Grammar) (type : String) (body : Expr) :
    NewNames g (g.addImmediateRule type body).state (answered (g.addImmediateRule type body)) := by
  unfold addImmediateRule
  split
  · exact .nil _ _
  · exact newNames_addEntry ..

/-- Rules that are added get new names, in their order. -/
theorem newNames_addRules (g : Grammar) (type : String) (bodies : List Expr) :
    NewNames g (g.addRules type bodies).state ((g.addRules type bodies).result.toOption.getD []) := by
  induction bodies generalizing g with
  | nil => exact .nil _ _
  | cons body rest ih =>
    have hfirst := newNames_addRule g type body
    have hsteps : RowSteps (.addRule type body) g.outline (g.addRule type body).state.outline :=
      rowSteps_addRule ..
    have hkeeps := keepsRows_of_rowSteps hsteps nofun
    unfold addRules
    split
    · rename_i middle added _ hadded
      rw [hadded] at hfirst hkeeps
      have hrest := ih middle
      have hsteps' : RowSteps (.addRules type rest) middle.outline
          (middle.addRules type rest).state.outline := rowSteps_addRules ..
      have hkeeps' := keepsRows_of_rowSteps hsteps' nofun
      cases hlater : (middle.addRules type rest).result with
      | error failure =>
        simp only [Edit.map, hlater]
        exact .nil _ _
      | ok later =>
        rw [hlater] at hrest
        simp only [Edit.map, hlater]
        exact hfirst.append hrest hkeeps.size_le hkeeps'.size_le
    · exact .nil _ _

/-- A rule that is added with a probability gets a new name. -/
theorem newNames_addRuleWithProbability (g : Grammar) (p : Float) (type : String) (body : Expr) :
    NewNames g (g.addRuleWithProbability p type body).state
      (answered (g.addRuleWithProbability p type body)) := by
  unfold addRuleWithProbability
  split
  · exact .nil _ _
  · dsimp only
    have hstart : (if g.isProbabilistic then g else { g with weights := some #[] }).size = g.size := by
      split <;> rfl
    generalize (if g.isProbabilistic then g else { g with weights := some #[] }) = start at hstart ⊢
    split
    · obtain ⟨hascending, hle, hlt⟩ :=
        newNames_addEntry start type body false (some (Float.log p))
      exact ⟨hascending, hstart ▸ hle, hlt⟩
    · exact .nil _ _

/-- The rules that a change adds: those that it answers with, and after a merge those that were not
there before. -/
def Change.added (g : Grammar) : Change → List RuleId
  | addRule type body => answered (g.addRule type body)
  | addRules type bodies => (g.addRules type bodies).result.toOption.getD []
  | addImmediateRule type body => answered (g.addImmediateRule type body)
  | addRuleWithProbability p type body => answered (g.addRuleWithProbability p type body)
  | merge other => (g.merge other).state.ruleIds.filter fun r => !g.isLive r
  | _ => []

/-- The rules that a change adds get new names. -/
theorem Consistent.newNames_added (hg : Consistent g) (change : Change) :
    NewNames g (change.run g) (change.added g) := by
  cases change with
  | addRule type body => exact newNames_addRule g type body
  | addRules type bodies => exact newNames_addRules g type bodies
  | addImmediateRule type body => exact newNames_addImmediateRule g type body
  | addRuleWithProbability p type body => exact newNames_addRuleWithProbability g p type body
  | merge other =>
    have hkeeps : KeepsRows g.outline (g.merge other).state.outline :=
      keepsRows_of_rowSteps (hg.rowSteps_merge other) nofun
    refine ⟨(ruleIds_pairwise _).filter _, fun r hr => ?_, fun r hr => ?_⟩
    · obtain ⟨hmem, hnew⟩ := List.mem_filter.mp hr
      exact hkeeps.size_le_index (by simpa using hnew) (mem_ruleIds_iff.mp hmem)
    · obtain ⟨rule, hrule⟩ := isLive_iff.mp (mem_ruleIds_iff.mp (List.mem_filter.mp hr).1)
      exact index_lt_of_ruleAt? hrule
  | withSymbols _ => exact .nil _ _
  | removeRule _ => exact .nil _ _
  | compact => exact .nil _ _
  | addConstraint _ => exact .nil _ _
  | clearConstraints => exact .nil _ _
  | normalize => exact .nil _ _
  | initUniform => exact .nil _ _

/-! ### Along a run -/

/-- A table that is not compacted does not shrink. -/
theorem Consistent.size_le_runAll (hg : Consistent g) (hcompact : Change.compact ∉ changes) :
    g.size ≤ (g.runAll changes).size := (hg.keepsRows_runAll hcompact).size_le

/-- Rules keep their names along a run of changes, and no name is given twice. -/
structure NamesStable (g : Grammar) (changes : List Change) : Prop where
  /-- The table does not shrink. -/
  size_le : g.size ≤ (g.runAll changes).size
  /-- A name that stands for a rule before and after stands for the same rule. -/
  same_rule : ∀ r, g.isLive r = true → (g.runAll changes).isLive r = true →
    (g.runAll changes).body r = g.body r ∧ (g.runAll changes).returnType r = g.returnType r ∧
      (g.runAll changes).isImmediate r = g.isImmediate r
  /-- The name of a rule that was taken out stands for nothing again. -/
  removed : ∀ r, g.isRemoved r = .ok true → (g.runAll changes).isRemoved r = .ok true
  /-- A name that comes to stand for a rule lies behind the table. -/
  fresh : ∀ r, g.isLive r = false → (g.runAll changes).isLive r = true → g.size ≤ r.index
  /-- A rule that is added on the way gets a name behind all names of the table. -/
  added_fresh : ∀ before change after, changes = before ++ change :: after →
    ∀ r ∈ change.added (g.runAll before), ∀ s, s.index < (g.runAll before).size → s < r
  /-- The rules that one change adds get names in ascending order. -/
  added_ascending : ∀ before change after, changes = before ++ change :: after →
    (change.added (g.runAll before)).Pairwise (· < ·)
  /-- The rules that a later change adds get greater names. -/
  added_later : ∀ before first between second after,
    changes = before ++ first :: (between ++ second :: after) →
    ∀ r ∈ first.added (g.runAll before), ∀ s ∈ second.added (g.runAll (before ++ first :: between)),
      r < s

/-- Without compaction the names of rules are stable, whatever else is done and merged. -/
theorem Reachable.names_stable (h : Reachable g) (hcompact : Change.compact ∉ changes) :
    NamesStable g changes := by
  have hkeeps := h.consistent.keepsRows_runAll hcompact
  have hadded : ∀ before (change : Change),
      NewNames (g.runAll before) (change.run (g.runAll before)) (change.added (g.runAll before)) :=
    fun before change => (h.consistent.runAll before).newNames_added change
  refine ⟨hkeeps.size_le, fun r hr hr' => ?_, fun r => hkeeps.isRemoved, fun r => hkeeps.size_le_index,
    ?_, ?_, ?_⟩
  · obtain ⟨rule, hrule⟩ := isLive_iff.mp hr
    obtain ⟨rule', hrule'⟩ := isLive_iff.mp hr'
    obtain ⟨htype, hbody, himmediate⟩ := bare_eq_bare_iff.mp (hkeeps.bare_eq hrule hrule')
    refine ⟨?_, ?_, ?_⟩
    · rw [body_of_ruleAt? hrule, body_of_ruleAt? hrule', hbody]
    · rw [returnType_eq_ok_iff.mpr ⟨rule, hrule, rfl⟩, returnType_eq_ok_iff.mpr ⟨rule', hrule', htype⟩]
    · rw [isImmediate_of_ruleAt? hrule, isImmediate_of_ruleAt? hrule', himmediate]
  · intro before change after _ r hr s hs
    exact Nat.lt_of_lt_of_le hs ((hadded before change).size_le r hr)
  · intro before change after _
    exact (hadded before change).ascending
  · intro before first between second after hsplit r hr s hs
    have hbetween : Change.compact ∉ between := by
      rintro hmem
      exact hcompact (by simp [hsplit, hmem])
    have hle : (first.run (g.runAll before)).size ≤ (g.runAll (before ++ first :: between)).size := by
      rw [runAll_append, runAll_cons]
      exact ((h.consistent.runAll before).run first).size_le_runAll hbetween
    exact Nat.lt_of_lt_of_le ((hadded before first).lt_size r hr)
      (Nat.le_trans hle ((hadded _ second).size_le s hs))

/-- Add a literal, take it out and add it again, then merge comparisons. -/
def flatSumsChanges : List Change :=
  [.addRule "N" (.lit (.int 3)), .removeRule ⟨3⟩, .addRule "N" (.lit (.int 3)), .merge comparisons]

/-- The literal comes back under a new name, and the comparison is merged behind it. -/
theorem flatSums_names_stable : Reachable flatSums ∧ Change.compact ∉ flatSumsChanges ∧
    NamesStable flatSums flatSumsChanges ∧
    (flatSums.runAll flatSumsChanges).ruleIds = [⟨1⟩, ⟨2⟩, ⟨4⟩, ⟨5⟩] ∧
    (flatSums.runAll flatSumsChanges).isRemoved ⟨3⟩ = .ok true := by
  have hreachable : Reachable flatSums := ((Reachable.empty.addRules _ _).removeRule _).addConstraint _
  have hcompact : Change.compact ∉ flatSumsChanges := by simp [flatSumsChanges]
  exact ⟨hreachable, hcompact, hreachable.names_stable hcompact, by cbv, by cbv⟩

end TypedGrammar.Grammar
