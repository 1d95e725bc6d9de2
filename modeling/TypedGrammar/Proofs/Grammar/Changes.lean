import TypedGrammar.Proofs.Grammar.Outline

/-!
# Runs of changes

A `Change` is one operation on a grammar with its arguments, and a run is a list of changes. `RowStep`
lists what a change can do to a single row of the table: a rule is added, a rule of another grammar is
joined on, a rule is taken out, or the gaps are closed. Every change is a sequence of such steps, so
that a property of outlines is kept by all runs once it is kept by these four steps.
-/

namespace TypedGrammar.Grammar

/-- An operation on a grammar. -/
inductive Change where
  /-- Take other named constants. -/
  | withSymbols (symbols : SymbolTable)
  /-- Add an ordinary rule. -/
  | addRule (type : String) (body : Expr)
  /-- Add ordinary rules of one type. -/
  | addRules (type : String) (bodies : List Expr)
  /-- Add an immediate rule. -/
  | addImmediateRule (type : String) (body : Expr)
  /-- Add an ordinary rule with a probability. -/
  | addRuleWithProbability (p : Float) (type : String) (body : Expr)
  /-- Take a rule out. -/
  | removeRule (r : RuleId)
  /-- Close the gaps. -/
  | compact
  /-- Append what another grammar has. -/
  | merge (other : Grammar)
  /-- Register a constraint. -/
  | addConstraint (c : Constraint)
  /-- Drop the constraints. -/
  | clearConstraints
  /-- Make the probabilities of each type sum to one. -/
  | normalize
  /-- Give uniform probabilities. -/
  | initUniform

/-- The grammar after a change; after one that fails it is what the change leaves behind. -/
def Change.run (g : Grammar) : Change → Grammar
  | withSymbols symbols => g.withSymbols symbols
  | addRule type body => (g.addRule type body).state
  | addRules type bodies => (g.addRules type bodies).state
  | addImmediateRule type body => (g.addImmediateRule type body).state
  | addRuleWithProbability p type body => (g.addRuleWithProbability p type body).state
  | removeRule r => (g.removeRule r).state
  | compact => g.compact.state
  | merge other => (g.merge other).state
  | addConstraint c => (g.addConstraint c).state
  | clearConstraints => g.clearConstraints
  | normalize => g.normalize.state
  | initUniform => g.initUniform.state

/-- The grammar after several changes. -/
def runAll (g : Grammar) (changes : List Change) : Grammar := changes.foldl Change.run g

/-- What a change can do to an outline in one step. -/
inductive RowStep : Change → List (Option Rule) → List (Option Rule) → Prop
  /-- A rule without fault whose body is new comes behind the others. -/
  | added {change : Change} {rows : List (Option Rule)} {rule : Rule}
      (hsound : ruleFault? rule.type rule.body = none)
      (hnew : ∀ known ∈ rows.reduceOption, known.body ≠ rule.body) :
      RowStep change rows (rows ++ [some rule])
  /-- A rule of another grammar whose type and body are new comes behind the others. -/
  | joined {other : Grammar} {rows : List (Option Rule)} {rule : Rule}
      (hrule : rule ∈ other.outline.reduceOption)
      (hnew : ∀ known ∈ rows.reduceOption, ¬ (known.type = rule.type ∧ known.body = rule.body)) :
      RowStep (.merge other) rows (rows ++ [some rule])
  /-- A rule leaves a gap. -/
  | takenOut {change : Change} {rows : List (Option Rule)} (i : Nat) :
      RowStep change rows (rows.set i none)
  /-- The gaps are closed. -/
  | closed {rows : List (Option Rule)} : RowStep .compact rows (rows.filter Option.isSome)

variable {g g' : Grammar} {change : Change} {changes : List Change}
  {P : List (Option Rule) → Prop}

/-- Any number of such steps. -/
abbrev RowSteps (change : Change) := Relation.ReflTransGen (RowStep change)

/-! ### Each change takes such steps -/

/-- A change that keeps the outline takes no step. -/
theorem rowSteps_of_eq (h : g'.outline = g.outline) : RowSteps change g.outline g'.outline := by
  rw [h]

/-- Adding an entry appends at most one row. -/
theorem rowSteps_addEntry (g : Grammar) (type : String) (body : Expr) (immediate : Bool)
    (weight : Option Float) :
    RowSteps change g.outline (g.addEntry type body immediate weight).state.outline := by
  unfold addEntry
  split
  · exact .refl
  · rename_i hsound
    split
    · exact .refl
    · rename_i hknown
      simp only [Edit.done, outline_reindex, outline_pushRule]
      refine .single (.added hsound fun known hmem hbody => ?_)
      obtain ⟨r, found, hr, rfl⟩ := mem_outline_iff.mp hmem
      exact not_knows_of_containsBody (Bool.eq_false_iff.mpr hknown) found.type
        ⟨r, found, hr, rfl, hbody⟩

/-- Adding a rule appends at most one row. -/
theorem rowSteps_addRule (g : Grammar) (type : String) (body : Expr) :
    RowSteps change g.outline (g.addRule type body).state.outline := by
  unfold addRule
  split
  · exact .refl
  · exact rowSteps_addEntry ..

/-- Adding an immediate rule appends at most one row. -/
theorem rowSteps_addImmediateRule (g : Grammar) (type : String) (body : Expr) :
    RowSteps change g.outline (g.addImmediateRule type body).state.outline := by
  unfold addImmediateRule
  split
  · exact .refl
  · exact rowSteps_addEntry ..

/-- Adding rules of a type appends rows, one at a time. -/
theorem rowSteps_addRules (g : Grammar) (type : String) (bodies : List Expr) :
    RowSteps change g.outline (g.addRules type bodies).state.outline := by
  induction bodies generalizing g with
  | nil => exact .refl
  | cons body rest ih =>
    have hfirst : RowSteps change g.outline (g.addRule type body).state.outline := rowSteps_addRule ..
    unfold addRules
    split
    · rename_i hadded
      rw [hadded] at hfirst
      exact hfirst.trans (ih _)
    · rename_i hrefused
      rwa [hrefused] at hfirst

/-- Adding a rule with a probability appends at most one row. -/
theorem rowSteps_addRuleWithProbability (g : Grammar) (p : Float) (type : String) (body : Expr) :
    RowSteps change g.outline (g.addRuleWithProbability p type body).state.outline := by
  unfold addRuleWithProbability
  split
  · exact .refl
  · have hstart : (if g.isProbabilistic then g else { g with weights := some #[] }).outline =
        g.outline := by split <;> rfl
    dsimp only
    generalize (if g.isProbabilistic then g else { g with weights := some #[] }) = start at hstart ⊢
    rw [← hstart]
    split
    · exact rowSteps_addEntry ..
    · exact .refl

/-- Taking a rule out is one step, if it is any. -/
theorem rowSteps_removeRule (g : Grammar) (r : RuleId) :
    RowSteps change g.outline (g.removeRule r).state.outline := by
  rcases removeRule_cases g r with hsame | ⟨rule, -, hstate⟩
  · exact rowSteps_of_eq (congrArg outline hsame)
  · rw [hstate, outline_delist, outline_withGap]
    exact .single (.takenOut r.index)

/-- The rules of another grammar are joined on one after the other. -/
theorem Merges.rowSteps {other : Grammar} {ids : List RuleId} {mapping : List (Option RuleId)}
    (h : Merges other g ids mapping g') : RowSteps (.merge other) g.outline g'.outline := by
  induction h with
  | nil g => exact .refl
  | gap _ _ ih => exact ih
  | known _ _ _ _ _ ih => exact ih
  | @pushed g _ r rule _ _ hr hnew _ _ ih =>
    rw [outline_pushRule] at ih
    refine .head (.joined (bare_mem_outline hr) fun known hmem hsame => ?_) ih
    obtain ⟨s, found, hs, rfl⟩ := mem_outline_iff.mp hmem
    exact hnew ⟨s, found, hs, hsame.1, hsame.2⟩

/-- A merge appends rows, one at a time. -/
theorem Consistent.rowSteps_merge (hg : Consistent g) (other : Grammar) :
    RowSteps (.merge other) g.outline (g.merge other).state.outline := by
  have hstart : (g.mergeStart other).outline = g.outline :=
    outline_of_rows (rows_mergeStart g other)
  rw [merge_eq]
  split
  · exact .refl
  · split
    · exact .refl
    · split
      · exact .refl
      · rename_i mapping grown hrows
        rw [weightedRows_eq] at hrows
        have hjoined := ((hg.mergeStart other).merges hrows).rowSteps
        have hgrown : (g.mergeWeighted other grown).state.outline = grown.outline := by
          rw [outline_of_rows (rows_mergeWeighted g other grown), mergeIndexed, outline_reindex]
          rfl
        rw [hstart, ← hgrown] at hjoined
        split
        · exact .refl
        · exact hjoined

/-- Every change comes to a sequence of steps on the rows. -/
theorem Consistent.rowSteps (hg : Consistent g) (change : Change) :
    RowSteps change g.outline (change.run g).outline := by
  cases change with
  | withSymbols symbols => exact rowSteps_of_eq (outline_reindex _)
  | addRule type body => exact rowSteps_addRule g type body
  | addRules type bodies => exact rowSteps_addRules g type bodies
  | addImmediateRule type body => exact rowSteps_addImmediateRule g type body
  | addRuleWithProbability p type body => exact rowSteps_addRuleWithProbability g p type body
  | removeRule r => exact rowSteps_removeRule g r
  | compact =>
    rw [Change.run, hg.outline_compact]
    exact .single .closed
  | merge other => exact hg.rowSteps_merge other
  | addConstraint c => exact rowSteps_of_eq (outline_of_rows (rows_addConstraint g c))
  | clearConstraints => exact .refl
  | normalize => exact rowSteps_of_eq (outline_of_rows (rows_normalize g))
  | initUniform => exact rowSteps_of_eq (outline_of_rows (rows_initUniform g))

/-! ### Runs -/

/-- Changes keep a grammar consistent, whatever is merged. -/
theorem Consistent.run (hg : Consistent g) (change : Change) : Consistent (change.run g) := by
  cases change with
  | withSymbols symbols => exact hg.withSymbols symbols
  | addRule type body => exact hg.addRule type body
  | addRules type bodies => exact hg.addRules type bodies
  | addImmediateRule type body => exact hg.addImmediateRule type body
  | addRuleWithProbability p type body => exact hg.addRuleWithProbability p type body
  | removeRule r => exact hg.removeRule r
  | compact => exact hg.compact
  | merge other => exact hg.merge other
  | addConstraint c => exact hg.addConstraint c
  | clearConstraints => exact hg.withConstraints []
  | normalize => exact hg.normalize
  | initUniform => exact hg.initUniform

/-- A property of outlines that is kept by the steps of a change is kept by the change. -/
theorem Consistent.run_induction (hg : Consistent g)
    (hstep : ∀ rows rows', RowStep change rows rows' → P rows → P rows') (h : P g.outline) :
    P (change.run g).outline := by
  have hsteps := hg.rowSteps change
  generalize (change.run g).outline = rows at hsteps ⊢
  induction hsteps with
  | refl => exact h
  | tail _ hlast ih => exact hstep _ _ hlast ih

/-- A run of changes makes the first one and then the others. -/
theorem runAll_cons (g : Grammar) (change : Change) (changes : List Change) :
    g.runAll (change :: changes) = (change.run g).runAll changes := rfl

/-- Changes that are made one after the other can be split anywhere. -/
theorem runAll_append (g : Grammar) (changes later : List Change) :
    g.runAll (changes ++ later) = (g.runAll changes).runAll later := List.foldl_append

/-- A run of changes leaves a grammar consistent. -/
theorem Consistent.runAll (hg : Consistent g) (changes : List Change) :
    Consistent (g.runAll changes) := by
  induction changes generalizing g with
  | nil => exact hg
  | cons change rest ih => exact ih (hg.run change)

/-- A property of outlines that is kept by the steps of all changes of a run is kept by the run. -/
theorem Consistent.runAll_induction (hg : Consistent g)
    (hstep : ∀ change ∈ changes, ∀ rows rows', RowStep change rows rows' → P rows → P rows')
    (h : P g.outline) : P (g.runAll changes).outline := by
  induction changes generalizing g with
  | nil => exact h
  | cons change rest ih =>
    exact ih (hg.run change) (fun c hc => hstep c (List.mem_cons_of_mem _ hc))
      (hg.run_induction (hstep change List.mem_cons_self) h)

/-- A property of outlines that is kept by all steps, where it holds of the grammars that are merged,
holds of every grammar that can come about. -/
theorem Reachable.outline_induction (h : Reachable g) (hempty : P [])
    (hstep : ∀ change rows rows', (∀ other, change = .merge other → P other.outline) →
      RowStep change rows rows' → P rows → P rows') : P g.outline := by
  have hrun : ∀ {g : Grammar} (change : Change), Consistent g → P g.outline →
      (∀ other, change = .merge other → P other.outline) → P (change.run g).outline :=
    fun change hg hP hmerge => hg.run_induction (fun rows rows' => hstep change rows rows' hmerge) hP
  induction h with
  | empty => exact hempty
  | emptyProbabilistic => exact hempty
  | withSymbols hg symbols ih => exact hrun (.withSymbols symbols) hg.consistent ih nofun
  | addRule hg type body ih => exact hrun (.addRule type body) hg.consistent ih nofun
  | addRules hg type bodies ih => exact hrun (.addRules type bodies) hg.consistent ih nofun
  | addImmediateRule hg type body ih =>
    exact hrun (.addImmediateRule type body) hg.consistent ih nofun
  | addRuleWithProbability hg p type body ih =>
    exact hrun (.addRuleWithProbability p type body) hg.consistent ih nofun
  | removeRule hg r ih => exact hrun (.removeRule r) hg.consistent ih nofun
  | compact hg ih => exact hrun .compact hg.consistent ih nofun
  | @merge _ other hg _ ih ihother =>
    refine hrun (.merge other) hg.consistent ih fun merged hmerged => ?_
    cases hmerged
    exact ihother
  | addConstraint hg c ih => exact hrun (.addConstraint c) hg.consistent ih nofun
  | clearConstraints hg ih => exact hrun .clearConstraints hg.consistent ih nofun
  | normalize hg ih => exact hrun .normalize hg.consistent ih nofun
  | initUniform hg ih => exact hrun .initUniform hg.consistent ih nofun

end TypedGrammar.Grammar
