import TypedGrammar.Grammar.Listing
import TypedGrammar.Proofs.Grammar.FailedChanges

/-!
# Where a promise can be broken

An operation is in breach when it looks at a row that the table lacks or at a rule that was taken out.
A question about one rule is in breach exactly when its caller asks for such a rule. Everything else
takes its rules from the index or checks them first, and in a consistent grammar is never in breach.
-/

namespace TypedGrammar

/-- The result is a broken promise. -/
def Breaches {α : Type} (x : Except Failure α) : Prop := ∃ breach, x = .error (.breach breach)

variable {α β : Type} {x : Except Failure α}

/-- What succeeds breaks no promise. -/
theorem not_breaches_of_isOk (h : ∃ a, x = .ok a) : ¬ Breaches x := by
  rintro ⟨breach, hbreach⟩
  obtain ⟨a, ha⟩ := h
  rw [ha] at hbreach
  cases hbreach

/-- An answer is no broken promise. -/
theorem not_breaches_ok (a : α) : ¬ Breaches (.ok a : Except Failure α) :=
  not_breaches_of_isOk ⟨a, rfl⟩

/-- A reported error is no broken promise. -/
theorem not_breaches_report (error : GrammarError) : ¬ Breaches (report error : Except Failure α) :=
  nofun

/-- Two steps keep every promise when both do. -/
theorem not_breaches_bind {f : α → Except Failure β} (hx : ¬ Breaches x)
    (hf : ∀ a, x = .ok a → ¬ Breaches (f a)) : ¬ Breaches (x >>= f) := by
  cases x with
  | error failure =>
    rintro ⟨breach, hbreach⟩
    obtain rfl := Except.error.inj hbreach
    exact hx ⟨breach, rfl⟩
  | ok a => exact hf a rfl

/-- What is computed from an answer is in breach exactly when the answer is. -/
theorem breaches_map_iff (f : α → β) : Breaches (x >>= fun a => pure (f a)) ↔ Breaches x := by
  cases x with
  | error failure => simp [Breaches, bind, Except.bind]
  | ok a => exact iff_of_false (not_breaches_ok _) (not_breaches_ok _)

namespace Grammar

variable {g other : Grammar} {r : RuleId} {type : String} {body : Expr}

/-! ### Questions about one rule -/

/-- Asking for a row breaks a promise when the table has no such row. -/
theorem breaches_row_iff : Breaches (g.row r) ↔ g.size < r.number := by
  rw [RuleId.number, Nat.lt_succ_iff]
  unfold row
  cases hrow : g.rows[r.index]? with
  | none => exact ⟨fun _ => Array.getElem?_eq_none_iff.mp hrow, fun _ => ⟨_, rfl⟩⟩
  | some row =>
    have hin : r.index < g.size := (Array.getElem?_eq_some_iff.mp hrow).1
    exact iff_of_false (not_breaches_ok _) (Nat.not_le.mpr hin)

/-- A row that is a gap or lies behind the table is no rule of the table. -/
theorem breaches_live_iff :
    Breaches (g.live r) ↔ g.size < r.number ∨ g.isRemoved r = .ok true := by
  rw [← breaches_row_iff]
  unfold live isRemoved
  rcases g.row r with failure | _ | rule
  · simp [Breaches, bind, Except.bind]
  · exact ⟨fun _ => .inr rfl, fun _ => ⟨_, rfl⟩⟩
  · exact ⟨nofun, nofun⟩

/-- Asking whether a rule was taken out breaks a promise when the table has no row for it. -/
theorem breaches_isRemoved_iff : Breaches (g.isRemoved r) ↔ g.size < r.number :=
  (breaches_map_iff _).trans breaches_row_iff

/-- Asking for the types of the children breaks a promise when the table has no row for the rule. -/
theorem breaches_childTypes_iff : Breaches (g.childTypes r) ↔ g.size < r.number :=
  (breaches_map_iff _).trans breaches_row_iff

/-- Asking whether a rule is a variable breaks a promise when the rule has no row, or was taken out. -/
theorem breaches_isVariable_iff :
    Breaches (g.isVariable r) ↔ g.size < r.number ∨ g.isRemoved r = .ok true :=
  (breaches_map_iff _).trans breaches_live_iff

/-- Asking for the type of a rule breaks a promise when the rule has no row, or was taken out. -/
theorem breaches_returnType_iff :
    Breaches (g.returnType r) ↔ g.size < r.number ∨ g.isRemoved r = .ok true :=
  (breaches_map_iff _).trans breaches_live_iff

/-! ### Lookups -/

/-- Looking a type up reports a type that is not known. -/
theorem not_breaches_typeEntry : ¬ Breaches (g.typeEntry type) := by
  unfold typeEntry
  split
  · exact not_breaches_ok _
  · exact not_breaches_report _

/-- Looking for a rule gives an answer, since the rules in the index are in the table. -/
theorem Indexed.isOk_findRule? (hg : Indexed g) (type : String) (body : Expr) :
    ∃ found, g.findRule? type body = .ok found := by
  rcases hg.findRule?_cases type body with ⟨r, rule, hfound, -⟩ | ⟨hnone, -⟩
  · exact ⟨some r, hfound⟩
  · exact ⟨none, hnone⟩

/-- Looking for rules of the table in another grammar gives an answer. -/
theorem Indexed.isOk_allFoundIn (hother : Indexed other) {rules : List RuleId}
    (hrules : ∀ r ∈ rules, ∃ rule, g.ruleAt? r = some rule) :
    ∃ answer, g.allFoundIn other rules = .ok answer := by
  induction rules with
  | nil => exact ⟨true, rfl⟩
  | cons r rest ih =>
    obtain ⟨⟨rule, hr⟩, hrest⟩ := List.forall_mem_cons.mp hrules
    rw [allFoundIn, live_eq_ok_iff.mpr hr, ok_bind]
    obtain ⟨found, hfound⟩ := hother.isOk_findRule? rule.type rule.body
    rw [hfound, ok_bind]
    cases found with
    | none => exact ⟨false, rfl⟩
    | some known => exact ih hrest

/-- Whether one grammar contains another can be asked when the index of the larger one is right. -/
theorem Indexed.isOk_containedIn (hother : Indexed other) (g : Grammar) :
    ∃ answer, g.containedIn other = .ok answer :=
  hother.isOk_allFoundIn fun _ hr => exists_rule_of_mem_ruleIds hr

/-! ### Listing -/

/-- There is a weight to be written down for each row. -/
theorem Indexed.isOk_weightLabel (hg : Indexed g) (hr : r.index < g.size) :
    ∃ label, g.weightLabel r = .ok label := by
  unfold weightLabel
  split
  · exact ⟨"", rfl⟩
  · rename_i weights hweights
    have hlt : r.index < weights.size := hg.weights_size weights hweights ▸ hr
    exact isOk_bind (isOk_weightAt hlt) fun w _ => ⟨_, rfl⟩

/-- Every rule of the table has a line. -/
theorem Indexed.isOk_ruleLine (hg : Indexed g) {rule : Rule} (hr : g.ruleAt? r = some rule) :
    ∃ line, g.ruleLine r = .ok line := by
  refine isOk_bind (hg.isOk_weightLabel (index_lt_of_ruleAt? hr)) fun label _ => ?_
  exact isOk_bind ⟨rule, live_eq_ok_iff.mpr hr⟩ fun _ _ => ⟨_, rfl⟩

/-- The rules of a grammar can be listed. -/
theorem Indexed.isOk_listing (hg : Indexed g) : ∃ text, g.listing = .ok text := by
  have hlines : ∃ lines, g.ruleIds.mapM g.ruleLine = .ok lines := isOk_mapM fun r hr => by
    obtain ⟨rule, hrule⟩ := exists_rule_of_mem_ruleIds hr
    exact hg.isOk_ruleLine hrule
  exact isOk_bind (isOk_bind hlines fun _ _ => ⟨_, rfl⟩) fun _ _ => ⟨_, rfl⟩

/-! ### Changes -/

/-- Adding a row breaks no promise. -/
theorem not_breaches_addEntry {immediate : Bool} {weight : Option Float} :
    ¬ Breaches (g.addEntry type body immediate weight).result := by
  unfold addEntry
  split
  · exact not_breaches_report _
  · split
    · exact not_breaches_ok _
    · exact not_breaches_ok _

/-- Adding a rule breaks no promise. -/
theorem not_breaches_addRule : ¬ Breaches (g.addRule type body).result := by
  unfold addRule
  split
  · exact not_breaches_report _
  · exact not_breaches_addEntry

/-- Adding an immediate rule breaks no promise. -/
theorem not_breaches_addImmediateRule : ¬ Breaches (g.addImmediateRule type body).result := by
  unfold addImmediateRule
  split
  · exact not_breaches_report _
  · exact not_breaches_addEntry

/-- Adding a rule with a probability breaks no promise. -/
theorem not_breaches_addRuleWithProbability {p : Float} :
    ¬ Breaches (g.addRuleWithProbability p type body).result := by
  unfold addRuleWithProbability
  split
  · exact not_breaches_report _
  · dsimp only
    split
    · exact not_breaches_addEntry
    · exact not_breaches_report _

/-- Several rules fail as one of them does. -/
theorem not_breaches_addRules {bodies : List Expr} :
    ¬ Breaches (g.addRules type bodies).result := by
  rintro ⟨breach, herror⟩
  obtain ⟨before, refused, after, -, -, hrefused⟩ := addRules_of_error herror
  exact not_breaches_addRule ⟨breach, hrefused⟩

/-- Checking the rules that a constraint names breaks no promise. -/
theorem not_breaches_checkRules {rules : List RuleId} : ¬ Breaches (g.checkRules rules) := by
  induction rules with
  | nil => exact not_breaches_ok _
  | cons r rest ih =>
    refine not_breaches_bind ?_ fun _ _ => ih
    unfold checkRule
    split
    · exact not_breaches_report _
    · exact not_breaches_report _
    · exact not_breaches_ok _

/-- Checking a constraint breaks no promise. -/
theorem not_breaches_checkConstraint {c : Constraint} : ¬ Breaches (g.checkConstraint c) := by
  unfold checkConstraint
  split
  · exact not_breaches_checkRules
  · exact not_breaches_report _

/-- Adding a constraint breaks no promise. -/
theorem not_breaches_addConstraint {c : Constraint} : ¬ Breaches (g.addConstraint c).result := by
  rintro ⟨breach, herror⟩
  unfold addConstraint at herror
  split at herror
  · cases herror
  · rename_i failure hfailure
    obtain rfl := Except.error.inj herror
    exact not_breaches_checkConstraint ⟨breach, hfailure⟩

/-- A merge fails for the reasons that it checks, and none of them is a breach. -/
theorem Consistent.not_breaches_merge (h : Consistent g) (hother : Indexed other) :
    ¬ Breaches (g.merge other).result := by
  rintro ⟨breach, herror⟩
  rcases h.merge_eq_error_iff.mp herror with hfault | hmisses
  · rcases hfault with - | ⟨-, -, -, hinvalid⟩
    exact not_breaches_checkConstraint ⟨breach, hinvalid⟩
  · exact hother.not_missesWeight g _ hmisses

/-- Taking out a rule is in breach exactly behind the table. -/
theorem Indexed.breaches_removeRule_iff (hg : Indexed g) :
    Breaches (g.removeRule r).result ↔ g.size < r.number := by
  rw [← breaches_row_iff]
  cases hrow : g.row r with
  | error failure =>
    rw [removeRule, hrow]
    simp [Breaches, Edit.failed]
  | ok row =>
    refine iff_of_false ?_ (not_breaches_ok row)
    cases row with
    | none =>
      rw [removeRule, hrow]
      exact not_breaches_report (.removedRule r)
    | some rule => exact not_breaches_of_isOk ⟨(), (hg.removeRule_eq (ruleAt?_of_row hrow)).1⟩

end Grammar

end TypedGrammar
