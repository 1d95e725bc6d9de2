import TypedGrammar.Proofs.Derivation.Compacting
import TypedGrammar.Proofs.Derivation.Counting
import TypedGrammar.Proofs.Derivation.ParseSoundness
import TypedGrammar.Proofs.Grammar.Breaches
import TypedGrammar.Proofs.Grammar.Embedding
import TypedGrammar.Derivation.Witness

/-!
# Breaches come from callers only

Searches over derivations take their rules from the index, so they are never in breach. `BreachesByCaller`
collects what this comes to for a whole grammar: the operations that are never in breach, the questions
about one rule that are in breach exactly when the caller asks for a rule that the grammar does not have,
and the positions that are read without a check because they are always in the table. Taking other
constants, closing gaps and resolving a name give their answers outright, so for them only what they
read by position is left to say.
-/

namespace TypedGrammar.Grammar

variable {g other : Grammar} {r : RuleId} {type : String}

/-! ### A derivation of bounded depth -/

section Step

variable {find : String → DeadEnds → Except Failure (Option Tree × DeadEnds)}

/-- Looking for children succeeds when looking for a tree of a type does. -/
theorem isOk_findChildren (hfind : ∀ type dead, ∃ found, find type dead = .ok found)
    (types : List String) (dead : DeadEnds) : ∃ found, findChildren find dead types = .ok found := by
  induction types generalizing dead with
  | nil => exact ⟨(some [], dead), rfl⟩
  | cons type rest ih =>
    obtain ⟨⟨found, dead'⟩, hfound⟩ := hfind type dead
    rw [findChildren, hfound, ok_bind]
    cases found with
    | none => exact ⟨(none, dead'), rfl⟩
    | some t => exact isOk_bind (ih dead') fun _ _ => ⟨_, rfl⟩

/-- So does looking for a node of the first rule of a list, for rules of the table. -/
theorem isOk_findRuleNode (hfind : ∀ type dead, ∃ found, find type dead = .ok found)
    {rules : List RuleId} (hrules : ∀ r ∈ rules, ∃ rule, g.ruleAt? r = some rule) (dead : DeadEnds) :
    ∃ found, findRuleNode g find dead rules = .ok found := by
  induction rules generalizing dead with
  | nil => exact ⟨(none, dead), rfl⟩
  | cons r rest ih =>
    obtain ⟨⟨rule, hr⟩, hrest⟩ := List.forall_mem_cons.mp hrules
    rw [findRuleNode, isImmediate_of_ruleAt? hr, ok_bind]
    split
    · exact ih hrest dead
    · obtain ⟨⟨children, dead'⟩, hchildren⟩ := isOk_findChildren hfind rule.childTypes dead
      rw [childTypes_of_ruleAt? hr, ok_bind, hchildren, ok_bind]
      cases children with
      | none => exact ih hrest dead'
      | some children => exact ⟨_, rfl⟩

end Step

/-- Looking for a tree of bounded depth succeeds when the index fits the table. -/
theorem Indexed.isOk_findType (hg : Indexed g) (depth : Nat) (type : String) (dead : DeadEnds) :
    ∃ found, g.findType depth type dead = .ok found := by
  induction depth generalizing type dead with
  | zero => exact ⟨(none, dead), rfl⟩
  | succ depth ih =>
    rw [findType]
    split
    · exact ⟨(none, dead), rfl⟩
    · have hrules : ∀ r ∈ g.rulesOrNone type, ∃ rule, g.ruleAt? r = some rule :=
        fun r hr => isLive_iff.mp (hg.isLive_of_rulesOrNone type r hr)
      obtain ⟨⟨found, dead'⟩, hfound⟩ := isOk_findRuleNode ih hrules dead
      rw [hfound, ok_bind]
      cases found with
      | none => exact ⟨_, rfl⟩
      | some t => exact ⟨_, rfl⟩

/-- Asking for one derivation is never in breach. -/
theorem Indexed.not_breaches_oneDerivation (hg : Indexed g) (type : String) (depth : Nat) :
    ¬ Breaches (g.oneDerivation type depth) := by
  unfold oneDerivation
  split
  · exact not_breaches_of_isOk (isOk_bind (hg.isOk_findType depth type []) fun _ _ => ⟨_, rfl⟩)
  · exact not_breaches_report _

/-! ### Counting and parsing -/

/-- Counting derivations is never in breach. -/
theorem Indexed.not_breaches_countDerivations (hg : Indexed g) (type : String) (depth : Nat) :
    ¬ Breaches (g.countDerivations type depth) := by
  cases htype : g.hasType type with
  | true => exact not_breaches_of_isOk ⟨_, hg.countDerivations_eq htype depth⟩
  | false =>
    rw [countDerivations, if_neg (by simp [htype])]
    exact not_breaches_report _

/-- Parsing an expression is never in breach. -/
theorem Consistent.not_breaches_fromExpression (hg : Consistent g) (e : Expr) (type : String) :
    ¬ Breaches (g.fromExpression e type) := by
  cases htype : g.hasType type with
  | true =>
    rcases hg.fromExpression_answers htype e with ⟨t, ht, -⟩ | hnone
    · exact not_breaches_of_isOk ⟨t, ht⟩
    · rw [hnone]
      exact not_breaches_report _
  | false =>
    rw [fromExpression_unknown htype]
    exact not_breaches_report _

/-! ### Probabilities -/

/-- The log-probability of a rule is in breach exactly when its type is. -/
theorem Indexed.breaches_logProbability_iff (hg : Indexed g) :
    Breaches (g.logProbability r).result ↔ g.size < r.number ∨ g.isRemoved r = .ok true := by
  rw [← breaches_returnType_iff]
  cases htype : g.returnType r with
  | error failure =>
    have hfirst : (Logged.ofResult (g.returnType r)).result = .error failure := htype
    rw [logProbability, result_bind, hfirst]
    simp [Breaches, bind, Except.bind]
  | ok type =>
    obtain ⟨rule, hrule, -⟩ := returnType_eq_ok_iff.mp htype
    rw [hg.result_logProbability hrule]
    exact iff_of_false (not_breaches_ok _) (not_breaches_ok _)

/-- What is computed from a log-probability is in breach exactly when the log-probability is. -/
theorem Indexed.breaches_weight_iff (hg : Indexed g) (f : LogProbability → Float) :
    Breaches (g.logProbability r >>= fun p => pure (f p) : Logged Float).result ↔
      g.size < r.number ∨ g.isRemoved r = .ok true := by
  rw [← hg.breaches_logProbability_iff, result_bind]
  exact breaches_map_iff f

/-! ### The whole grammar -/

/-- Every position up to the next one has a rule, as long as numbers of 32 bits reach. -/
theorem ofPosition_eq {i : Nat} (hi : i < Nat.pow 2 32 - 1) : RuleId.ofPosition i = .ok ⟨i⟩ := by
  have hsmall : i % Nat.pow 2 32 = i := Nat.mod_eq_of_lt (by omega)
  have hnext : (i + 1) % Nat.pow 2 32 = i + 1 := Nat.mod_eq_of_lt (by omega)
  rw [RuleId.ofPosition, RuleId.ofPosition?, hsmall, hnext]
  rfl

/-- Only a caller that asks for a rule that the grammar does not have can bring it to a breach. -/
structure BreachesByCaller (g : Grammar) : Prop where
  /-- Adding rules, with or without probabilities, is never in breach. -/
  adding : ∀ type body, ¬ Breaches (g.addRule type body).result ∧
    ¬ Breaches (g.addImmediateRule type body).result ∧
    (∀ p, ¬ Breaches (g.addRuleWithProbability p type body).result) ∧
    ∀ bodies, ¬ Breaches (g.addRules type bodies).result
  /-- The gaps of the table can always be closed. -/
  compact : ∃ mapping, g.compact.result = .ok mapping
  /-- Merging with another grammar is never in breach: the weights that are taken along are there, and so
  are the rows whose rules are renamed. -/
  merge : ∀ other, Reachable other → ¬ Breaches (g.merge other).result
  /-- Neither is adding a constraint. -/
  addConstraint : ∀ c, ¬ Breaches (g.addConstraint c).result
  /-- Weights can always be scaled and made uniform. -/
  weights : g.normalize.result = .ok () ∧ g.initUniform.result = .ok ()
  /-- Looking up a type is never in breach. -/
  lookup : ∀ type, ¬ Breaches (g.domain type) ∧ ¬ Breaches (g.rulesOfType type)
  /-- Looking for a rule gives an answer, and so does looking for all rules in another grammar. -/
  search : (∀ type body, ∃ found, g.findRule? type body = .ok found) ∧
    ∀ other, Reachable other → ∃ answer, g.containedIn other = .ok answer
  /-- Counting, finding and parsing derivations are never in breach. -/
  derivations : ∀ type, (∀ depth, ¬ Breaches (g.countDerivations type depth)) ∧
    (∀ depth, ¬ Breaches (g.oneDerivation type depth)) ∧
    ∀ e, ¬ Breaches (g.fromExpression e type)
  /-- The grammar can be listed. -/
  listing : ∃ text, g.listing = .ok text
  /-- A caller may ask for the row of a rule as far as the table reaches. -/
  rows : ∀ r, (Breaches (g.removeRule r).result ↔ g.size < r.number) ∧
    (Breaches (g.isRemoved r) ↔ g.size < r.number) ∧
    (Breaches (g.isTerminal r) ↔ g.size < r.number) ∧
    (Breaches (g.isImmediate r) ↔ g.size < r.number) ∧
    (Breaches (g.childTypes r) ↔ g.size < r.number) ∧
    (Breaches (g.arity r) ↔ g.size < r.number) ∧
    (Breaches (g.symbolKinds r) ↔ g.size < r.number)
  /-- A caller may ask for a rule that is in the table and was not taken out. -/
  rules : ∀ r, (Breaches (g.body r) ↔ g.size < r.number ∨ g.isRemoved r = .ok true) ∧
    (Breaches (g.returnType r) ↔ g.size < r.number ∨ g.isRemoved r = .ok true) ∧
    (Breaches (g.isVariable r) ↔ g.size < r.number ∨ g.isRemoved r = .ok true) ∧
    (Breaches (g.logProbability r).result ↔ g.size < r.number ∨ g.isRemoved r = .ok true) ∧
    (Breaches (g.probability r).result ↔ g.size < r.number ∨ g.isRemoved r = .ok true) ∧
    (Breaches (g.ruleCost r).result ↔ g.size < r.number ∨ g.isRemoved r = .ok true)
  /-- There is a weight for each row. -/
  weights_size : ∀ ws, g.weights = some ws → ws.size = g.size
  /-- The index lists rules that are in the table and were not taken out. -/
  listed : ∀ type rules, g.rulesOfType type = .ok rules → ∀ r ∈ rules, g.isRemoved r = .ok false
  /-- A merge knows a new rule for every rule in a constraint that it renames. -/
  renamed : ∀ other, Reachable other → ∀ mapping, (g.merge other).result = .ok mapping →
    ∀ c ∈ other.constraints, ∀ r ∈ c.rules, ∃ image, mapping[r.index]? = some (some image)
  /-- As long as the table is short enough, its positions and the next one have rules. -/
  positions : g.size < Nat.pow 2 32 - 1 → ∀ i ≤ g.size, RuleId.ofPosition i = .ok ⟨i⟩

/-- Operations on a grammar that can come about are in breach exactly when the caller asks for a rule
that the grammar does not have. -/
theorem Reachable.breaches_by_caller (h : Reachable g) : BreachesByCaller g where
  adding type body := ⟨not_breaches_addRule, not_breaches_addImmediateRule,
    fun _ => not_breaches_addRuleWithProbability, fun _ => not_breaches_addRules⟩
  compact := ⟨g.movedNames, congrArg Edit.result h.consistent.compact_eq⟩
  merge _ hother := h.consistent.not_breaches_merge hother.consistent.toIndexed
  addConstraint _ := not_breaches_addConstraint
  weights := ⟨h.consistent.result_normalize, h.consistent.result_initUniform⟩
  lookup type :=
    ⟨mt (breaches_map_iff _).mp not_breaches_typeEntry, mt (breaches_map_iff _).mp not_breaches_typeEntry⟩
  search := ⟨h.consistent.isOk_findRule?, fun _ hother => hother.consistent.isOk_containedIn g⟩
  derivations type := ⟨h.consistent.not_breaches_countDerivations type,
    h.consistent.not_breaches_oneDerivation type,
    fun e => h.consistent.not_breaches_fromExpression e type⟩
  listing := h.consistent.isOk_listing
  rows r := ⟨h.consistent.breaches_removeRule_iff, breaches_isRemoved_iff,
    (breaches_map_iff _).trans breaches_childTypes_iff, (breaches_map_iff _).trans breaches_row_iff,
    breaches_childTypes_iff, (breaches_map_iff _).trans breaches_childTypes_iff,
    (breaches_map_iff _).trans breaches_row_iff⟩
  rules r := ⟨(breaches_map_iff _).trans breaches_live_iff, breaches_returnType_iff,
    breaches_isVariable_iff, h.consistent.breaches_logProbability_iff,
    h.consistent.breaches_weight_iff _, h.consistent.breaches_weight_iff _⟩
  weights_size := h.consistent.weights_size
  listed type rules hrules r hr := by
    obtain ⟨entry, hentry, hlisted⟩ := bind_eq_ok.mp hrules
    obtain rfl := Except.ok.inj hlisted
    obtain ⟨rule, hrule, -⟩ := (h.consistent.rules_of_entry (get?_of_typeEntry hentry) r).mp hr
    exact isRemoved_of_ruleAt? hrule
  renamed other _ mapping hmapping c hc r hr := by
    obtain ⟨grown, hparts⟩ := h.consistent.mergeParts hmapping
    exact ⟨_, hparts.renamed_image hc hr⟩
  positions hsize i hi := ofPosition_eq (Nat.lt_of_le_of_lt hi hsize)

/-- After a rule was taken out that a constraint mentions, its body is not to be asked for, but what
else is kept for it still is. -/
theorem staleConstraint_breaches_by_caller :
    Reachable staleConstraint ∧ BreachesByCaller staleConstraint ∧
    Breaches (staleConstraint.body ⟨1⟩) ∧ ¬ Breaches (staleConstraint.childTypes ⟨1⟩) ∧
    Breaches (staleConstraint.childTypes ⟨2⟩) := by
  have hreachable : Reachable staleConstraint :=
    ((Reachable.empty.addRules _ _).addConstraint _).removeRule _
  have hbreaches := hreachable.breaches_by_caller
  have hsize : staleConstraint.size = 2 := by cbv
  have hremoved : staleConstraint.isRemoved ⟨1⟩ = .ok true := by cbv
  obtain ⟨-, -, -, -, hchildren, -⟩ := hbreaches.rows ⟨1⟩
  obtain ⟨-, -, -, -, hbehind, -⟩ := hbreaches.rows ⟨2⟩
  refine ⟨hreachable, hbreaches, (hbreaches.rules ⟨1⟩).1.mpr (.inr hremoved), ?_, hbehind.mpr ?_⟩
  · rw [hchildren, hsize]
    decide
  · rw [hsize]
    decide

end TypedGrammar.Grammar
