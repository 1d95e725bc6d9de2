import TypedGrammar.Proofs.Derivation.SameRules
import TypedGrammar.Proofs.Grammar.SoundTable

/-!
# The order in which rules are added

Rules with different bodies may be added in any order. On the way the grammars differ: a symbol of an
early rule is a constant or a variable until a rule of the type of its name comes along. In the end each
entry has become the rule named by its place, and the symbols are resolved by the same types.
-/

namespace TypedGrammar.Grammar

/-- What is given for a rule that is to be added. -/
structure RuleEntry where
  /-- The type that the rule derives. -/
  type : String
  /-- The template. -/
  body : Expr
  /-- Is it evaluated immediately? -/
  immediate : Bool

namespace RuleEntry

/-- Add the rule. -/
def change (entry : RuleEntry) : Change :=
  if entry.immediate then .addImmediateRule entry.type entry.body
  else .addRule entry.type entry.body

/-- The rule before its symbols are resolved. -/
def rule (entry : RuleEntry) : Rule := ⟨entry.type, entry.body, entry.immediate, []⟩

/-- Nothing is wrong with the rule. -/
def Admissible (entry : RuleEntry) : Prop := Text.isBlank entry.type = false ∧ entry.body.Named

end RuleEntry

/-- The grammar that has some constants and gets rules added one after the other. -/
def grammarOf (symbols : SymbolTable) (entries : List RuleEntry) : Grammar :=
  (empty.withSymbols symbols).runAll (entries.map RuleEntry.change)

variable {g : Grammar} {entry : RuleEntry} {entries entries' : List RuleEntry}

/-! ### What the rules become -/

/-- A rule with a new body is added to a grammar without probabilities, and nothing else changes that is
not computed from the rules. -/
theorem run_change (hplain : g.isProbabilistic = false) (hentry : entry.Admissible)
    (hnew : entry.body ∉ g.outline.reduceOption.map Rule.body) :
    (entry.change.run g).outline = g.outline ++ [some entry.rule] ∧
      (entry.change.run g).symbols = g.symbols ∧ (entry.change.run g).isProbabilistic = false := by
  have hrun : entry.change.run g = (g.addEntry entry.type entry.body entry.immediate none).state := by
    rw [RuleEntry.change]
    cases entry.immediate with
    | true => rw [if_pos rfl, Change.run, addImmediateRule, hplain]; rfl
    | false => rw [if_neg Bool.false_ne_true, Change.run, addRule, hplain]; rfl
  have hunknown : g.containsBody entry.body = false := by
    rw [← Bool.not_eq_true, containsBody_iff]
    intro hknown
    obtain ⟨r, hr⟩ := hknown
    obtain ⟨rule, hr, hbody⟩ := body_eq_ok_iff.mp hr
    exact hnew (List.mem_map.mpr ⟨bare rule, bare_mem_outline hr, hbody⟩)
  have hadded : entry.change.run g =
      (g.pushRule entry.type entry.body entry.immediate none).2.reindex := by
    rw [hrun, addEntry, ruleFault?_eq_none_iff.mpr hentry]
    simp only [hunknown, Bool.false_eq_true, if_false]
    rfl
  refine ⟨?_, by rw [hadded]; rfl, ?_⟩
  · rw [hadded, outline_reindex, outline_pushRule]
    rfl
  · rw [isProbabilistic, Option.isSome_eq_false_iff] at hplain ⊢
    rw [hadded]
    simpa [reindex, pushRule] using hplain

/-- Rules with different new bodies are added one after the other. -/
theorem runAll_changes (hplain : g.isProbabilistic = false)
    (hentries : ∀ entry ∈ entries, entry.Admissible)
    (hnodup : (g.outline.reduceOption.map Rule.body ++ entries.map RuleEntry.body).Nodup) :
    (g.runAll (entries.map RuleEntry.change)).outline =
        g.outline ++ entries.map (fun entry => some entry.rule) ∧
      (g.runAll (entries.map RuleEntry.change)).symbols = g.symbols := by
  induction entries generalizing g with
  | nil => exact ⟨(List.append_nil _).symm, rfl⟩
  | cons entry rest ih =>
    have hnew : entry.body ∉ g.outline.reduceOption.map Rule.body := by
      intro hmem
      exact (List.nodup_append.mp hnodup).2.2 _ hmem _ List.mem_cons_self rfl
    obtain ⟨houtline, hsymbols, hplain'⟩ := run_change hplain (hentries entry List.mem_cons_self) hnew
    have hnodup' : ((entry.change.run g).outline.reduceOption.map Rule.body ++
        rest.map RuleEntry.body).Nodup := by
      rw [houtline, List.reduceOption_append, List.map_append, List.append_assoc]
      exact hnodup
    obtain ⟨houtline', hsymbols'⟩ :=
      ih hplain' (fun other hother => hentries other (List.mem_cons_of_mem _ hother)) hnodup'
    rw [List.map_cons, runAll_cons, houtline', hsymbols', houtline, hsymbols]
    exact ⟨List.append_assoc .., rfl⟩

section GrammarOf

variable (symbols : SymbolTable) (hentries : ∀ entry ∈ entries, entry.Admissible)
  (hnodup : (entries.map RuleEntry.body).Nodup)

include hentries hnodup

/-- Adding distinct entries to a grammar without rules gives a table with these entries in order, and keeps
the constants. -/
theorem outline_grammarOf :
    (grammarOf symbols entries).outline = entries.map (fun entry => some entry.rule) ∧
      (grammarOf symbols entries).symbols = symbols := by
  have hempty : (empty.withSymbols symbols).outline = [] := outline_reindex _
  have hrun := runAll_changes (g := empty.withSymbols symbols) rfl hentries (by rwa [hempty])
  rwa [hempty, List.nil_append] at hrun

/-- The rules are the entries, in their order. -/
theorem reduceOption_outline_grammarOf :
    (grammarOf symbols entries).outline.reduceOption = entries.map RuleEntry.rule := by
  rw [(outline_grammarOf symbols hentries hnodup).1, List.reduceOption, List.filterMap_map]
  exact congrFun List.filterMap_eq_map entries

/-- No two rules of the table are the same. -/
theorem distinct_grammarOf : Distinct (grammarOf symbols entries) := by
  intro r s rule rule' hr hs _ hbody
  refine eq_of_nodup_bodies ?_ hr hs hbody
  rw [reduceOption_outline_grammarOf symbols hentries hnodup, List.map_map]
  exact hnodup

/-- The table has one row for each entry. -/
theorem size_grammarOf : (grammarOf symbols entries).size = entries.length := by
  rw [← length_outline, (outline_grammarOf symbols hentries hnodup).1, List.length_map]

/-- The entry at a place has become the rule with this name. -/
theorem exists_rule_grammarOf {i : Nat} (hi : entries[i]? = some entry) :
    ∃ rule, (grammarOf symbols entries).ruleAt? ⟨i⟩ = some rule ∧ bare rule = entry.rule := by
  refine getElem?_outline_eq_some_iff.mp ?_
  rw [(outline_grammarOf symbols hentries hnodup).1, List.getElem?_map, hi]
  rfl

end GrammarOf

/-- The grammar that entries make is consistent. -/
theorem consistent_grammarOf (symbols : SymbolTable) (entries : List RuleEntry) :
    Consistent (grammarOf symbols entries) := (consistent_empty.withSymbols symbols).runAll _

/-- Rules with different bodies lead to grammars with the same rules in any order. -/
theorem sameRules_grammarOf (symbols : SymbolTable) (hperm : entries.Perm entries')
    (hentries : ∀ entry ∈ entries, entry.Admissible) (hentries' : ∀ entry ∈ entries', entry.Admissible)
    (hnodup : (entries.map RuleEntry.body).Nodup) (hnodup' : (entries'.map RuleEntry.body).Nodup) :
    SameRules (grammarOf symbols entries) (grammarOf symbols entries') where
  consistent := consistent_grammarOf symbols entries
  consistent' := consistent_grammarOf symbols entries'
  distinct := distinct_grammarOf symbols hentries hnodup
  distinct' := distinct_grammarOf symbols hentries' hnodup'
  mem_iff rule := by
    rw [reduceOption_outline_grammarOf symbols hentries hnodup,
      reduceOption_outline_grammarOf symbols hentries' hnodup']
    exact (hperm.map _).mem_iff.symm
  symbols_eq := by
    rw [(outline_grammarOf symbols hentries hnodup).2, (outline_grammarOf symbols hentries' hnodup').2]

/-! ### Two orders -/

/-- The rule with the name has the type, the body and the kind of evaluation of the entry. -/
structure Holds (g : Grammar) (r : RuleId) (entry : RuleEntry) : Prop where
  returnType_eq : g.returnType r = .ok entry.type
  body_eq : g.body r = .ok entry.body
  isImmediate_eq : g.isImmediate r = .ok entry.immediate

/-- Two grammars that got entries added in two orders agree up to the names of rules. -/
structure AgreeUpToNames (entries entries' : List RuleEntry) (g g' : Grammar) : Prop where
  /-- There are as many rules as entries. -/
  size_eq : g.size = entries.length ∧ g'.size = entries'.length
  /-- Each entry is held under the name of its place. -/
  holds : ∀ i entry, (entries[i]? = some entry → Holds g ⟨i⟩ entry) ∧
    (entries'[i]? = some entry → Holds g' ⟨i⟩ entry)
  /-- The types are the same. -/
  typeNames_eq : g'.typeNames = g.typeNames
  /-- The symbols and the children of an entry are the same. -/
  resolved_eq : ∀ i j entry, entries[i]? = some entry → entries'[j]? = some entry →
    g'.symbolKinds ⟨j⟩ = g.symbolKinds ⟨i⟩ ∧ g'.childTypes ⟨j⟩ = g.childTypes ⟨i⟩ ∧
      g'.isTerminal ⟨j⟩ = g.isTerminal ⟨i⟩
  /-- There are equally many derivations. -/
  countDerivations_eq : ∀ type depth, g'.countDerivations type depth = g.countDerivations type depth
  /-- The same expressions are parsed. -/
  parses_iff : ∀ e type,
    (∃ t, g.fromExpression e type = .ok t) ↔ ∃ t', g'.fromExpression e type = .ok t'
  /-- The trees that are found stand for the same expression. -/
  stand_alike : ∀ e type t t', g.fromExpression e type = .ok t → g'.fromExpression e type = .ok t' →
    ∃ e', g.toExpression t = .ok e' ∧ g'.toExpression t' = .ok e'

/-- Each entry is held under the name of its place. -/
theorem holds_grammarOf (symbols : SymbolTable) (hentries : ∀ entry ∈ entries, entry.Admissible)
    (hnodup : (entries.map RuleEntry.body).Nodup) {i : Nat} (hi : entries[i]? = some entry) :
    Holds (grammarOf symbols entries) ⟨i⟩ entry := by
  obtain ⟨rule, hr, hbare⟩ := exists_rule_grammarOf symbols hentries hnodup hi
  rw [RuleEntry.rule, bare, Rule.mk.injEq] at hbare
  obtain ⟨htype, hbody, himmediate, -⟩ := hbare
  exact ⟨returnType_eq_ok_iff.mpr ⟨rule, hr, htype⟩, body_eq_ok_iff.mpr ⟨rule, hr, hbody⟩,
    (isImmediate_of_ruleAt? hr).trans (congrArg Except.ok himmediate)⟩

/-- Rules with different bodies may be added in any order. -/
theorem adding_order_agree (symbols : SymbolTable) (hperm : entries.Perm entries')
    (hentries : ∀ entry ∈ entries, entry.Admissible) (hnodup : (entries.map RuleEntry.body).Nodup) :
    AgreeUpToNames entries entries' (grammarOf symbols entries) (grammarOf symbols entries') := by
  have hentries' : ∀ entry ∈ entries', entry.Admissible := fun entry hmem =>
    hentries entry (hperm.mem_iff.mpr hmem)
  have hnodup' : (entries'.map RuleEntry.body).Nodup := (hperm.map _).nodup_iff.mp hnodup
  have hsame := sameRules_grammarOf symbols hperm hentries hentries' hnodup hnodup'
  refine ⟨⟨size_grammarOf symbols hentries hnodup, size_grammarOf symbols hentries' hnodup'⟩, ?_,
    typeNames_congr hsame.hasType_eq, ?_, hsame.countDerivations_eq, ?_, ?_⟩
  · intro i entry
    exact ⟨holds_grammarOf symbols hentries hnodup, holds_grammarOf symbols hentries' hnodup'⟩
  · intro i j entry hi hj
    obtain ⟨rule, hr, hbare⟩ := exists_rule_grammarOf symbols hentries hnodup hi
    obtain ⟨rule', hr', hbare'⟩ := exists_rule_grammarOf symbols hentries' hnodup' hj
    obtain rfl := hsame.rule_eq hr hr' (hbare'.trans hbare.symm)
    rw [symbolKinds_of_ruleAt? hr, symbolKinds_of_ruleAt? hr', isTerminal, isTerminal,
      childTypes_of_ruleAt? hr, childTypes_of_ruleAt? hr']
    exact ⟨rfl, rfl, rfl⟩
  · intro e type
    constructor
    · intro h
      obtain ⟨t, ht⟩ := h
      exact hsame.exists_fromExpression ht
    · intro h
      obtain ⟨t, ht⟩ := h
      exact hsame.symm.exists_fromExpression ht
  · intro e type t t' ht ht'
    exact hsame.toExpression_eq ht ht'

/-- A sum whose first symbol names a constant until there are rules of its type, one of them
immediate. -/
def sumEntries : List RuleEntry :=
  [⟨"N", .call "+" [.sym "M", .sym "x"], false⟩, ⟨"M", .lit (.int 1), false⟩,
    ⟨"M", .call "roll" [], true⟩]

/-- When the sum is added last instead of first, it asks for the same child under another name. -/
theorem sumEntries_order_agree :
    let symbols : SymbolTable := .ofList [("M", .int 5)]
    sumEntries.Perm sumEntries.reverse ∧ (∀ entry ∈ sumEntries, entry.Admissible) ∧
      (sumEntries.map RuleEntry.body).Nodup ∧
      AgreeUpToNames sumEntries sumEntries.reverse (grammarOf symbols sumEntries)
        (grammarOf symbols sumEntries.reverse) ∧
      (grammarOf symbols sumEntries).childTypes ⟨0⟩ = .ok ["M"] ∧
      (grammarOf symbols sumEntries.reverse).childTypes ⟨2⟩ = .ok ["M"] ∧
      (grammarOf symbols sumEntries).countDerivations "N" 2 = .ok 2 := by
  intro symbols
  have hperm : sumEntries.Perm sumEntries.reverse := (List.reverse_perm _).symm
  have hentries : ∀ entry ∈ sumEntries, entry.Admissible := by
    intro entry hmem
    refine ruleFault?_eq_none_iff.mp ?_
    simp only [sumEntries, List.mem_cons, List.not_mem_nil, or_false] at hmem
    rcases hmem with rfl | rfl | rfl <;> cbv
  have hnodup : (sumEntries.map RuleEntry.body).Nodup := by simp [sumEntries]
  exact ⟨hperm, hentries, hnodup, adding_order_agree symbols hperm hentries hnodup, by cbv, by cbv,
    by cbv⟩

end TypedGrammar.Grammar
