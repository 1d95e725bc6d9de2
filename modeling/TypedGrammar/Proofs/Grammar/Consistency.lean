import TypedGrammar.Proofs.Grammar.TypeIndex

/-!
# Consistent grammars

A grammar keeps several facts twice: the index of types repeats the type column, the domains repeat
the index, and the resolved symbols repeat the bodies. `Indexed` says that the index and the weights
fit the table. `Consistent` adds what `reindex` establishes, that the domains and the resolved symbols
are current.

An operation either ends in `reindex`, so that `Indexed` is all it has to keep, or it leaves the table
alone, or it takes out one rule of a type that has others. The last case patches the index in place;
it is the one that has to argue for each fact anew.
-/

namespace TypedGrammar.Grammar

/-- The types that the rules of the table derive, by position. -/
def typeColumn (g : Grammar) : List (Option String) := g.rows.toList.map (Option.map Rule.type)

/-- The index fits the table, and a probabilistic grammar has one weight for each row. -/
structure Indexed (g : Grammar) : Prop where
  lists : Lists g.types g.typeColumn
  weights_size : ∀ ws, g.weights = some ws → ws.size = g.size

/-- The index, the weights, the domains and the resolved symbols all fit the table. -/
structure Consistent (g : Grammar) : Prop extends Indexed g where
  /-- The domain of a type has the numbers of its rules. -/
  domain_iff : ∀ type entry, g.types.get? type = some entry →
    ∀ i, entry.domain.contains i = true ↔ i ∈ entry.rules.map RuleId.number
  /-- The symbols of a body are resolved by the types and the constants that there are now. -/
  kinds_eq : ∀ r rule, g.ruleAt? r = some rule →
    rule.kinds = if rule.immediate then [] else rule.body.symbols.map g.classify

variable {g : Grammar} {r : RuleId} {rule : Rule} {type : String}

/-- There is one entry in the type column for each row. -/
theorem typeColumn_length (g : Grammar) : g.typeColumn.length = g.size := by
  simp [typeColumn, size]

/-- The type column tells the type of a rule. -/
theorem typeColumn_eq_some_iff :
    g.typeColumn[r.index]? = some (some type) ↔ ∃ rule, g.ruleAt? r = some rule ∧ rule.type = type := by
  rw [typeColumn, List.getElem?_map, Array.getElem?_toList]
  simp only [ruleAt?_eq_some_iff]
  rcases g.rows[r.index]? with _ | _ | rule <;> simp

/-- The rules listed for a type are the rules of the table that derive it. -/
theorem Indexed.mem_listed_iff (h : Indexed g) :
    r ∈ listed g.types type ↔ ∃ rule, g.ruleAt? r = some rule ∧ rule.type = type :=
  (h.lists.mem_iff type r).trans typeColumn_eq_some_iff

/-- The rules in the entry of a type are those of the table that derive it. -/
theorem Indexed.rules_of_entry (h : Indexed g) {entry : TypeEntry}
    (hentry : g.types.get? type = some entry) (r : RuleId) :
    r ∈ entry.rules ↔ ∃ rule, g.ruleAt? r = some rule ∧ rule.type = type := by
  rw [← listed_of_get? hentry]
  exact h.mem_listed_iff

/-- The types of the index are those that some rule derives. -/
theorem Indexed.hasType_iff (h : Indexed g) :
    g.hasType type = true ↔ ∃ r rule, g.ruleAt? r = some rule ∧ rule.type = type := by
  rw [hasType, h.lists.contains_iff]
  simp only [typeColumn_eq_some_iff]

/-- The type of a rule of the table is in the index. -/
theorem Indexed.hasType_of_ruleAt? (h : Indexed g) (hr : g.ruleAt? r = some rule) :
    g.hasType rule.type = true := h.hasType_iff.mpr ⟨r, rule, hr, rfl⟩

/-- A rule of the table is listed for its type. -/
theorem Indexed.mem_listed (h : Indexed g) (hr : g.ruleAt? r = some rule) :
    r ∈ listed g.types rule.type := h.mem_listed_iff.mpr ⟨rule, hr, rfl⟩

/-! ### Computing the index anew -/

/-- What a name stands for depends on the names of types and on the constants. -/
theorem classify_congr {g' : Grammar} (htypes : ∀ x, g'.hasType x = g.hasType x)
    (hsymbols : g'.symbols = g.symbols) : g'.classify = g.classify := by
  funext name
  rw [classify, classify, hsymbols, funext htypes]

/-- Computing the index anew changes the symbols of a rule alone. -/
theorem ruleAt?_reindex (g : Grammar) (r : RuleId) :
    g.reindex.ruleAt? r = (g.ruleAt? r).map g.resolve := by
  simp only [ruleAt?, reindex, Array.getElem?_map]
  rcases g.rows[r.index]? with _ | _ | rule <;> rfl

/-- Computing the index anew does not change what a name stands for. -/
theorem classify_reindex (g : Grammar) : g.reindex.classify = g.classify :=
  classify_congr (fun x => contains_mapValues _ g.types x) rfl

/-- Computing the index anew does not change the type of a row. -/
theorem typeColumn_reindex (g : Grammar) : g.reindex.typeColumn = g.typeColumn := by
  simp only [typeColumn, reindex, Array.toList_map, List.map_map]
  congr 1
  funext row
  cases row <;> rfl

/-- Computing the index anew makes a grammar with a fitting index consistent. -/
theorem Indexed.reindex (h : Indexed g) : Consistent g.reindex where
  lists := by
    rw [typeColumn_reindex]
    exact h.lists.mapValues (f := fun entry => ⟨entry.rules, .ofRules entry.rules⟩) fun _ => rfl
  weights_size ws hws := by
    rw [h.weights_size ws hws]
    exact (Array.size_map ..).symm
  domain_iff x entry hentry i := by
    obtain ⟨former, -, rfl⟩ := Option.map_eq_some_iff.mp ((NameMap.get?_mapValues ..).symm.trans hentry)
    rw [BitSet.ofRules, BitSet.contains_ofList, List.contains_iff_mem]
  kinds_eq r rule hr := by
    rw [ruleAt?_reindex] at hr
    obtain ⟨former, -, rfl⟩ := Option.map_eq_some_iff.mp hr
    rw [classify_reindex]
    rfl

/-- Consistency does not depend on the constraints, nor on the weights beyond their number. -/
theorem Consistent.of_same_table {g' : Grammar} (h : Consistent g) (hrows : g'.rows = g.rows)
    (htypes : g'.types = g.types) (hsymbols : g'.symbols = g.symbols)
    (hweights : ∀ ws, g'.weights = some ws → ws.size = g.size) : Consistent g' where
  lists := by
    rw [htypes, typeColumn, hrows]
    exact h.lists
  weights_size ws hws := by
    rw [hweights ws hws, size, size, hrows]
  domain_iff x entry hentry := h.domain_iff x entry (htypes ▸ hentry)
  kinds_eq r rule hr := by
    rw [classify_congr (g := g) (fun x => by rw [hasType, hasType, htypes]) hsymbols]
    exact h.kinds_eq r rule (by rwa [ruleAt?, hrows] at hr)

/-! ### Starting and adding -/

/-- A grammar without rules is consistent. -/
theorem consistent_empty : Consistent empty where
  lists := Lists.of_empty
  weights_size _ hws := nomatch hws
  domain_iff _ _ hentry := nomatch hentry
  kinds_eq _ _ hr := nomatch hr

/-- Taking other constants keeps the index. -/
theorem Consistent.withSymbols (h : Consistent g) (symbols : SymbolTable) :
    Consistent (g.withSymbols symbols) :=
  Indexed.reindex (g := { g with symbols := symbols }) ⟨h.lists, h.weights_size⟩

/-- A rule pushed behind the table is enlisted for its type and gets a weight. -/
theorem Indexed.pushRule (h : Indexed g) (type : String) (body : Expr) (immediate : Bool)
    (weight : Option Float) : Indexed (g.pushRule type body immediate weight).2 where
  lists := by
    have hnext := h.lists.enlist_next type
    rw [typeColumn_length] at hnext
    simpa [typeColumn, Grammar.pushRule] using hnext
  weights_size ws hws := by
    obtain ⟨former, hformer, rfl⟩ := Option.map_eq_some_iff.mp hws
    rw [Array.size_push, h.weights_size former hformer]
    exact (Array.size_push ..).symm

/-- Adding an entry keeps a grammar consistent. -/
theorem Consistent.addEntry (h : Consistent g) (type : String) (body : Expr) (immediate : Bool)
    (weight : Option Float) : Consistent (g.addEntry type body immediate weight).state := by
  unfold Grammar.addEntry
  split
  · exact h
  · split
    · exact h
    · exact (h.toIndexed.pushRule type body immediate weight).reindex

/-- Adding a rule keeps a grammar consistent. -/
theorem Consistent.addRule (h : Consistent g) (type : String) (body : Expr) :
    Consistent (g.addRule type body).state := by
  unfold Grammar.addRule
  split
  · exact h
  · exact h.addEntry type body false none

/-- Adding an immediate rule keeps a grammar consistent. -/
theorem Consistent.addImmediateRule (h : Consistent g) (type : String) (body : Expr) :
    Consistent (g.addImmediateRule type body).state := by
  unfold Grammar.addImmediateRule
  split
  · exact h
  · exact h.addEntry type body true none

/-- Adding several rules stops at the first that is refused, with the rules before it in place. -/
theorem Consistent.addRules (h : Consistent g) (type : String) (bodies : List Expr) :
    Consistent (g.addRules type bodies).state := by
  induction bodies generalizing g with
  | nil => exact h
  | cons body rest ih =>
    have hstep := h.addRule type body
    unfold Grammar.addRules
    split
    · rename_i hadded
      rw [hadded] at hstep
      exact ih hstep
    · rename_i hrefused
      rw [hrefused] at hstep
      exact hstep

/-- A grammar without rows can become probabilistic. -/
theorem Consistent.becomeProbabilistic (h : Consistent g) (hempty : g.isEmpty = true) :
    Consistent { g with weights := some #[] } :=
  h.of_same_table rfl rfl rfl fun ws hws => by
    cases hws
    exact (Array.isEmpty_iff_size_eq_zero.mp hempty).symm

/-- Adding a rule with a probability keeps a grammar consistent. -/
theorem Consistent.addRuleWithProbability (h : Consistent g) (p : Float) (type : String)
    (body : Expr) : Consistent (g.addRuleWithProbability p type body).state := by
  unfold Grammar.addRuleWithProbability
  split
  · exact h
  · rename_i hagree
    have hstart : Consistent (if g.isProbabilistic then g else { g with weights := some #[] }) := by
      split
      · exact h
      · rename_i hplain
        exact h.becomeProbabilistic (by simpa [hplain] using hagree)
    dsimp only
    split
    · exact hstart.addEntry type body false _
    · exact hstart

end TypedGrammar.Grammar
