import Mathlib
import TypedGrammar.Proofs.Grammar.Reachable

/-!
# What a grammar answers about its rules

`TablesAgree` restates consistency by what the questions about a grammar answer, without a view on how
the answers are stored: the index, the domains and the resolved symbols say what the types and the
bodies of the rules say. It holds of every grammar that can come about.

Some of the answers cannot disagree, since each row holds all that is kept for its rule and what is asked
for is read off it. `RowsTogether` has these facts of the representation, which hold of every grammar.
The rest of `TablesAgree` is kept up by the operations.
-/

namespace TypedGrammar.Grammar

/-- What the answers about a grammar have in common because they are read off the same rows and the same
index. No operation has to see to it. -/
structure RowsTogether (g : Grammar) : Prop where
  /-- A position has a body exactly when it has a type. -/
  body_iff_type : ∀ r, (∃ body, g.body r = .ok body) ↔ ∃ type, g.returnType r = .ok type
  /-- Whatever is kept for each rule reaches exactly as far as the table. -/
  columns : ∀ r : RuleId,
    ((∃ removed, g.isRemoved r = .ok removed) ↔ r.index < g.size) ∧
    ((∃ immediate, g.isImmediate r = .ok immediate) ↔ r.index < g.size) ∧
    ((∃ terminal, g.isTerminal r = .ok terminal) ↔ r.index < g.size) ∧
    ((∃ types, g.childTypes r = .ok types) ↔ r.index < g.size) ∧
    ((∃ kinds, g.symbolKinds r = .ok kinds) ↔ r.index < g.size)
  /-- A name that no rule derives has neither a list of rules nor a domain. -/
  unknown : ∀ type, type ∉ g.typeNames →
    g.rulesOfType type = report (.unknownType type) ∧ g.domain type = report (.unknownType type)
  /-- Terminal are the rules that ask for no children. -/
  isTerminal : ∀ r types, g.childTypes r = .ok types → g.isTerminal r = .ok types.isEmpty

/-- The answers about a grammar agree with the types and the bodies of its rules: beside what the rows
have together anyway, the index, the domains, the weights and the resolved symbols are up to date. -/
structure TablesAgree (g : Grammar) : Prop extends RowsTogether g where
  /-- A probabilistic grammar has one weight for each row. -/
  weights_size : ∀ ws, g.weights = some ws → ws.size = g.size
  /-- The names of types are those that some rule derives. -/
  mem_typeNames_iff : ∀ type, type ∈ g.typeNames ↔ ∃ r, g.returnType r = .ok type
  /-- The rules of a type are listed in ascending order, each of them once. -/
  rulesOfType : ∀ type, type ∈ g.typeNames → ∃ rules, g.rulesOfType type = .ok rules ∧
    rules.Pairwise (· < ·) ∧ ∀ r, r ∈ rules ↔ g.returnType r = .ok type
  /-- The domain of a type has the numbers of its rules. -/
  domain : ∀ type, type ∈ g.typeNames → ∃ domain, g.domain type = .ok domain ∧
    ∀ i, domain.contains i = true ↔ ∃ r : RuleId, r.number = i ∧ g.returnType r = .ok type
  /-- The symbols of an ordinary rule are resolved by the names of types first and by the constants
  second, both as they are now. -/
  symbolKinds : ∀ r body, g.body r = .ok body → g.isImmediate r = .ok false →
    g.symbolKinds r = .ok (body.symbols.map fun name =>
      if name ∈ g.typeNames then .nonterminal name
      else match g.symbols.constant name with
        | some value => .constant value
        | none => .variable)
  /-- An ordinary rule asks for a child for each of its symbols that names a type. -/
  childTypes : ∀ r body, g.body r = .ok body → g.isImmediate r = .ok false →
    g.childTypes r = .ok (body.symbols.filter (· ∈ g.typeNames))
  /-- An immediate rule and a gap have no resolved symbols and ask for no children. -/
  unresolved : ∀ r, g.isImmediate r = .ok true ∨ g.isRemoved r = .ok true →
    g.symbolKinds r = .ok [] ∧ g.childTypes r = .ok []

variable {g : Grammar} {r : RuleId} {rule : Rule} {type : String}

/-- The names of the types are those of the types that the grammar has. -/
theorem mem_typeNames : type ∈ g.typeNames ↔ g.hasType type = true := NameMap.mem_keys_iff

/-- Grammars with the same types list them in the same order. -/
theorem typeNames_congr {g' : Grammar} (h : ∀ type, g'.hasType type = g.hasType type) :
    g'.typeNames = g.typeNames :=
  g'.types.ascending.eq_of_mem_iff g.types.ascending fun type => by
    change type ∈ g'.typeNames ↔ type ∈ g.typeNames
    rw [mem_typeNames, mem_typeNames, h]

/-- Grammars with the same types have equally many. -/
theorem size_types_congr {g' : Grammar} (h : ∀ type, g'.hasType type = g.hasType type) :
    g'.types.size = g.types.size := by
  have hlength := congrArg List.length (typeNames_congr h)
  simpa [typeNames, NameMap.keys, NameMap.size] using hlength

/-- What a name stands for, with the names of types and the constants spelled out. -/
theorem classify_eq (g : Grammar) (name : String) :
    g.classify name = if name ∈ g.typeNames then .nonterminal name
      else match g.symbols.constant name with
        | some value => .constant value
        | none => .variable := by
  simp only [mem_typeNames]
  rfl

/-- The types asked for are the names of types among the names that were resolved. -/
theorem filterMap_childType (g : Grammar) (names : List String) :
    (names.map g.classify).filterMap SymbolKind.childType? =
      names.filter fun name => g.hasType name := by
  rw [List.filterMap_map, ← List.filterMap_eq_filter]
  congr 1
  funext name
  rw [Function.comp_apply, classify, SymbolTable.classify, Option.guard]
  split
  · rfl
  · split <;> rfl

/-- An ordinary rule of a consistent grammar asks for a child for each symbol that names a type. -/
theorem Consistent.childTypes_eq (h : Consistent g) (hr : g.ruleAt? r = some rule)
    (hordinary : rule.immediate = false) :
    rule.childTypes = rule.body.symbols.filter fun name => g.hasType name := by
  rw [Rule.childTypes, h.kinds_eq r rule hr, hordinary, ← filterMap_childType]
  rfl

/-- What is computed from an answer exists exactly when the answer does. -/
theorem isOk_map_iff {α β : Type} {x : Except Failure α} (f : α → β) :
    (∃ b, (x >>= fun a => pure (f a)) = .ok b) ↔ ∃ a, x = .ok a := by
  constructor
  · intro hexists
    obtain ⟨b, hb⟩ := hexists
    obtain ⟨a, ha, -⟩ := bind_eq_ok.mp hb
    exact ⟨a, ha⟩
  · intro hexists
    obtain ⟨a, rfl⟩ := hexists
    exact ⟨f a, rfl⟩

/-- A type of the index has an entry with exactly the rules that derive it. -/
theorem Consistent.entry_of_mem (h : Consistent g) (htype : type ∈ g.typeNames) :
    ∃ entry, g.types.get? type = some entry ∧ entry.rules.Pairwise (· < ·) ∧
      ∀ r, r ∈ entry.rules ↔ g.returnType r = .ok type := by
  obtain ⟨entry, hentry⟩ := Option.isSome_iff_exists.mp (mem_typeNames.mp htype)
  have hascending := h.lists.ascending type
  rw [listed_of_get? hentry] at hascending
  refine ⟨entry, hentry, hascending, fun r => ?_⟩
  rw [h.rules_of_entry hentry, returnType_eq_ok_iff]

/-- In every grammar the answers are read off the same rows. -/
theorem rowsTogether (g : Grammar) : RowsTogether g where
  body_iff_type r := by
    rw [body, returnType, isOk_map_iff, isOk_map_iff]
  columns r := by
    rw [← row_isOk_iff]
    refine ⟨isOk_map_iff _, isOk_map_iff _, ?_, isOk_map_iff _, isOk_map_iff _⟩
    exact (isOk_map_iff _).trans (isOk_map_iff _)
  unknown type htype := by
    rw [mem_typeNames, hasType, NameMap.contains, Option.not_isSome_iff_eq_none] at htype
    rw [Grammar.rulesOfType, Grammar.domain, typeEntry, htype]
    exact ⟨rfl, rfl⟩
  isTerminal r types htypes := by
    rw [Grammar.isTerminal, htypes]
    rfl

/-- The answers of a consistent grammar agree with each other. -/
theorem Consistent.tablesAgree (h : Consistent g) : TablesAgree g where
  toRowsTogether := rowsTogether g
  weights_size := h.weights_size
  mem_typeNames_iff type := by
    rw [mem_typeNames, h.hasType_iff]
    simp only [returnType_eq_ok_iff]
  rulesOfType type htype := by
    obtain ⟨entry, hentry, hascending, hmem⟩ := h.entry_of_mem htype
    refine ⟨entry.rules, ?_, hascending, hmem⟩
    rw [Grammar.rulesOfType, typeEntry, hentry]
    rfl
  domain type htype := by
    obtain ⟨entry, hentry, -, hmem⟩ := h.entry_of_mem htype
    refine ⟨entry.domain, ?_, fun i => ?_⟩
    · rw [Grammar.domain, typeEntry, hentry]
      rfl
    · rw [h.domain_iff type entry hentry, List.mem_map]
      simp only [hmem, and_comm]
  symbolKinds r body hbody hordinary := by
    obtain ⟨rule, hr, rfl⟩ := body_eq_ok_iff.mp hbody
    rw [isImmediate_of_ruleAt? hr] at hordinary
    rw [symbolKinds_of_ruleAt? hr, h.kinds_eq r rule hr, Except.ok.inj hordinary]
    simp only [Bool.false_eq_true, if_false]
    congr 2
    funext name
    exact classify_eq g name
  childTypes r body hbody hordinary := by
    obtain ⟨rule, hr, rfl⟩ := body_eq_ok_iff.mp hbody
    rw [isImmediate_of_ruleAt? hr] at hordinary
    rw [childTypes_of_ruleAt? hr, h.childTypes_eq hr (Except.ok.inj hordinary)]
    simp only [mem_typeNames, Bool.decide_eq_true]
  unresolved r hr := by
    rcases hrow : g.row r with failure | _ | rule
    · simp [isImmediate, isRemoved, hrow, bind, Except.bind] at hr
    · rw [Grammar.symbolKinds, Grammar.childTypes, hrow]
      exact ⟨rfl, rfl⟩
    · have hrule : g.ruleAt? r = some rule := ruleAt?_of_row hrow
      rw [isImmediate_of_ruleAt? hrule, isRemoved_of_ruleAt? hrule] at hr
      have himmediate : rule.immediate = true := by simpa using hr
      have hkinds : rule.kinds = [] := by rw [h.kinds_eq r rule hrule, himmediate, if_pos rfl]
      rw [symbolKinds_of_ruleAt? hrule, childTypes_of_ruleAt? hrule, Rule.childTypes, hkinds]
      exact ⟨rfl, rfl⟩

/-- In every grammar that can come about, the index of the types, the domains, the resolved symbols
and the weights agree with the types and the bodies of the rules. -/
theorem Reachable.tables_agree {g : Grammar} (h : Reachable g) : TablesAgree g :=
  h.consistent.tablesAgree

/-- A grammar whose second type is gone again, together with its last rule. -/
def lostType : Grammar :=
  (((empty.addRule "A" (.sym "B")).state.addRule "B" (.lit (.int 1))).state.removeRule ⟨1⟩).state

/-- After the last rule of a type is gone the tables agree that its name is a variable again. -/
theorem lostType_tables_agree :
    Reachable lostType ∧ lostType.symbolKinds ⟨0⟩ = .ok [.variable] ∧ TablesAgree lostType :=
  have hreachable : Reachable lostType := ((Reachable.empty.addRule _ _).addRule _ _).removeRule _
  ⟨hreachable, by cbv, hreachable.tables_agree⟩

end TypedGrammar.Grammar
