import Mathlib
import TypedGrammar.Derivation.Count
import TypedGrammar.Proofs.Grammar.Answers
import TypedGrammar.Proofs.Tree.Renaming

/-!
# Grammars with renamed rules

`Renames` says that a grammar has the rules of another under new names, in the same order. What is known
about a rule, about a type and about its domain is then the same up to the new names.
-/

namespace TypedGrammar

variable {f : RuleId → RuleId}

/-! ### Sets in order -/

namespace BitSet

variable {s : BitSet} {rules : List RuleId}

/-- A set with the numbers of ascending rules lists these numbers. -/
theorem members_eq_map_number (hascending : rules.Pairwise (· < ·))
    (h : ∀ i, s.contains i = true ↔ i ∈ rules.map RuleId.number) :
    s.members = rules.map RuleId.number := by
  refine s.members_pairwise.eq_of_mem_iff ?_ fun i => mem_members.trans (h i)
  exact List.pairwise_map.mpr (hascending.imp fun hlt => Nat.succ_lt_succ hlt)

/-- The renamed set is made from the renamed rules. -/
theorem mapRules_eq_ofRules (hascending : rules.Pairwise (· < ·))
    (h : ∀ i, s.contains i = true ↔ i ∈ rules.map RuleId.number) :
    s.mapRules f = .ofRules (rules.map f) := by
  rw [mapRules, members_eq_map_number hascending h, ofRules, List.map_map, List.map_map]
  rfl

/-- A renaming that keeps the order of the rules of a set keeps them in order. -/
theorem rules_mapRules (hincreasing : ∀ r ∈ s.rules, ∀ r' ∈ s.rules, r < r' → f r < f r') :
    (s.mapRules f).rules = s.rules.map f := by
  have hascending : (s.rules.map f).Pairwise (· < ·) :=
    List.pairwise_map.mpr (s.rules_pairwise.imp_of_mem fun hr hr' => hincreasing _ hr _ hr')
  refine (rules_pairwise _).eq_of_mem_iff hascending fun r => ?_
  simp only [mem_rules, containsRule_mapRules, List.mem_map]

end BitSet

/-! ### Renamed grammars -/

namespace Grammar

variable {g g' : Grammar} {r : RuleId} {rule : Rule} {type : String} {entry : TypeEntry}

/-- The second grammar has the rules of the first under other names, in the same order. -/
structure Renames (f : RuleId → RuleId) (g g' : Grammar) : Prop where
  /-- Under its new name a rule is the same. -/
  ruleAt?_image : ∀ r rule, g.ruleAt? r = some rule → g'.ruleAt? (f r) = some rule
  /-- The new names are in the order of the old ones. -/
  increasing : ∀ r s, g.isLive r = true → g.isLive s = true → r < s → f r < f s
  /-- Each type has its rules under their new names. -/
  get?_eq : ∀ type, g'.types.get? type =
    (g.types.get? type).map fun entry => ⟨entry.rules.map f, .ofRules (entry.rules.map f)⟩
  symbols_eq : g'.symbols = g.symbols

/-- The rules that are listed for a type were not taken out. -/
theorem Indexed.isLive_of_listed (hg : Indexed g) (type : String) :
    ∀ r ∈ listed g.types type, g.isLive r = true := by
  intro r hr
  obtain ⟨rule, hrule, -⟩ := hg.mem_listed_iff.mp hr
  exact isLive_iff.mpr ⟨rule, hrule⟩

/-- The rules of an entry of the index are in the grammar. -/
theorem Indexed.isLive_of_entry (hg : Indexed g) (hentry : g.types.get? type = some entry) :
    ∀ r ∈ entry.rules, g.isLive r = true := by
  rw [← listed_of_get? hentry]
  exact hg.isLive_of_listed type

/-- The rules of a type are in the grammar. -/
theorem Indexed.isLive_of_rulesOrNone (hg : Indexed g) (type : String) :
    ∀ r ∈ g.rulesOrNone type, g.isLive r = true := hg.isLive_of_listed type

section Renames

variable (h : Renames f g g')

include h

/-- Renaming changes no type. -/
theorem Renames.hasType_eq (type : String) : g'.hasType type = g.hasType type := by
  rw [hasType, hasType, NameMap.contains, NameMap.contains, h.get?_eq, Option.isSome_map]

/-- The types are the same, in the same order. -/
theorem Renames.typeNames_eq : g'.typeNames = g.typeNames := typeNames_congr h.hasType_eq

/-- Renaming leaves as many types as there were. -/
theorem Renames.size_types_eq : g'.types.size = g.types.size := size_types_congr h.hasType_eq

/-- The rules of a type are renamed. -/
theorem Renames.rulesOrNone_eq (type : String) :
    g'.rulesOrNone type = (g.rulesOrNone type).map f := by
  rw [rulesOrNone, rulesOrNone, h.get?_eq]
  cases g.types.get? type <;> rfl

/-- The rules of a type are the renamed ones. -/
theorem Renames.rulesOfType_eq (type : String) :
    g'.rulesOfType type = List.map f <$> g.rulesOfType type := by
  rw [rulesOfType, rulesOfType, typeEntry, typeEntry, h.get?_eq]
  cases g.types.get? type <;> rfl

/-- The domain of a type is renamed. -/
theorem Renames.domain_eq (hg : Consistent g) (type : String) :
    g'.domain type = BitSet.mapRules f <$> g.domain type := by
  rw [domain, domain, typeEntry, typeEntry, h.get?_eq]
  cases hentry : g.types.get? type with
  | none => rfl
  | some entry =>
    have hascending : entry.rules.Pairwise (· < ·) := by
      rw [← listed_of_get? hentry]
      exact hg.lists.ascending type
    have hdomain := BitSet.mapRules_eq_ofRules (f := f) hascending (hg.domain_iff type entry hentry)
    exact congrArg Except.ok hdomain.symm

/-- The row of a rule is the same, and so is all that is read off it. -/
theorem Renames.row_image (hr : g.isLive r = true) : g'.row (f r) = g.row r := by
  obtain ⟨rule, hrule⟩ := isLive_iff.mp hr
  rw [row_of_ruleAt? hrule, row_of_ruleAt? (h.ruleAt?_image r rule hrule)]

/-- The renamed rule is the same rule under its new name. -/
theorem Renames.live_image (hr : g.isLive r = true) : g'.live (f r) = g.live r := by
  obtain ⟨rule, hrule⟩ := isLive_iff.mp hr
  rw [live_eq_ok_iff.mpr hrule, live_eq_ok_iff.mpr (h.ruleAt?_image r rule hrule)]

/-- The renamed rule has the same body. -/
theorem Renames.body_image (hr : g.isLive r = true) : g'.body (f r) = g.body r := by
  rw [body, body, h.live_image hr]

/-- The renamed rule has the same type. -/
theorem Renames.returnType_image (hr : g.isLive r = true) : g'.returnType (f r) = g.returnType r := by
  rw [returnType, returnType, h.live_image hr]

/-- The renamed rule is immediate when the rule is. -/
theorem Renames.isImmediate_image (hr : g.isLive r = true) :
    g'.isImmediate (f r) = g.isImmediate r := by
  rw [isImmediate, isImmediate, h.row_image hr]

/-- The renamed rule is taken out when the rule is. -/
theorem Renames.isRemoved_image (hr : g.isLive r = true) : g'.isRemoved (f r) = g.isRemoved r := by
  rw [isRemoved, isRemoved, h.row_image hr]

/-- The symbols of the renamed rule stand for the same. -/
theorem Renames.symbolKinds_image (hr : g.isLive r = true) :
    g'.symbolKinds (f r) = g.symbolKinds r := by
  rw [symbolKinds, symbolKinds, h.row_image hr]

/-- The renamed rule has children of the same types. -/
theorem Renames.childTypes_image (hr : g.isLive r = true) :
    g'.childTypes (f r) = g.childTypes r := by
  rw [childTypes, childTypes, h.row_image hr]

/-- The renamed rule is terminal when the rule is. -/
theorem Renames.isTerminal_image (hr : g.isLive r = true) :
    g'.isTerminal (f r) = g.isTerminal r := by
  rw [isTerminal, isTerminal, h.childTypes_image hr]

/-- The renamed rule has as many children. -/
theorem Renames.arity_image (hr : g.isLive r = true) : g'.arity (f r) = g.arity r := by
  rw [arity, arity, h.childTypes_image hr]

end Renames

end Grammar

end TypedGrammar
