import TypedGrammar.Derivation.Count
import TypedGrammar.Proofs.Grammar.Answers
import TypedGrammar.Proofs.Grammar.Outline
import TypedGrammar.Proofs.SetComparison

/-!
# Grammars with the same rules

Two grammars may have the same rules in different orders, under different names. The types are then the
same, so that every name stands for the same in both, and each rule of the one is a rule of the other
with its symbols resolved alike. The rules of a type are the same up to their order; if the rules also
have the same names, they are listed alike.
-/

namespace TypedGrammar.Grammar

variable {g g' : Grammar} {r r' : RuleId} {rule rule' : Rule}

/-- The grammars have the same rules, each of them once, and the same constants. -/
structure SameRules (g g' : Grammar) : Prop where
  consistent : Consistent g
  consistent' : Consistent g'
  distinct : Distinct g
  distinct' : Distinct g'
  mem_iff : ∀ rule, rule ∈ g'.outline.reduceOption ↔ rule ∈ g.outline.reduceOption
  symbols_eq : g'.symbols = g.symbols

/-- The types of the index are those of the rules in the outline. -/
theorem Indexed.hasType_iff_outline (hg : Indexed g) (type : String) :
    g.hasType type = true ↔ ∃ rule ∈ g.outline.reduceOption, rule.type = type := by
  rw [hg.hasType_iff]
  constructor
  · intro h
    obtain ⟨r, rule, hr, htype⟩ := h
    exact ⟨bare rule, bare_mem_outline hr, htype⟩
  · intro h
    obtain ⟨rule, hrule, htype⟩ := h
    obtain ⟨r, found, hr, rfl⟩ := mem_outline_iff.mp hrule
    exact ⟨r, found, hr, htype⟩

namespace SameRules

/-- Having the same rules goes both ways. -/
theorem symm (h : SameRules g g') : SameRules g' g where
  consistent := h.consistent'
  consistent' := h.consistent
  distinct := h.distinct'
  distinct' := h.distinct
  mem_iff rule := (h.mem_iff rule).symm
  symbols_eq := h.symbols_eq.symm

section Same

variable (h : SameRules g g')

include h

/-- Grammars with the same rules have the same types. -/
theorem hasType_eq (type : String) : g'.hasType type = g.hasType type := by
  rw [Bool.eq_iff_iff, h.consistent'.hasType_iff_outline, h.consistent.hasType_iff_outline]
  simp only [h.mem_iff]

/-- In grammars with the same rules each name stands for the same. -/
theorem classify_eq : g'.classify = g.classify := classify_congr h.hasType_eq h.symbols_eq

/-- Rules that look alike in the outlines have their symbols resolved alike. -/
theorem rule_eq (hr : g.ruleAt? r = some rule) (hr' : g'.ruleAt? r' = some rule')
    (hbare : bare rule' = bare rule) : rule' = rule := by
  have hkinds := h.consistent.kinds_eq r rule hr
  have hkinds' := h.consistent'.kinds_eq r' rule' hr'
  obtain ⟨htype, hbody, himmediate⟩ := bare_eq_bare_iff.mp hbare
  rw [hbody, himmediate, h.classify_eq, ← hkinds] at hkinds'
  cases rule
  cases rule'
  simp_all only

/-- Each rule of the one grammar is a rule of the other. -/
theorem exists_ruleAt? (hr : g.ruleAt? r = some rule) : ∃ r', g'.ruleAt? r' = some rule := by
  obtain ⟨r', rule', hr', hbare⟩ := mem_outline_iff.mp ((h.mem_iff _).mpr (bare_mem_outline hr))
  exact ⟨r', by rw [hr', h.rule_eq hr hr' hbare]⟩

end Same

/-- The rules of a type are listed each once. -/
theorem nodup_rulesOrNone (hg : Indexed g) (hdistinct : Distinct g) (type : String) :
    ((g.rulesOrNone type).map g.ruleAt?).Nodup := by
  have hlisted : ∀ r ∈ g.rulesOrNone type, ∃ rule, g.ruleAt? r = some rule := by
    intro r hr
    obtain ⟨rule, hrule, -⟩ := hg.mem_listed_iff.mp hr
    exact ⟨rule, hrule⟩
  refine List.Nodup.map_on (fun r hr s hs hsame => ?_) ?_
  · obtain ⟨rule, hrule⟩ := hlisted r hr
    exact hdistinct r s rule rule hrule (hsame ▸ hrule) rfl rfl
  · refine (hg.lists.ascending type).imp fun {r s} hlt heq => ?_
    exact Nat.lt_irrefl r.index (heq ▸ hlt)

/-- The rules of a type are the same up to their order. -/
theorem rulesOrNone_perm (h : SameRules g g') (type : String) :
    ((g'.rulesOrNone type).map g'.ruleAt?).Perm ((g.rulesOrNone type).map g.ruleAt?) := by
  have hsubset : ∀ {g g' : Grammar}, SameRules g g' → ∀ row,
      row ∈ (g.rulesOrNone type).map g.ruleAt? → row ∈ (g'.rulesOrNone type).map g'.ruleAt? := by
    intro g g' h row hrow
    obtain ⟨r, hr, rfl⟩ := List.mem_map.mp hrow
    obtain ⟨rule, hrule, htype⟩ := h.consistent.mem_listed_iff.mp hr
    obtain ⟨r', hr'⟩ := h.exists_ruleAt? hrule
    have hr : r' ∈ g'.rulesOrNone type := h.consistent'.mem_listed_iff.mpr ⟨rule, hr', htype⟩
    exact List.mem_map.mpr ⟨r', hr, hr'.trans hrule.symm⟩
  exact (List.perm_ext_iff_of_nodup (nodup_rulesOrNone h.consistent'.toIndexed h.distinct' type)
    (nodup_rulesOrNone h.consistent.toIndexed h.distinct type)).mpr fun row =>
      ⟨hsubset h.symm row, hsubset h row⟩

/-! ### The same positions -/

section SamePositions

variable {type : String} (hsame : SameRules g g') (hrules : g'.ruleAt? = g.ruleAt?)

include hsame hrules

/-- Grammars with the same rules at the same positions list the same rules for each type. -/
theorem entry_cases (type : String) :
    (g.types.get? type = none ∧ g'.types.get? type = none) ∨
      ∃ entry entry', g.types.get? type = some entry ∧ g'.types.get? type = some entry' ∧
        entry'.rules = entry.rules := by
  have htype := hsame.hasType_eq type
  rw [hasType, hasType, NameMap.contains, NameMap.contains] at htype
  cases hentry : g.types.get? type with
  | none =>
    rw [hentry] at htype
    exact .inl ⟨rfl, Option.not_isSome_iff_eq_none.mp (by simp [htype])⟩
  | some entry =>
    rw [hentry] at htype
    obtain ⟨entry', hentry'⟩ := Option.isSome_iff_exists.mp htype
    refine .inr ⟨entry, entry', rfl, hentry', ?_⟩
    have hascending := hsame.consistent.lists.ascending type
    have hascending' := hsame.consistent'.lists.ascending type
    rw [listed_of_get? hentry] at hascending
    rw [listed_of_get? hentry'] at hascending'
    refine hascending'.eq_of_mem_iff hascending fun r => ?_
    rw [hsame.consistent.rules_of_entry hentry, hsame.consistent'.rules_of_entry hentry', hrules]

/-- Where the rules have the same positions too, the rules of a type are the same. -/
theorem rulesOfType_eq (type : String) : g'.rulesOfType type = g.rulesOfType type := by
  rw [rulesOfType, rulesOfType, typeEntry, typeEntry]
  rcases hsame.entry_cases hrules type with ⟨hnone, hnone'⟩ | ⟨entry, entry', hentry, hentry', heq⟩
  · rw [hnone, hnone']
  · rw [hentry, hentry', ok_bind, ok_bind, heq]

/-- The domains of the types have the same members. -/
theorem domain_same {domain : BitSet} (hdomain : g.domain type = .ok domain) :
    ∃ domain', g'.domain type = .ok domain' ∧ domain'.same domain = true := by
  obtain ⟨found, hfound, hdomain⟩ := bind_eq_ok.mp hdomain
  obtain rfl := Except.ok.inj hdomain
  rcases hsame.entry_cases hrules type with ⟨hnone, -⟩ | ⟨entry, entry', hentry, hentry', heq⟩
  · cases (get?_of_typeEntry hfound).symm.trans hnone
  · obtain rfl := Option.some.inj ((get?_of_typeEntry hfound).symm.trans hentry)
    refine ⟨entry'.domain, ?_, BitSet.same_iff.mpr fun i => Bool.eq_iff_iff.mpr ?_⟩
    · rw [Grammar.domain, typeEntry, hentry']
      rfl
    · rw [hsame.consistent'.domain_iff type entry' hentry', heq,
        hsame.consistent.domain_iff type found hentry]

end SamePositions

end SameRules

end TypedGrammar.Grammar
