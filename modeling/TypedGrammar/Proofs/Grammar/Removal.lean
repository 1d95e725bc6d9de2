import TypedGrammar.Proofs.Grammar.Consistency

/-!
# Consistency when a rule is taken out

Taking out a rule leaves a gap. The last rule of a type takes the type along, and everything is
computed anew. Otherwise the index is patched: the rule is struck from the list and from the domain
of its type, and no symbol changes its meaning since no type goes.
-/

namespace TypedGrammar.Grammar

variable {g : Grammar} {r : RuleId} {rule : Rule}

/-- The grammar with a gap in place of a row; the index still has the rule that was there. -/
def withGap (g : Grammar) (r : RuleId) : Grammar :=
  { g with
    rows := g.rows.setIfInBounds r.index none
    weights := g.weights.map fun ws => ws.setIfInBounds r.index negInfinity }

/-- A rule that is taken out leaves a gap in the type column. -/
theorem typeColumn_withGap (g : Grammar) (r : RuleId) :
    (g.withGap r).typeColumn = g.typeColumn.set r.index none := by
  simp [typeColumn, withGap, List.map_set]

/-- A gap takes one rule out of the table. -/
theorem ruleAt?_withGap {s : RuleId} (hs : (g.withGap r).ruleAt? s = some rule) :
    s ≠ r ∧ g.ruleAt? s = some rule := by
  rw [ruleAt?_eq_some_iff, withGap, Array.getElem?_setIfInBounds] at hs
  split at hs
  · split at hs
    · cases hs
    · cases hs
  · rename_i hindex
    exact ⟨fun h => hindex (h ▸ rfl), ruleAt?_eq_some_iff.mpr hs⟩

/-- A gap keeps the number of weights. -/
theorem Indexed.weights_size_withGap (h : Indexed g) (r : RuleId) :
    ∀ ws, (g.withGap r).weights = some ws → ws.size = (g.withGap r).size := by
  intro ws hws
  obtain ⟨former, hformer, rfl⟩ := Option.map_eq_some_iff.mp hws
  rw [Array.size_setIfInBounds, h.weights_size former hformer]
  exact Array.size_setIfInBounds.symm

/-- The last rule of a type is struck together with the type. -/
theorem Indexed.erase_last (h : Indexed g) (hr : g.ruleAt? r = some rule)
    (hlast : (listed g.types rule.type).filter (· ≠ r) = []) :
    Indexed { g.withGap r with types := g.types.erase rule.type } where
  lists := by
    change Lists (g.types.erase rule.type) (g.withGap r).typeColumn
    rw [typeColumn_withGap]
    refine h.lists.strike (h.mem_listed hr) (fun x => ?_) fun x hx => ?_
    · rw [listed_erase, hlast]
    · obtain ⟨hne, hx⟩ := (contains_erase ..).mp hx
      rw [listed_erase, if_neg hne]
      exact h.lists.nonempty x hx
  weights_size := h.weights_size_withGap r

/-- A type that keeps rules keeps its entry, without the rule that was struck. -/
theorem Consistent.strike_one (h : Consistent g) (hr : g.ruleAt? r = some rule) {entry : TypeEntry}
    (hentry : g.types.get? rule.type = some entry) (hrest : entry.rules.filter (· ≠ r) ≠ []) :
    Consistent { g.withGap r with
      types := g.types.insert rule.type ⟨entry.rules.filter (· ≠ r), entry.domain.eraseRule r⟩ } where
  lists := by
    change Lists (g.types.insert rule.type _) (g.withGap r).typeColumn
    rw [typeColumn_withGap]
    refine h.lists.strike (h.mem_listed hr) (fun x => ?_) fun x hx => ?_
    · rw [listed_insert, listed_of_get? hentry]
    · rw [listed_insert]
      split
      · exact hrest
      · rename_i hne
        exact h.lists.nonempty x (((contains_insert ..).mp hx).resolve_left hne)
  weights_size := h.weights_size_withGap r
  domain_iff x found hfound i := by
    rw [NameMap.get?_insert] at hfound
    split at hfound
    · cases hfound
      have hdomain := h.domain_iff rule.type entry hentry i
      rw [BitSet.eraseRule, BitSet.contains_erase, Bool.and_eq_true, hdomain, decide_eq_true_iff]
      simp only [List.mem_map, List.mem_filter, decide_eq_true_iff]
      constructor
      · intro hexists
        obtain ⟨⟨s, hs, rfl⟩, hne⟩ := hexists
        exact ⟨s, ⟨hs, fun heq => hne (heq ▸ rfl)⟩, rfl⟩
      · intro hexists
        obtain ⟨s, ⟨hs, hne⟩, rfl⟩ := hexists
        refine ⟨⟨s, hs, rfl⟩, fun heq => hne ?_⟩
        have hnumber := congrArg RuleId.ofNumber? heq
        rw [RuleId.ofNumber?_number, RuleId.ofNumber?_number] at hnumber
        exact Option.some.inj hnumber
    · exact h.domain_iff x found hfound i
  kinds_eq s found hs := by
    have hclassify : ({ g.withGap r with
        types := g.types.insert rule.type
          ⟨entry.rules.filter (· ≠ r), entry.domain.eraseRule r⟩ } : Grammar).classify = g.classify := by
      refine classify_congr (fun x => Bool.eq_iff_iff.mpr ?_) rfl
      refine (contains_insert ..).trans ⟨?_, Or.inr⟩
      intro heither
      rcases heither with rfl | hx
      · exact h.hasType_of_ruleAt? hr
      · exact hx
    rw [hclassify]
    exact h.kinds_eq s found (ruleAt?_withGap hs).2

/-- Striking a rule of the table from the index keeps a grammar consistent. -/
theorem Consistent.delist (h : Consistent g) (hr : g.ruleAt? r = some rule) :
    Consistent ((g.withGap r).delist rule.type r) := by
  obtain ⟨entry, hentry⟩ := Option.isSome_iff_exists.mp
    (h.hasType_of_ruleAt? hr : (g.types.get? rule.type).isSome = true)
  unfold Grammar.delist
  rw [show (g.withGap r).types = g.types from rfl, hentry]
  dsimp only
  split
  · rename_i hlast
    rw [List.isEmpty_iff, ← listed_of_get? hentry] at hlast
    exact (h.erase_last hr hlast).reindex
  · rename_i hrest
    rw [List.isEmpty_iff] at hrest
    exact h.strike_one hr hentry hrest

/-- Striking the weight of a rule gives the weights beside a gap. -/
theorem eq_of_strikeWeight {weights : Option (Array Float)} (h : g.strikeWeight r = .ok weights) :
    weights = (g.withGap r).weights := by
  unfold strikeWeight at h
  unfold withGap
  split at h
  · rename_i hplain
    cases h
    rw [hplain]
    rfl
  · rename_i former hformer
    obtain ⟨struck, hstruck, h⟩ := bind_eq_ok.mp h
    cases h
    obtain ⟨-, rfl⟩ := setWeight_eq_ok_iff.mp hstruck
    rw [hformer]
    rfl

/-- The weight of a rule can be struck where there is one weight for each row. -/
theorem Indexed.strikeWeight_eq (h : Indexed g) (hr : r.index < g.size) :
    g.strikeWeight r = .ok (g.withGap r).weights := by
  unfold strikeWeight withGap
  cases hws : g.weights with
  | none => rfl
  | some ws =>
    have hlt : r.index < ws.size := h.weights_size ws hws ▸ hr
    dsimp only
    rw [setWeight_eq_ok_iff.mpr ⟨hlt, rfl⟩]
    rfl

/-- A rule of the table can be taken out. It leaves a gap and is struck from the index. -/
theorem Indexed.removeRule_eq (h : Indexed g) (hr : g.ruleAt? r = some rule) :
    (g.removeRule r).result = .ok () ∧
      (g.removeRule r).state = (g.withGap r).delist rule.type r := by
  rw [removeRule, row_of_ruleAt? hr, h.strikeWeight_eq (index_lt_of_ruleAt? hr)]
  exact ⟨rfl, rfl⟩

/-- Taking out a rule either changes nothing, or leaves a gap and strikes the rule from the index. -/
theorem removeRule_cases (g : Grammar) (r : RuleId) : (g.removeRule r).state = g ∨
    ∃ rule, g.ruleAt? r = some rule ∧
      (g.removeRule r).state = (g.withGap r).delist rule.type r := by
  unfold removeRule
  split
  · exact .inl rfl
  · exact .inl rfl
  · rename_i rule hrow
    split
    · exact .inl rfl
    · rename_i weights hweights
      obtain rfl := eq_of_strikeWeight hweights
      exact .inr ⟨rule, ruleAt?_of_row hrow, rfl⟩

/-- Taking a rule out keeps a grammar consistent, and so does failing to. -/
theorem Consistent.removeRule (h : Consistent g) (r : RuleId) :
    Consistent (g.removeRule r).state := by
  rcases removeRule_cases g r with hsame | ⟨rule, hr, hgap⟩
  · rwa [hsame]
  · rw [hgap]
    exact h.delist hr

end TypedGrammar.Grammar
