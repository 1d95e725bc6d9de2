import TypedGrammar.Proofs.Grammar.Compacting
import TypedGrammar.Proofs.Grammar.MergeParts
import Mathlib.Data.List.ReduceOption

/-!
# The outline of a table

What symbols stand for is computed from the rest. The outline of a table leaves it out: it has for each
row the type, the body and the kind of evaluation that the rule was given, or a gap. Resolving symbols
anew does not show in it, so that each operation comes to what it does to the rows.
-/

namespace TypedGrammar.Grammar

variable {g g' : Grammar} {r : RuleId} {rule : Rule}

/-- The rows of the table before symbols are resolved. -/
def outline (g : Grammar) : List (Option Rule) := g.rows.toList.map (Option.map bare)

/-- Rules look alike in an outline when they have the same type, body and kind of evaluation. -/
theorem bare_eq_bare_iff {rule rule' : Rule} : bare rule = bare rule' ↔
    rule.type = rule'.type ∧ rule.body = rule'.body ∧ rule.immediate = rule'.immediate := by
  simp [bare]

/-- An outline has as many rows as the table. -/
@[simp] theorem length_outline (g : Grammar) : g.outline.length = g.size :=
  List.length_map _

/-- An outline depends on the rows alone. -/
theorem outline_of_rows (h : g'.rows = g.rows) : g'.outline = g.outline := by
  rw [outline, outline, h]

/-- A row of the outline is the rule at its position before symbols are resolved. -/
theorem getElem?_outline (hr : r.index < g.size) :
    g.outline[r.index]? = some ((g.ruleAt? r).map bare) := by
  rw [outline, List.getElem?_map, Array.getElem?_toList, ruleAt?, Array.getElem?_eq_getElem hr]
  rfl

/-- The outline has a rule where the table has one. -/
theorem getElem?_outline_eq_some_iff :
    g.outline[r.index]? = some (some rule) ↔ ∃ found, g.ruleAt? r = some found ∧ bare found = rule := by
  rw [outline, List.getElem?_map, Array.getElem?_toList]
  simp only [ruleAt?_eq_some_iff]
  rcases g.rows[r.index]? with _ | _ | found <;> simp

/-- The rules of the outline are those of the table. -/
theorem mem_outline_iff : rule ∈ g.outline.reduceOption ↔
    ∃ r found, g.ruleAt? r = some found ∧ bare found = rule := by
  rw [List.reduceOption_mem_iff, List.mem_iff_getElem?]
  simp only [← getElem?_outline_eq_some_iff]
  constructor
  · intro h
    obtain ⟨i, hi⟩ := h
    exact ⟨⟨i⟩, hi⟩
  · intro h
    obtain ⟨r, hr⟩ := h
    exact ⟨r.index, hr⟩

/-- The rule at a position is in the outline, without its symbols. -/
theorem bare_mem_outline (hr : g.ruleAt? r = some rule) : bare rule ∈ g.outline.reduceOption :=
  mem_outline_iff.mpr ⟨r, rule, hr, rfl⟩

/-! ### The rules in order -/

/-- The rules that were not taken out are those of the table. -/
theorem mem_ruleIds_iff : r ∈ g.ruleIds ↔ g.isLive r = true := by
  constructor
  · exact fun hr => (List.mem_filter.mp hr).2
  · intro hr
    obtain ⟨rule, hrule⟩ := isLive_iff.mp hr
    refine List.mem_filter.mpr ⟨List.mem_map.mpr ⟨r.index, ?_, rfl⟩, hr⟩
    exact List.mem_range.mpr (index_lt_of_ruleAt? hrule)

/-- The rules that were not taken out are in the order of the table. -/
theorem ruleIds_pairwise (g : Grammar) : g.ruleIds.Pairwise (· < ·) := by
  refine List.Pairwise.filter _ (List.pairwise_map.mpr ?_)
  exact List.pairwise_lt_range

/-! ### What the operations do to it -/

/-- Computing the index anew does not change the outline. -/
@[simp] theorem outline_reindex (g : Grammar) : g.reindex.outline = g.outline := by
  simp only [outline, reindex, Array.toList_map, List.map_map]
  congr 1
  funext row
  cases row <;> rfl

/-- A rule that is pushed comes to the end of the outline. -/
theorem outline_pushRule (g : Grammar) (type : String) (body : Expr) (immediate : Bool)
    (weight : Option Float) : (g.pushRule type body immediate weight).2.outline =
      g.outline ++ [some ⟨type, body, immediate, []⟩] := by
  rw [outline, pushRule, Array.toList_push, List.map_append]
  rfl

/-- A rule that is taken out leaves a gap in the outline. -/
theorem outline_withGap (g : Grammar) (r : RuleId) :
    (g.withGap r).outline = g.outline.set r.index none := by
  simp [outline, withGap, List.map_set]

/-- Taking a rule from the index does not change the outline. -/
theorem outline_delist (g : Grammar) (type : String) (r : RuleId) :
    (g.delist type r).outline = g.outline := by
  unfold delist
  split
  · rfl
  · dsimp only
    split
    · exact outline_reindex _
    · rfl

/-- Compacting a table takes the gaps out of its outline. -/
theorem Indexed.outline_compact (hg : Indexed g) :
    g.compact.state.outline = g.outline.filter Option.isSome := by
  rw [hg.compact_eq]
  dsimp only [Edit.done]
  rw [compacted, outline_reindex, outline, outline, List.filter_map]
  congr 1
  exact List.filter_congr fun row _ => by cases row <;> rfl

end TypedGrammar.Grammar
