import TypedGrammar.Proofs.Grammar.MergeRun
import TypedGrammar.Proofs.Grammar.Removal

/-!
# Consistency when tables are rebuilt or joined

Compaction computes the index of the rows that are left from the beginning. Merging pushes rules onto
a table that grows meanwhile: the index fits after every push, which is what the search for a known
rule needs, and the rest is computed anew at the end. Operations on weights keep their number.
-/

namespace TypedGrammar.Grammar

variable {g : Grammar}

/-! ### Closing gaps -/

/-- One weight is left for each rule when there is one weight for each row. -/
theorem besideRules_length {α : Type} (rows : List (Option Rule)) (values : List α)
    (hlen : values.length = rows.length) :
    (besideRules rows values).length = (rows.filter Option.isSome).length := by
  induction rows generalizing values with
  | nil => rfl
  | cons row rest ih =>
    cases values with
    | nil => simp at hlen
    | cons value values =>
      have hrest := ih values (Nat.succ.inj hlen)
      cases row with
      | none => simpa [besideRules] using hrest
      | some rule => simpa [besideRules] using hrest

/-- The grammar without gaps, before its index is computed anew. -/
def closed (g : Grammar) : Grammar :=
  { g with
    rows := (g.rows.toList.filter Option.isSome).toArray
    types := indexRows NameMap.empty 0 (g.rows.toList.filter Option.isSome)
    weights := g.weights.map fun ws => (besideRules g.rows.toList ws.toList).toArray }

/-- The grammar without gaps. -/
def compacted (g : Grammar) : Grammar := g.closed.reindex

/-- The rules that the rows become when the gaps are closed. -/
def movedNames (g : Grammar) : List (Option RuleId) := renumbering 0 g.rows.toList

/-- The gaps of a table can be closed where there is one weight for each row. -/
theorem Indexed.compact_eq (h : Indexed g) : g.compact = .done g.compacted g.movedNames := by
  have hkept : g.keptWeights =
      .ok (g.weights.map fun ws => (besideRules g.rows.toList ws.toList).toArray) := by
    rw [keptWeights]
    cases hws : g.weights with
    | none => rfl
    | some ws => exact if_pos (Nat.le_of_eq (h.weights_size ws hws))
  rw [compact, hkept]
  rfl

/-- Closing the gaps of a table makes it consistent. -/
theorem Consistent.compacted (h : Consistent g) : Consistent g.compacted := by
  refine Indexed.reindex ⟨?_, ?_⟩
  · have hlists := Lists.of_empty.indexRows (g.rows.toList.filter Option.isSome)
    simpa [typeColumn, closed] using hlists
  · intro ws hws
    obtain ⟨former, hformer, rfl⟩ := Option.map_eq_some_iff.mp hws
    have hsize : former.toList.length = g.rows.toList.length := h.weights_size former hformer
    simpa [size, closed] using besideRules_length g.rows.toList former.toList hsize

/-- Closing the gaps keeps a grammar consistent. -/
theorem Consistent.compact (h : Consistent g) : Consistent g.compact.state := by
  rw [h.compact_eq]
  exact h.compacted

/-! ### Weights -/

/-- Setting a weight leaves as many as there were. -/
theorem size_setWeight {weights ws : Array Float} {r : RuleId} {w : Float}
    (h : setWeight weights r w = .ok ws) : ws.size = weights.size := by
  obtain ⟨-, rfl⟩ := setWeight_eq_ok_iff.mp h
  exact Array.size_setIfInBounds

/-- Lowering the weights of rules leaves as many as there were. -/
theorem size_lowerWeights {z : Float} {rules : List RuleId} {weights ws : Array Float}
    (h : lowerWeights z weights rules = .ok ws) : ws.size = weights.size := by
  induction rules generalizing weights with
  | nil =>
    cases h
    rfl
  | cons r rest ih =>
    obtain ⟨w, -, h⟩ := bind_eq_ok.mp h
    obtain ⟨lowered, hlowered, h⟩ := bind_eq_ok.mp h
    exact (ih h).trans (size_setWeight hlowered)

/-- Giving rules the same weight leaves as many as there were. -/
theorem size_fillWeights {w : Float} {rules : List RuleId} {weights ws : Array Float}
    (h : fillWeights w weights rules = .ok ws) : ws.size = weights.size := by
  induction rules generalizing weights with
  | nil =>
    cases h
    rfl
  | cons r rest ih =>
    obtain ⟨filled, hfilled, h⟩ := bind_eq_ok.mp h
    exact (ih h).trans (size_setWeight hfilled)

/-- Normalizing the weights of a type leaves as many as there were. -/
theorem size_normalizeType {type : String} {entry : TypeEntry} {weights : Array Float}
    {result : Array Float × List Notice} (h : normalizeType type entry weights = .ok result) :
    result.1.size = weights.size := by
  obtain ⟨values, -, h⟩ := bind_eq_ok.mp h
  dsimp only at h
  split at h
  · obtain ⟨lowered, hlowered, h⟩ := bind_eq_ok.mp h
    cases h
    exact size_lowerWeights hlowered
  · cases h
    rfl

/-- Normalizing the weights of all types leaves as many as there were. -/
theorem size_normalizeTypes {entries : List (String × TypeEntry)} {weights : Array Float}
    {result : Array Float × List Notice} (h : normalizeTypes weights entries = .ok result) :
    result.1.size = weights.size := by
  induction entries generalizing weights result with
  | nil =>
    cases h
    rfl
  | cons entry rest ih =>
    obtain ⟨scaled, hscaled, h⟩ := bind_eq_ok.mp h
    obtain ⟨final, hfinal, h⟩ := bind_eq_ok.mp h
    cases h
    exact (ih hfinal).trans (size_normalizeType hscaled)

/-- Giving each rule of a type its share leaves as many weights as there were. -/
theorem size_uniformWeights {entries : List (String × TypeEntry)} {weights ws : Array Float}
    (h : uniformWeights weights entries = .ok ws) : ws.size = weights.size := by
  induction entries generalizing weights with
  | nil =>
    cases h
    rfl
  | cons entry rest ih =>
    obtain ⟨filled, hfilled, h⟩ := bind_eq_ok.mp h
    exact (ih h).trans (size_fillWeights hfilled)

/-- Scaling the weights keeps a grammar consistent. -/
theorem Consistent.normalize (h : Consistent g) : Consistent g.normalize.state := by
  unfold Grammar.normalize
  split
  · exact h
  · rename_i weights hweights
    split
    · rename_i scaled notices hscaled
      refine h.of_same_table rfl rfl rfl fun ws hws => ?_
      cases hws
      exact (size_normalizeTypes hscaled).trans (h.weights_size weights hweights)
    · exact h

/-- Uniform weights keep a grammar consistent. -/
theorem Consistent.initUniform (h : Consistent g) : Consistent g.initUniform.state := by
  unfold Grammar.initUniform
  split
  · rename_i weights hweights
    refine h.of_same_table rfl rfl rfl fun ws hws => ?_
    cases hws
    exact (size_uniformWeights hweights).trans Array.size_replicate
  · exact h

/-! ### Constraints -/

/-- Other constraints keep a grammar consistent. -/
theorem Consistent.withConstraints (h : Consistent g) (constraints : List Constraint) :
    Consistent { g with constraints := constraints } :=
  h.of_same_table rfl rfl rfl h.weights_size

/-- Adding a constraint keeps a grammar consistent. -/
theorem Consistent.addConstraint (h : Consistent g) (c : Constraint) :
    Consistent (g.addConstraint c).state := by
  unfold Grammar.addConstraint
  split
  · exact h.withConstraints _
  · exact h

/-! ### Merging -/

/-- Settling the weights of a merge leaves a consistent grammar. -/
theorem Consistent.mergeWeighted {grown : Grammar} (h : Indexed grown) (g other : Grammar) :
    Consistent (g.mergeWeighted other grown).state := by
  unfold Grammar.mergeWeighted
  split
  · exact (h.mergeIndexed other).initUniform
  · exact h.mergeIndexed other

/-- Merging keeps a grammar consistent, whatever the other one is, and so does failing to. -/
theorem Consistent.merge (h : Consistent g) (other : Grammar) :
    Consistent (g.merge other).state := by
  have hstart := h.mergeStart other
  rw [merge_eq]
  split
  · exact h
  · split
    · exact h
    · split
      · exact h
      · rename_i mapping grown hrows
        rw [weightedRows_eq] at hrows
        have hweighted : Consistent (g.mergeWeighted other grown).state :=
          .mergeWeighted ((hstart.merges hrows).indexed hstart.toIndexed) g other
        split
        · exact h
        · exact hweighted.withConstraints _

end TypedGrammar.Grammar
