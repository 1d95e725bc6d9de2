import Mathlib
import TypedGrammar.Proofs.Grammar.MergeRun
import TypedGrammar.Proofs.Grammar.Renaming

/-!
# Closing the gaps of a table

The rank of a position is the number of rules before it. Closing the gaps of a table moves every rule to
its rank, so the new names are in the order of the old ones and leave no number out. What is computed
anew comes out as it was: the compacted grammar is the grammar with its rules renamed.
-/

namespace TypedGrammar.Grammar

variable {g : Grammar} {r r' : RuleId} {rule : Rule} {type : String}
  {rows : List (Option Rule)} {i j k : Nat}

/-! ### Ranks -/

/-- The number of rules before a position. -/
def rank (rows : List (Option Rule)) (i : Nat) : Nat := (rows.take i).countP Option.isSome

/-- A rule in front raises the number of rules before a position by one, a gap does not. -/
theorem rank_cons_succ (row : Option Rule) (rest : List (Option Rule)) (i : Nat) :
    rank (row :: rest) (i + 1) = rank rest i + if row.isSome then 1 else 0 := by
  rw [rank, List.take_succ_cons, List.countP_cons, rank]

/-- Behind a rule the rank is greater. -/
theorem rank_lt (hi : rows[i]? = some (some rule)) (hlt : i < j) : rank rows i < rank rows j := by
  have hnext : rank rows (i + 1) = rank rows i + 1 := by
    rw [rank, List.take_add_one, hi, List.countP_append, rank]
    rfl
  have hmono : rank rows (i + 1) ≤ rank rows j := (List.take_sublist_take_left hlt).countP_le
  omega

/-- A rule has one of as many ranks as there are rules. -/
theorem rank_lt_countP (hi : rows[i]? = some (some rule)) :
    rank rows i < rows.countP Option.isSome := by
  have hlt := rank_lt hi (List.getElem?_eq_some_iff.mp hi).1
  rwa [rank, rank, List.take_length] at hlt

/-- Every rank is that of a rule. -/
theorem exists_rank_eq (hk : k < rows.countP Option.isSome) :
    ∃ i rule, rows[i]? = some (some rule) ∧ rank rows i = k := by
  induction rows generalizing k with
  | nil => cases hk
  | cons row rest ih =>
    cases row with
    | none =>
      obtain ⟨i, rule, hi, hrank⟩ := ih (by simpa using hk)
      exact ⟨i + 1, rule, hi, by simpa [rank_cons_succ] using hrank⟩
    | some first =>
      cases k with
      | zero => exact ⟨0, first, rfl, rfl⟩
      | succ k =>
        obtain ⟨i, rule, hi, hrank⟩ := ih (by simpa using hk)
        exact ⟨i + 1, rule, hi, by simpa [rank_cons_succ] using hrank⟩

/-- A rule is numbered by its rank. -/
theorem getElem?_renumbering (next : Nat) (rows : List (Option Rule)) (i : Nat) :
    (renumbering next rows)[i]? = rows[i]?.map (Option.map fun _ => ⟨next + rank rows i⟩) := by
  induction rows generalizing next i with
  | nil => rfl
  | cons row rest ih =>
    cases row with
    | none =>
      cases i with
      | zero => rfl
      | succ i => simp [renumbering, ih, rank_cons_succ]
    | some rule =>
      cases i with
      | zero => rfl
      | succ i => simp [renumbering, ih, rank_cons_succ, Nat.add_assoc, Nat.add_comm 1]

/-- There is a new name, or none, for each row. -/
theorem length_renumbering (next : Nat) (rows : List (Option Rule)) :
    (renumbering next rows).length = rows.length := by
  induction rows generalizing next with
  | nil => rfl
  | cons row rest ih => cases row <;> simp [renumbering, ih]

/-- What stands beside a rule is kept at its rank. -/
theorem getElem?_besideRules {α : Type} {values : List α} (hlen : values.length = rows.length)
    (hi : rows[i]? = some (some rule)) : (besideRules rows values)[rank rows i]? = values[i]? := by
  induction rows generalizing values i with
  | nil => cases hi
  | cons row rest ih =>
    cases values with
    | nil => simp at hlen
    | cons value values =>
      have hrest : values.length = rest.length := Nat.succ.inj hlen
      cases row with
      | none =>
        cases i with
        | zero => cases hi
        | succ i => simpa [besideRules, rank_cons_succ] using ih hrest hi
      | some first =>
        cases i with
        | zero => rfl
        | succ i => simpa [besideRules, rank_cons_succ] using ih hrest hi

/-- The rows beside the rules are those that hold them. -/
theorem besideRules_self (rows : List (Option Rule)) :
    besideRules rows rows = rows.filter Option.isSome := by
  induction rows with
  | nil => rfl
  | cons row rest ih => cases row <;> simp [besideRules, ih]

/-! ### The compacted table -/

/-- The mapping has an entry for each row, with the rank for a rule. -/
theorem getElem?_movedNames (g : Grammar) (r : RuleId) : g.movedNames[r.index]? =
    g.rows[r.index]?.map (Option.map fun _ => ⟨rank g.rows.toList r.index⟩) := by
  rw [movedNames, getElem?_renumbering, Array.getElem?_toList, Nat.zero_add]

/-- The rules have an entry in the mapping that renaming gives them. -/
theorem entry_of_isLive (hr : g.isLive r = true) :
    g.movedNames[r.index]? = some (some (renamed g.movedNames r)) := by
  obtain ⟨rule, hrule⟩ := isLive_iff.mp hr
  rw [renamed, getElem?_movedNames, ruleAt?_eq_some_iff.mp hrule]
  rfl

/-- Every entry is that of a rule. -/
theorem of_entry (hentry : g.movedNames[r.index]? = some (some r')) :
    g.isLive r = true ∧ renamed g.movedNames r = r' := by
  have hlive : g.isLive r = true := by
    rw [getElem?_movedNames] at hentry
    rw [isLive]
    cases hrow : g.rows[r.index]? with
    | none => simp [hrow] at hentry
    | some row => cases row <;> simp_all
  have hsame := (entry_of_isLive hlive).symm.trans hentry
  exact ⟨hlive, Option.some.inj (Option.some.inj hsame)⟩

/-- A rule is renamed to its rank. -/
theorem renamed_movedNames (hr : g.isLive r = true) :
    renamed g.movedNames r = ⟨rank g.rows.toList r.index⟩ := by
  obtain ⟨rule, hrule⟩ := isLive_iff.mp hr
  rw [renamed, getElem?_movedNames, ruleAt?_eq_some_iff.mp hrule]
  rfl

/-- A rule of the grammar has a row that is no gap. -/
theorem row_of_isLive (hr : g.isLive r = true) :
    ∃ rule, g.rows.toList[r.index]? = some (some rule) := by
  obtain ⟨rule, hrule⟩ := isLive_iff.mp hr
  exact ⟨rule, by rw [Array.getElem?_toList, ruleAt?_eq_some_iff.mp hrule]⟩

/-- The rules without a new name are those that were taken out. -/
theorem gap_iff_movedNames :
    g.movedNames[r.index]? = some none ↔ g.isRemoved r = .ok true := by
  rw [isRemoved_eq_ok_true_iff, getElem?_movedNames, ruleAt?]
  cases hrow : g.rows[r.index]? with
  | none => simp [size, Array.getElem?_eq_none_iff.mp hrow]
  | some row =>
    have hr := (Array.getElem?_eq_some_iff.mp hrow).1
    cases row <;> simp [size, hr]

/-- Rules keep their order. -/
theorem renamed_movedNames_lt {s : RuleId} (hr : g.isLive r = true) (hs : g.isLive s = true)
    (hlt : r < s) : renamed g.movedNames r < renamed g.movedNames s := by
  obtain ⟨rule, hrule⟩ := row_of_isLive hr
  rw [renamed_movedNames hr, renamed_movedNames hs]
  exact rank_lt hrule hlt

/-- A rule moves to its rank with its symbols resolved anew. -/
theorem ruleAt?_compacted_renamed (hr : g.ruleAt? r = some rule) :
    g.compacted.ruleAt? (renamed g.movedNames r) = some (g.closed.resolve rule) := by
  have hrow : g.rows.toList[r.index]? = some (some rule) := by
    rw [Array.getElem?_toList, ruleAt?_eq_some_iff.mp hr]
  have hkept := getElem?_besideRules rfl hrow
  rw [besideRules_self, hrow] at hkept
  rw [renamed_movedNames (isLive_iff.mpr ⟨rule, hr⟩), compacted, ruleAt?_reindex, ruleAt?, closed,
    List.getElem?_toArray, hkept]
  rfl

/-- The rules of the grammar are the rows that are left. -/
theorem size_compacted (g : Grammar) : g.compacted.size = g.liveCount := by
  rw [compacted, size, reindex, Array.size_map, closed, List.size_toArray, liveCount,
    List.countP_eq_length_filter]

/-- In the compacted table stands nothing but the rules. -/
theorem exists_renamed_eq (hr' : r'.index < g.compacted.size) :
    ∃ r, g.isLive r = true ∧ renamed g.movedNames r = r' := by
  rw [size_compacted] at hr'
  obtain ⟨i, rule, hi, hrank⟩ := exists_rank_eq hr'
  rw [Array.getElem?_toList] at hi
  have hlive : g.isLive ⟨i⟩ = true := isLive_iff.mpr ⟨rule, ruleAt?_eq_some_iff.mpr hi⟩
  exact ⟨⟨i⟩, hlive, by rw [renamed_movedNames hlive, hrank]⟩

/-- The numbers of the new names are those from one to the number of rules. -/
theorem number_iff_movedNames (g : Grammar) (n : Nat) :
    (∃ r r' : RuleId, g.movedNames[r.index]? = some (some r') ∧ r'.number = n) ↔
      1 ≤ n ∧ n ≤ g.liveCount := by
  constructor
  · intro h
    obtain ⟨r, r', hentry, rfl⟩ := h
    obtain ⟨hlive, rfl⟩ := of_entry hentry
    obtain ⟨rule, hrow⟩ := row_of_isLive hlive
    have hlt := rank_lt_countP hrow
    rw [renamed_movedNames hlive, RuleId.number, liveCount]
    dsimp only
    omega
  · intro h
    obtain ⟨hpos, hle⟩ := h
    have hlt : (⟨n - 1⟩ : RuleId).index < g.compacted.size := by
      rw [size_compacted]
      dsimp only
      omega
    obtain ⟨r, hlive, hsame⟩ := exists_renamed_eq hlt
    exact ⟨r, ⟨n - 1⟩, hsame ▸ entry_of_isLive hlive, Nat.sub_add_cancel hpos⟩

/-- Every rule of the compacted table is a rule of the grammar that moved there. -/
theorem exists_rule_compacted (hr' : g.compacted.ruleAt? r' = some rule) :
    ∃ r former, g.ruleAt? r = some former ∧ renamed g.movedNames r = r' ∧ former.type = rule.type := by
  obtain ⟨r, hlive, rfl⟩ := exists_renamed_eq (index_lt_of_ruleAt? hr')
  obtain ⟨former, hformer⟩ := isLive_iff.mp hlive
  obtain rfl := Option.some.inj ((ruleAt?_compacted_renamed hformer).symm.trans hr')
  exact ⟨r, former, hformer, rfl, rfl⟩

/-- Nothing is a gap in the compacted table. -/
theorem isRemoved_compacted (hr' : r'.index < g.compacted.size) :
    g.compacted.isRemoved r' = .ok false := by
  obtain ⟨r, hlive, rfl⟩ := exists_renamed_eq hr'
  obtain ⟨rule, hrule⟩ := isLive_iff.mp hlive
  exact isRemoved_of_ruleAt? (ruleAt?_compacted_renamed hrule)

/-! ### The index, the symbols and the weights -/

/-- The rules of a type move to their ranks. Both lists ascend, so it is enough that they have the same
members. -/
theorem Consistent.listed_compacted (hg : Consistent g) (type : String) :
    listed g.compacted.types type = (listed g.types type).map (renamed g.movedNames) := by
  have hlive := hg.isLive_of_listed type
  have hascending : ((listed g.types type).map (renamed g.movedNames)).Pairwise (· < ·) :=
    List.pairwise_map.mpr ((hg.lists.ascending type).imp_of_mem fun hr hs hlt =>
      renamed_movedNames_lt (hlive _ hr) (hlive _ hs) hlt)
  refine (hg.compacted.lists.ascending type).eq_of_mem_iff hascending fun r' => ?_
  rw [hg.compacted.mem_listed_iff, List.mem_map]
  constructor
  · intro h
    obtain ⟨rule, hrule, rfl⟩ := h
    obtain ⟨r, former, hformer, hsame, htype⟩ := exists_rule_compacted hrule
    exact ⟨r, hg.mem_listed_iff.mpr ⟨former, hformer, htype⟩, hsame⟩
  · intro h
    obtain ⟨r, hr, rfl⟩ := h
    obtain ⟨rule, hrule, rfl⟩ := hg.mem_listed_iff.mp hr
    exact ⟨_, ruleAt?_compacted_renamed hrule, rfl⟩

/-- A type is there when it has a rule. -/
theorem Indexed.hasType_iff_listed (hg : Indexed g) :
    g.hasType type = true ↔ listed g.types type ≠ [] := by
  constructor
  · exact hg.lists.nonempty type
  · intro hne
    obtain ⟨r, hr⟩ := List.exists_mem_of_ne_nil _ hne
    obtain ⟨rule, hrule, rfl⟩ := hg.mem_listed_iff.mp hr
    exact hg.hasType_of_ruleAt? hrule

/-- Closing the gaps changes no type. -/
theorem Consistent.hasType_compacted (hg : Consistent g) (type : String) :
    g.compacted.hasType type = g.hasType type := by
  rw [Bool.eq_iff_iff, hg.compacted.hasType_iff_listed, hg.hasType_iff_listed, hg.listed_compacted]
  simp

/-- Symbols stand for what they stood for. -/
theorem Consistent.classify_closed (hg : Consistent g) : g.closed.classify = g.classify := by
  have hcompact : g.compacted.classify = g.classify := classify_congr hg.hasType_compacted rfl
  rw [← classify_reindex]
  exact hcompact

/-- The symbols of a rule are resolved already. -/
theorem Consistent.resolve_eq (hg : Consistent g) (hr : g.ruleAt? r = some rule) :
    g.resolve rule = rule := by
  rw [resolve, ← hg.kinds_eq r rule hr]

/-- A rule moves to its rank as it is. -/
theorem Consistent.ruleAt?_compacted (hg : Consistent g) (hr : g.ruleAt? r = some rule) :
    g.compacted.ruleAt? (renamed g.movedNames r) = some rule := by
  have hresolve : g.closed.resolve rule = g.resolve rule := by
    rw [resolve, resolve, hg.classify_closed]
  rw [ruleAt?_compacted_renamed hr, hresolve, hg.resolve_eq hr]

/-- A compacted grammar is the grammar with its rules renamed. -/
theorem Consistent.compacted_renames (hg : Consistent g) :
    Renames (renamed g.movedNames) g g.compacted where
  ruleAt?_image _ _ hr := hg.ruleAt?_compacted hr
  increasing _ _ := renamed_movedNames_lt
  symbols_eq := rfl
  get?_eq type := by
    have hcompact : g.compacted.types.get? type =
        (g.closed.types.get? type).map fun entry => ⟨entry.rules, .ofRules entry.rules⟩ := by
      rw [Grammar.compacted]
      exact NameMap.get?_mapValues ..
    have hlisted := hg.listed_compacted type
    have hcontains := hg.hasType_compacted type
    rw [hasType, hasType, NameMap.contains, NameMap.contains] at hcontains
    cases hentry : g.types.get? type with
    | none =>
      rw [hentry] at hcontains
      exact Option.not_isSome_iff_eq_none.mp (by simp [hcontains])
    | some entry =>
      rw [hentry] at hcontains
      obtain ⟨entry', hentry'⟩ := Option.isSome_iff_exists.mp hcontains
      rw [listed_of_get? hentry, listed_of_get? hentry'] at hlisted
      rw [hcompact] at hentry' ⊢
      obtain ⟨closedEntry, hclosed, rfl⟩ := Option.map_eq_some_iff.mp hentry'
      rw [hclosed, Option.map_some, Option.map_some, ← hlisted]

/-- A rule keeps its weight. -/
theorem Consistent.storedWeight?_compacted (hg : Consistent g) (hr : g.isLive r = true) :
    g.compacted.storedWeight? (renamed g.movedNames r) = g.storedWeight? r := by
  obtain ⟨rule, hrow⟩ := row_of_isLive hr
  rw [renamed_movedNames hr, Grammar.compacted, storedWeight?, storedWeight?, reindex, closed]
  cases hws : g.weights with
  | none => rfl
  | some ws =>
    have hlen : ws.toList.length = g.rows.toList.length := hg.weights_size ws hws
    have hkept := getElem?_besideRules hlen hrow
    rw [Array.getElem?_toList] at hkept
    simpa using hkept

/-! ### Compacting again -/

/-- Where there is no gap each rule keeps its distance from the first one. -/
theorem renumbering_of_full (next : Nat) (hfull : ∀ row ∈ rows, row.isSome = true) :
    renumbering next rows = (List.range' next rows.length).map fun i => some ⟨i⟩ := by
  induction rows generalizing next with
  | nil => rfl
  | cons row rest ih =>
    obtain ⟨hrow, hrest⟩ := List.forall_mem_cons.mp hfull
    obtain ⟨rule, rfl⟩ := Option.isSome_iff_exists.mp hrow
    rw [renumbering, ih (next + 1) hrest, List.length_cons, List.range'_succ, List.map_cons]

/-- Where there is no gap each value stays. -/
theorem besideRules_of_full {α : Type} {values : List α} (hlen : values.length = rows.length)
    (hfull : ∀ row ∈ rows, row.isSome = true) : besideRules rows values = values := by
  induction rows generalizing values with
  | nil =>
    rw [List.length_eq_zero_iff.mp hlen]
    rfl
  | cons row rest ih =>
    obtain ⟨hrow, hrest⟩ := List.forall_mem_cons.mp hfull
    obtain ⟨rule, rfl⟩ := Option.isSome_iff_exists.mp hrow
    cases values with
    | nil => simp at hlen
    | cons value values => rw [besideRules, ih (Nat.succ.inj hlen) hrest]

/-- The index of rows does not depend on what their symbols stand for. -/
theorem indexRows_resolve (x : Grammar) (types : NameMap TypeEntry) (next : Nat)
    (rows : List (Option Rule)) :
    indexRows types next (rows.map (Option.map x.resolve)) = indexRows types next rows := by
  induction rows generalizing types next with
  | nil => rfl
  | cons row rest ih => cases row <;> simp [indexRows, ih, resolve]

/-- Resolving the symbols of a consistent grammar anew changes nothing. -/
theorem Consistent.map_resolve (hg : Consistent g) : g.rows.map (Option.map g.resolve) = g.rows := by
  refine Array.ext_getElem? fun i => ?_
  rw [Array.getElem?_map]
  rcases hrow : g.rows[i]? with _ | _ | rule
  · rfl
  · rfl
  · have hr : g.ruleAt? ⟨i⟩ = some rule := ruleAt?_eq_some_iff.mpr hrow
    rw [Option.map_some, Option.map_some, hg.resolve_eq hr]

/-- When the gaps are closed there is none left. -/
theorem full_compacted (g : Grammar) : ∀ row ∈ g.compacted.rows.toList, row.isSome = true := by
  intro row hrow
  rw [compacted, reindex, Array.toList_map, List.mem_map] at hrow
  obtain ⟨former, hformer, rfl⟩ := hrow
  rw [Option.isSome_map]
  exact (List.mem_filter.mp hformer).2

/-- Without gaps there is nothing to close. -/
theorem Consistent.closed_compacted (hg : Consistent g) :
    g.compacted.closed = { g.compacted with types := g.closed.types } := by
  have hfull := full_compacted g
  have hfilter : g.compacted.rows.toList.filter Option.isSome = g.compacted.rows.toList :=
    List.filter_eq_self.mpr hfull
  have htypes : indexRows NameMap.empty 0 g.compacted.rows.toList = g.closed.types := by
    rw [Grammar.compacted, reindex, Array.toList_map, indexRows_resolve]
    rfl
  have hweights : g.compacted.weights.map
      (fun ws => (besideRules g.compacted.rows.toList ws.toList).toArray) = g.compacted.weights := by
    cases hws : g.compacted.weights with
    | none => rfl
    | some ws =>
      have hlen : ws.toList.length = g.compacted.rows.toList.length :=
        hg.compacted.weights_size ws hws
      rw [Option.map_some, besideRules_of_full hlen hfull]
  rw [closed, hfilter, htypes, hweights]

/-- Closing the gaps of a grammar without gaps changes nothing. -/
theorem Consistent.compacted_compacted (hg : Consistent g) : g.compacted.compacted = g.compacted := by
  have hclassify : ({ g.compacted with types := g.closed.types } : Grammar).classify =
      g.compacted.classify := by
    refine classify_congr (fun type => ?_) rfl
    exact (contains_mapValues _ g.closed.types type).symm
  have hresolve : ({ g.compacted with types := g.closed.types } : Grammar).resolve =
      g.compacted.resolve := by
    funext rule
    rw [resolve, resolve, hclassify]
  rw [Grammar.compacted, hg.closed_compacted, reindex, hresolve, hg.compacted.map_resolve]
  rfl

/-- Every rule of a grammar without gaps keeps its name. -/
theorem movedNames_compacted (g : Grammar) :
    g.compacted.movedNames = (List.range g.compacted.size).map fun i => some ⟨i⟩ := by
  rw [movedNames, renumbering_of_full 0 (full_compacted g), ← List.range_eq_range']
  rfl

/-- A compacted grammar is compact: each rule keeps its name, and nothing changes. -/
theorem Consistent.compact_compacted (hg : Consistent g) : g.compacted.compact =
    .done g.compacted ((List.range g.compacted.size).map fun i => some ⟨i⟩) := by
  rw [hg.compacted.compact_eq, hg.compacted_compacted, movedNames_compacted]

end TypedGrammar.Grammar
