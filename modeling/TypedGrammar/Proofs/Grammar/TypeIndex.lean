import TypedGrammar.Grammar.Compact
import TypedGrammar.Proofs.Grammar.RuleTable

/-!
# The index of the types against the type column

The type column of a table says for each position which type the rule there derives, if there is a
rule. `Lists` says that an index of types agrees with such a column: every type is listed with
exactly its positions, in ascending order, and no type is kept that has none. The lemmas follow the
ways in which an index changes: a rule is enlisted behind the others, a rule is struck, and the
index of a list of rows is computed from the beginning.
-/

namespace TypedGrammar.Grammar

/-- The rules that an index lists for a type; none for a type that it lacks. -/
def listed (types : NameMap TypeEntry) (type : String) : List RuleId :=
  ((types.get? type).map TypeEntry.rules).getD []

/-- An index of types agrees with a type column. -/
structure Lists (types : NameMap TypeEntry) (column : List (Option String)) : Prop where
  /-- The rules of a type are in ascending order. -/
  ascending : ∀ type, (listed types type).Pairwise (· < ·)
  /-- The rules of a type are those at the positions that derive it. -/
  mem_iff : ∀ type (r : RuleId), r ∈ listed types type ↔ column[r.index]? = some (some type)
  /-- A type in the index has a rule. -/
  nonempty : ∀ type, types.contains type = true → listed types type ≠ []

variable {types : NameMap TypeEntry} {column : List (Option String)} {type x : String}

/-- The entry that a grammar gives for a type is the one in its index. -/
theorem get?_of_typeEntry {g : Grammar} {entry : TypeEntry} (h : g.typeEntry type = .ok entry) :
    g.types.get? type = some entry := by
  unfold typeEntry at h
  split at h
  · rename_i found hfound
    rw [hfound, Except.ok.inj h]
  · cases h

/-- The rules listed for a type are those of its entry. -/
theorem listed_of_get? {entry : TypeEntry} (h : types.get? type = some entry) :
    listed types type = entry.rules := by
  rw [listed, h]
  rfl

/-- No rules are listed for a type without an entry. -/
theorem listed_of_not_contains (h : types.contains type = false) : listed types type = [] := by
  rw [NameMap.contains, Option.isSome_eq_false_iff, Option.isNone_iff_eq_none] at h
  rw [listed, h]
  rfl

/-- A new entry changes the list of its type alone. -/
theorem listed_insert (types : NameMap TypeEntry) (type x : String) (entry : TypeEntry) :
    listed (types.insert type entry) x = if x = type then entry.rules else listed types x := by
  rw [listed, NameMap.get?_insert]
  by_cases hx : x = type
  · rw [if_pos hx, if_pos hx]
    rfl
  · rw [if_neg hx, if_neg hx]
    rfl

/-- A type that is erased lists no rules, and the other lists stay. -/
theorem listed_erase (types : NameMap TypeEntry) (type x : String) :
    listed (types.erase type) x = if x = type then [] else listed types x := by
  rw [listed, NameMap.get?_erase]
  by_cases hx : x = type
  · rw [if_pos hx, if_pos hx]
    rfl
  · rw [if_neg hx, if_neg hx]
    rfl

/-- A change of the entries that keeps their lists of rules keeps what is listed. -/
theorem listed_mapValues {f : TypeEntry → TypeEntry} (hf : ∀ entry, (f entry).rules = entry.rules)
    (types : NameMap TypeEntry) (type : String) :
    listed (types.mapValues f) type = listed types type := by
  rw [listed, NameMap.get?_mapValues, listed, Option.map_map]
  congr 2
  funext entry
  exact hf entry

/-- A new entry adds its type to the index. -/
theorem contains_insert (types : NameMap TypeEntry) (type x : String) (entry : TypeEntry) :
    (types.insert type entry).contains x = true ↔ x = type ∨ types.contains x = true := by
  rw [← NameMap.mem_keys_iff, NameMap.mem_keys_insert, NameMap.mem_keys_iff]

/-- Erasing takes its type from the index. -/
theorem contains_erase (types : NameMap TypeEntry) (type x : String) :
    (types.erase type).contains x = true ↔ x ≠ type ∧ types.contains x = true := by
  rw [NameMap.contains, NameMap.get?_erase]
  by_cases hx : x = type
  · simp [hx]
  · simp [hx, NameMap.contains]

/-- Changing the entries leaves the types as they are. -/
theorem contains_mapValues (f : TypeEntry → TypeEntry) (types : NameMap TypeEntry) (type : String) :
    (types.mapValues f).contains type = types.contains type := by
  rw [NameMap.contains, NameMap.get?_mapValues, Option.isSome_map, NameMap.contains]

/-- Enlisting a rule puts it behind the rules of its type and leaves the other types alone. -/
theorem listed_enlist (types : NameMap TypeEntry) (type x : String) (r : RuleId) :
    listed (enlist types type r) x =
      if x = type then listed types type ++ [r] else listed types x := by
  have hrules : ((types.get? type).getD ⟨[], .empty⟩).rules = listed types type := by
    unfold listed
    cases types.get? type <;> rfl
  rw [enlist, listed_insert, hrules]

namespace Lists

/-- An index without types agrees with a column without rules. -/
theorem of_empty : Lists NameMap.empty [] where
  ascending _ := List.Pairwise.nil
  mem_iff _ r := by simp [listed, NameMap.get?_empty]
  nonempty _ h := by simp [NameMap.contains, NameMap.get?_empty] at h

/-- The index has exactly the types that some position derives. -/
theorem contains_iff (h : Lists types column) (type : String) :
    types.contains type = true ↔ ∃ r : RuleId, column[r.index]? = some (some type) := by
  constructor
  · intro hc
    obtain ⟨r, hr⟩ := List.exists_mem_of_ne_nil _ (h.nonempty type hc)
    exact ⟨r, (h.mem_iff type r).mp hr⟩
  · intro hexists
    obtain ⟨r, hr⟩ := hexists
    have hmem := (h.mem_iff type r).mpr hr
    cases hc : types.contains type with
    | true => rfl
    | false =>
      rw [listed_of_not_contains hc] at hmem
      exact absurd hmem List.not_mem_nil

/-- Two types share no rule. -/
theorem type_unique (h : Lists types column) {r : RuleId} (hr : r ∈ listed types type)
    (hx : r ∈ listed types x) : type = x := by
  have hboth := ((h.mem_iff type r).mp hr).symm.trans ((h.mem_iff x r).mp hx)
  exact Option.some.inj (Option.some.inj hboth)

/-- A gap behind the column changes nothing. -/
theorem append_gap (h : Lists types column) : Lists types (column ++ [none]) where
  ascending := h.ascending
  nonempty := h.nonempty
  mem_iff x r := by
    rw [h.mem_iff, List.getElem?_append]
    split
    · rfl
    · rename_i hout
      rw [List.getElem?_eq_none (Nat.not_lt.mp hout), List.getElem?_singleton]
      split <;> simp

/-- A rule behind the column is enlisted as the last one of its type. -/
theorem enlist_next (h : Lists types column) (type : String) :
    Lists (enlist types type ⟨column.length⟩) (column ++ [some type]) where
  ascending x := by
    rw [listed_enlist]
    split
    · refine List.pairwise_append.mpr ⟨h.ascending type, List.pairwise_singleton _ _, ?_⟩
      intro r hr last hlast
      rw [List.mem_singleton.mp hlast]
      exact (List.getElem?_eq_some_iff.mp ((h.mem_iff type r).mp hr)).1
    · exact h.ascending x
  mem_iff x r := by
    have hnew : (column ++ [some type])[r.index]? = some (some x) ↔
        column[r.index]? = some (some x) ∨ (r.index = column.length ∧ x = type) := by
      rw [List.getElem?_append]
      split
      · rename_i hin
        have hne : r.index ≠ column.length := Nat.ne_of_lt hin
        simp [hne]
      · rename_i hout
        rw [List.getElem?_eq_none (Nat.not_lt.mp hout), List.getElem?_singleton]
        have hzero : r.index - column.length = 0 ↔ r.index = column.length := by omega
        simp [hzero, eq_comm]
    have hid : r = ⟨column.length⟩ ↔ r.index = column.length := by
      cases r
      simp
    rw [hnew, listed_enlist, ← h.mem_iff]
    by_cases hx : x = type
    · simp [hx, hid]
    · simp [hx]
  nonempty x hc := by
    rw [listed_enlist]
    split
    · simp
    · rename_i hx
      rcases (contains_insert ..).mp hc with rfl | hc
      · exact absurd rfl hx
      · exact h.nonempty x hc

/-- The index of further rows, computed on from that of the rows before them. -/
theorem indexRows (h : Lists types column) (rows : List (Option Rule)) :
    Lists (indexRows types column.length rows) (column ++ rows.map (Option.map Rule.type)) := by
  induction rows generalizing types column with
  | nil => simpa [Grammar.indexRows] using h
  | cons row rest ih =>
    cases row with
    | none => simpa [Grammar.indexRows] using ih h.append_gap
    | some rule => simpa [Grammar.indexRows] using ih (h.enlist_next rule.type)

/-- Entries with the same lists of rules agree with the same column. -/
theorem mapValues (h : Lists types column) {f : TypeEntry → TypeEntry}
    (hf : ∀ entry, (f entry).rules = entry.rules) : Lists (types.mapValues f) column where
  ascending x := by
    rw [listed_mapValues hf]
    exact h.ascending x
  mem_iff x r := by
    rw [listed_mapValues hf]
    exact h.mem_iff x r
  nonempty x hc := by
    rw [listed_mapValues hf]
    exact h.nonempty x (by rwa [contains_mapValues] at hc)

/-- What is left of the index when a rule is struck: the rules of its type without it, or no entry
for the type when nothing is left of it. -/
theorem strike {after : NameMap TypeEntry} {r : RuleId} (h : Lists types column)
    (hr : r ∈ listed types type)
    (hlisted : ∀ x, listed after x =
      if x = type then (listed types type).filter (· ≠ r) else listed types x)
    (hcontains : ∀ x, after.contains x = true → listed after x ≠ []) :
    Lists after (column.set r.index none) where
  ascending x := by
    rw [hlisted]
    split
    · exact (h.ascending type).sublist List.filter_sublist
    · exact h.ascending x
  mem_iff x s := by
    have hsame : s.index = r.index ↔ s = r := by
      cases s
      cases r
      simp
    have hcolumn : (column.set r.index none)[s.index]? = some (some x) ↔
        s ≠ r ∧ column[s.index]? = some (some x) := by
      rw [List.getElem?_set]
      by_cases hs : s = r
      · subst hs
        simp
      · have hindex : r.index ≠ s.index := fun heq => hs (hsame.mp heq.symm)
        simp [hindex, hs]
    rw [hcolumn, hlisted, ← h.mem_iff]
    split
    · rename_i hx
      simp [hx, and_comm]
    · rename_i hx
      constructor
      · intro hs
        refine ⟨?_, hs⟩
        intro hsame
        subst hsame
        exact hx (h.type_unique hs hr)
      · exact And.right
  nonempty := hcontains

end Lists

end TypedGrammar.Grammar
