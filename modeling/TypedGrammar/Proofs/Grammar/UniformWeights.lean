import TypedGrammar.Proofs.Grammar.MergeRun

/-!
# Uniform weights

The uniform weights are filled in type by type, over weights that make every rule impossible. No two
types share a rule, so what one type fills in stays, and in the end every rule has the uniform weight
of its type.
-/

namespace TypedGrammar.Grammar

variable {g : Grammar} {r : RuleId} {rule : Rule} {weights ws : Array Float} {w : Float}
  {rules : List RuleId} {entries : List (String × TypeEntry)}

/-- Setting the weight of a rule changes that one alone. -/
theorem getElem?_setWeight (h : setWeight weights r w = .ok ws) (s : RuleId) :
    ws[s.index]? = if s = r then some w else weights[s.index]? := by
  obtain ⟨hlt, rfl⟩ := setWeight_eq_ok_iff.mp h
  rw [Array.getElem?_setIfInBounds]
  by_cases hsame : s = r
  · rw [hsame, if_pos rfl, if_pos hlt, if_pos rfl]
  · have hindex : r.index ≠ s.index := fun heq => hsame (congrArg RuleId.mk heq.symm)
    rw [if_neg hindex, if_neg hsame]

/-- Filling in a weight for rules sets their weights and no other. -/
theorem getElem?_fillWeights (h : fillWeights w weights rules = .ok ws) (s : RuleId) :
    ws[s.index]? = if s ∈ rules then some w else weights[s.index]? := by
  induction rules generalizing weights with
  | nil =>
    cases h
    simp
  | cons r rest ih =>
    obtain ⟨filled, hfilled, h⟩ := bind_eq_ok.mp h
    rw [ih h, getElem?_setWeight hfilled]
    by_cases hsame : s = r
    · simp [hsame]
    · simp [hsame]

/-- Types that do not list a rule leave its weight alone. -/
theorem getElem?_uniformWeights_of_notMem (h : uniformWeights weights entries = .ok ws) {s : RuleId}
    (hs : ∀ entry ∈ entries, s ∉ entry.2.rules) : ws[s.index]? = weights[s.index]? := by
  induction entries generalizing weights with
  | nil =>
    cases h
    rfl
  | cons entry rest ih =>
    obtain ⟨filled, hfilled, h⟩ := bind_eq_ok.mp h
    rw [ih h fun other hother => hs other (List.mem_cons_of_mem _ hother),
      getElem?_fillWeights hfilled, if_neg (hs entry List.mem_cons_self)]

/-- The weight of a rule is the uniform one of the type that lists it, when no two types share it. -/
theorem getElem?_uniformWeights (h : uniformWeights weights entries = .ok ws)
    (hdisjoint : entries.Pairwise fun a b => ∀ r ∈ a.2.rules, r ∉ b.2.rules)
    {entry : String × TypeEntry} (hentry : entry ∈ entries) {s : RuleId} (hs : s ∈ entry.2.rules) :
    ws[s.index]? = some (uniformLog entry.2.rules.length) := by
  induction entries generalizing weights with
  | nil => cases hentry
  | cons first rest ih =>
    obtain ⟨filled, hfilled, hlater⟩ := bind_eq_ok.mp h
    obtain ⟨hfirst, hrest⟩ := List.pairwise_cons.mp hdisjoint
    rcases List.mem_cons.mp hentry with rfl | hentry
    · rw [getElem?_uniformWeights_of_notMem hlater fun other hother => hfirst other hother s hs,
        getElem?_fillWeights hfilled, if_pos hs]
    · exact ih hlater hrest hentry

/-- No two types of a fitting index share a rule. -/
theorem Indexed.entries_disjoint (hg : Indexed g) :
    g.types.entries.Pairwise fun a b => ∀ r ∈ a.2.rules, r ∉ b.2.rules := by
  have hascending := List.pairwise_map.mp g.types.ascending
  refine List.Pairwise.imp_of_mem ?_ hascending
  intro a b ha hb hlt r hra hrb
  have hlisted : ∀ {entry : String × TypeEntry}, entry ∈ g.types.entries →
      listed g.types entry.1 = entry.2.rules :=
    fun hentry => listed_of_get? (NameMap.get?_eq_some_iff.mpr hentry)
  have hsame := hg.lists.type_unique (hlisted ha ▸ hra) (hlisted hb ▸ hrb)
  exact String.lt_irrefl _ (hsame ▸ hlt)

/-- With uniform weights every rule has the uniform weight of its type. -/
theorem Indexed.storedWeight?_initUniform (hg : Indexed g) (h : g.initUniform.result = .ok ())
    (hr : g.ruleAt? r = some rule) :
    g.initUniform.state.storedWeight? r =
      some (uniformLog (listed g.types rule.type).length) := by
  have hmem := hg.mem_listed hr
  obtain ⟨entry, hentry⟩ := Option.isSome_iff_exists.mp (hg.hasType_of_ruleAt? hr)
  rw [listed_of_get? hentry] at hmem ⊢
  unfold initUniform at h ⊢
  split at h
  · rename_i ws hws
    exact getElem?_uniformWeights hws hg.entries_disjoint (NameMap.get?_eq_some_iff.mp hentry) hmem
  · cases h

end TypedGrammar.Grammar
