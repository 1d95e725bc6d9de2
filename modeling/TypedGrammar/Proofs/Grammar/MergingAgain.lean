import TypedGrammar.Proofs.Grammar.Embedding
import TypedGrammar.Proofs.Grammar.FailedChanges
import TypedGrammar.Proofs.Grammar.SameRules
import TypedGrammar.Proofs.Grammar.SoundTable

/-!
# Merging what is there already

A grammar absorbs another one when it has its rules, its constants and its constraints, under the names
that a mapping tells. A merge then finds every rule and adds nothing; it computes the index anew, and the
index was current. A grammar absorbs whatever was merged into it, and it absorbs itself as long as its
constraints are valid.
-/

namespace TypedGrammar.Grammar

variable {g other grown : Grammar} {r : RuleId} {ids : List RuleId} {mapping : List (Option RuleId)}
  {c : Constraint}

/-! ### Adding what is there -/

/-- Rules that are in the table are found and not pushed again. -/
theorem Indexed.mergeRows_of_becomes (hg : Indexed g) (hdistinct : Distinct g)
    (h : List.Forall₂ (Becomes other g) ids mapping) :
    g.mergeRows (ids.map fun r => (other.ruleAt? r, other.carriedWeight r)) = .ok (mapping, g) := by
  induction h with
  | nil => rfl
  | @cons r entry ids mapping hentry _ ih =>
    rw [List.map_cons]
    rcases hentry with ⟨hgap, rfl⟩ | ⟨rule, image, found, hr, rfl, hfound, htype, hbody⟩
    · rw [hgap, mergeRows, ih]
      rfl
    · have hfind : g.findRule? rule.type rule.body = .ok (some image) :=
        (hg.findRule?_eq_some_iff hdistinct).mpr ⟨returnType_eq_ok_iff.mpr ⟨found, hfound, htype⟩,
          body_eq_ok_iff.mpr ⟨found, hfound, hbody⟩⟩
      rw [hr, mergeRows, hfind, ok_bind]
      dsimp only
      rw [ih]
      rfl

/-- Constants whose names are taken are not added. -/
theorem addSymbols_of_contains {table : SymbolTable} {entries : List (String × Value)}
    (h : ∀ entry ∈ entries, table.contains entry.1 = true) : addSymbols table entries = table := by
  induction entries with
  | nil => rfl
  | cons entry rest ih =>
    obtain ⟨hentry, hrest⟩ := List.forall_mem_cons.mp h
    rw [addSymbols, if_pos hentry, ih hrest]

/-- Constraints that are there are not added. -/
theorem addNewConstraints_of_mem {known new : List Constraint} (h : ∀ c ∈ new, c ∈ known) :
    addNewConstraints known new = known := by
  have hnone : (new.filter fun c => !known.contains c) = [] :=
    List.filter_eq_nil_iff.mpr fun c hc => by simp [h c hc]
  rw [addNewConstraints_eq, hnone, List.eraseDups_nil, List.append_nil]

/-- Without rows there is nothing to distribute uniformly. -/
theorem Indexed.initUniform_of_isEmpty (hg : Indexed g) (hempty : g.isEmpty = true)
    (hprobabilistic : g.isProbabilistic = true) : g.initUniform = .done g () := by
  obtain ⟨ws, hws⟩ := Option.isSome_iff_exists.mp hprobabilistic
  have hsize : g.size = 0 := Array.isEmpty_iff_size_eq_zero.mp hempty
  have hresult := hg.result_initUniform
  unfold initUniform at hresult ⊢
  split at hresult
  · rename_i filled hfilled
    have hfilledSize : filled.size = 0 := by
      rw [size_uniformWeights hfilled, Array.size_replicate, hsize]
    have hsame : filled = ws := by
      rw [Array.eq_empty_of_size_eq_zero hfilledSize,
        Array.eq_empty_of_size_eq_zero ((hg.weights_size ws hws).trans hsize)]
    rw [hsame, ← hws]
  · cases hresult

/-! ### A current index -/

/-- The symbols of a consistent grammar are resolved already. -/
theorem Consistent.rows_reindex (hg : Consistent g) : g.reindex.rows = g.rows := by
  refine Array.ext_getElem? fun i => ?_
  rw [reindex, Array.getElem?_map]
  rcases hrow : g.rows[i]? with _ | _ | rule
  · rfl
  · rfl
  · have hkinds := hg.kinds_eq ⟨i⟩ rule (ruleAt?_eq_some_iff.mpr hrow)
    simp only [Option.map_some, resolve, ← hkinds]

/-- Computing the index anew leaves all of a consistent grammar but the form of its index. -/
theorem Consistent.reindex_eq (hg : Consistent g) : g.reindex = { g with types := g.reindex.types } := by
  change { g with rows := g.reindex.rows, types := g.reindex.types } = _
  rw [hg.rows_reindex]

/-- An index that was computed anew has its form. -/
theorem types_reindex_reindex (g : Grammar) : g.reindex.reindex.types = g.reindex.types :=
  NameMap.ext_entries (by simp [reindex, NameMap.mapValues])

/-! ### Absorbing another grammar -/

/-- A grammar has all that a merge with another one would add to it: the mapping names a rule with the
same type and body for each rule of the other one, and its constants and constraints are there. The
grammars agree on having probabilities, and the constraints of the other one fit it. -/
structure Absorbs (g other : Grammar) (mapping : List (Option RuleId)) : Prop where
  agree : g.isProbabilistic = other.isProbabilistic ∨ other.isEmpty = true ∨ g.isEmpty = true
  checked : other.checkConstraints other.constraints = .ok ()
  start : g.mergeStart other = g
  becomes : List.Forall₂ (Becomes other g) ((List.range other.size).map RuleId.mk) mapping
  symbols : ∀ entry ∈ other.symbols.entries, g.symbols.contains entry.1 = true
  constraints : ∀ c ∈ other.constraints, c.mapRules (renamed mapping) ∈ g.constraints

/-- Merging what a grammar absorbs finds every rule and computes the index anew. Uniform weights are given
again only where there are no rows to give them to. -/
theorem Absorbs.merge_eq (h : Absorbs g other mapping) (hg : Consistent g) (hdistinct : Distinct g) :
    g.merge other = .done g.reindex mapping := by
  have hrows : g.mergeRows other.weightedRows = .ok (mapping, g) := by
    rw [weightedRows_eq]
    exact hg.mergeRows_of_becomes hdistinct h.becomes
  have hindexed : g.mergeIndexed other = g.reindex := by
    rw [mergeIndexed, addSymbols_of_contains h.symbols]
  have hweighted : g.mergeWeighted other g = .done g.reindex () := by
    rw [mergeWeighted, hindexed, h.start]
    split
    · rename_i huniform
      simp only [Bool.and_eq_true] at huniform
      have hempty : g.reindex.isEmpty = true := by
        rw [isEmpty, hg.rows_reindex]
        exact huniform.1.1
      exact hg.reindex.initUniform_of_isEmpty hempty huniform.1.2
    · rfl
  have hconstraints : addNewConstraints g.reindex.constraints
      (other.constraints.map (Constraint.mapRules (renamed mapping))) = g.reindex.constraints :=
    addNewConstraints_of_mem fun c hc => by
      obtain ⟨former, hformer, rfl⟩ := List.mem_map.mp hc
      exact h.constraints former hformer
  rw [Grammar.merge_eq, if_neg (by simpa [or_iff_not_imp_left] using h.agree), h.checked, h.start,
    hrows]
  dsimp only
  rw [hweighted]
  dsimp only [Edit.done]
  rw [hconstraints]

/-! ### Merging twice -/

/-- A grammar without rows takes over that the other one has probabilities. -/
theorem isProbabilistic_mergeStart_of_isEmpty (hempty : g.isEmpty = true)
    (hprobabilistic : other.isProbabilistic = true) : (g.mergeStart other).isProbabilistic = true := by
  unfold mergeStart
  cases hg : g.isProbabilistic with
  | true => simp [hg]
  | false =>
    rw [hempty, hprobabilistic]
    rfl

/-- After each rule has been given its share the grammar has probabilities. -/
theorem isProbabilistic_initUniform (h : g.initUniform.result = .ok ()) :
    g.initUniform.state.isProbabilistic = true := by
  unfold initUniform at h ⊢
  split at h
  · rfl
  · cases h

/-- The index of a merged grammar was computed anew. -/
theorem MergeParts.types_reindex (h : MergeParts g other mapping grown) :
    (g.merge other).state.reindex.types = (g.merge other).state.types := by
  rw [h.state_eq, state_mergeWeighted]
  exact types_reindex_reindex { grown with symbols := addSymbols grown.symbols other.symbols.entries }

section Parts

variable (h : MergeParts g other mapping grown)

include h

/-- A merged grammar has probabilities when the one does that the rules are appended to. -/
theorem MergeParts.isProbabilistic_merge (hother : Distinct other) :
    (g.merge other).state.isProbabilistic = (g.mergeStart other).isProbabilistic := by
  cases huniform : g.isEmpty && (g.mergeStart other).isProbabilistic && !other.isProbabilistic with
  | false =>
    rw [isProbabilistic, h.weights_grown huniform, h.weights_eq hother, Option.isSome_map]
    rfl
  | true =>
    have hweighted : g.mergeWeighted other grown = (grown.mergeIndexed other).initUniform := by
      rw [mergeWeighted, huniform, if_pos rfl]
    have hsettled := h.weighted
    rw [hweighted] at hsettled
    simp only [Bool.and_eq_true] at huniform
    rw [huniform.1.2, h.state_eq, hweighted]
    exact isProbabilistic_initUniform hsettled

/-- A merged grammar without rows comes from one without rows. -/
theorem MergeParts.isEmpty_of_merge (hother : Distinct other)
    (hempty : (g.merge other).state.isEmpty = true) : g.isEmpty = true := by
  have hsize := h.size_merge hother
  have hzero : (g.merge other).state.size = 0 := Array.isEmpty_iff_size_eq_zero.mp hempty
  have hformer : g.size = 0 := by omega
  exact Array.isEmpty_iff_size_eq_zero.mpr hformer

/-- A merged grammar does not take over again that the other one has probabilities. -/
theorem MergeParts.mergeStart_merge (hother : Distinct other) :
    (g.merge other).state.mergeStart other = (g.merge other).state := by
  refine if_neg fun htakes => ?_
  simp only [Bool.and_eq_true, Bool.not_eq_true'] at htakes
  obtain ⟨⟨hempty, hprobabilistic⟩, hplain⟩ := htakes
  rw [h.isProbabilistic_merge hother, isProbabilistic_mergeStart_of_isEmpty
    (h.isEmpty_of_merge hother hempty) hprobabilistic] at hplain
  cases hplain

/-- Merging a grammar with rows and probabilities gives one with probabilities. -/
theorem MergeParts.isProbabilistic_of_other (hother : Distinct other)
    (hprobabilistic : other.isProbabilistic = true) (hrows : other.isEmpty = false) :
    (g.merge other).state.isProbabilistic = true := by
  have hsize : 0 < other.size := Array.size_pos_iff.mpr fun hempty => by
    simp [isEmpty, hempty] at hrows
  rw [h.isProbabilistic_merge hother]
  exact h.isProbabilistic_mergeStart (r := ⟨0⟩) hprobabilistic hsize

/-- The grammars agree on having probabilities after the merge, unless the merged one has them now, the
other one has none, and both have rows. -/
theorem MergeParts.agree_merge (hother : Distinct other)
    (hmodes : ¬ ((g.merge other).state.isProbabilistic = true ∧ other.isProbabilistic = false ∧
      other.isEmpty = false ∧ (g.merge other).state.isEmpty = false)) :
    (g.merge other).state.isProbabilistic = other.isProbabilistic ∨ other.isEmpty = true ∨
      (g.merge other).state.isEmpty = true := by
  by_contra hdisagree
  obtain ⟨hdiffer, hrows⟩ := not_or.mp hdisagree
  obtain ⟨hrows, hrows'⟩ := not_or.mp hrows
  rw [Bool.not_eq_true] at hrows hrows'
  cases hplain : other.isProbabilistic with
  | true => exact hdiffer ((h.isProbabilistic_of_other hother hplain hrows).trans hplain.symm)
  | false =>
    have hprobabilistic : (g.merge other).state.isProbabilistic = true := by
      rwa [hplain, Bool.not_eq_false] at hdiffer
    exact hmodes ⟨hprobabilistic, hplain, hrows, hrows'⟩

/-- The mapping names the rules that are there after the merge. -/
theorem MergeParts.becomes_merge : List.Forall₂ (Becomes other (g.merge other).state)
    ((List.range other.size).map RuleId.mk) mapping := by
  obtain ⟨x, hresolve⟩ := h.exists_resolve
  refine h.merges.becomes.imp fun r entry hentry => ?_
  rcases hentry with hgap | ⟨rule, image, found, hr, hentry, hfound, htype, hbody⟩
  · exact .inl hgap
  · exact .inr ⟨rule, image, x.resolve found, hr, hentry, by rw [hresolve, hfound]; rfl, htype, hbody⟩

/-- What was merged is absorbed, unless the grammars disagree now. -/
theorem MergeParts.absorbs (hother : Distinct other)
    (hagree : (g.merge other).state.isProbabilistic = other.isProbabilistic ∨
      other.isEmpty = true ∨ (g.merge other).state.isEmpty = true) :
    Absorbs (g.merge other).state other mapping where
  agree := hagree
  checked := h.checked
  start := h.mergeStart_merge hother
  becomes := h.becomes_merge
  symbols entry hentry := by
    have hvalue := h.constant_merge entry.1
    have hadded : other.symbols.constant entry.1 = some entry.2 := NameMap.get?_eq_some_iff.mpr hentry
    rw [hadded] at hvalue
    have hsome : ((g.merge other).state.symbols.constant entry.1).isSome = true := by
      rw [hvalue]
      cases g.symbols.constant entry.1 <;> rfl
    exact hsome
  constraints c hc := by
    rw [h.constraints_merge, List.mem_append]
    by_cases hformer : c.mapRules (renamed mapping) ∈ g.constraints
    · exact .inl hformer
    · refine .inr (List.mem_eraseDups.mpr (List.mem_filter.mpr ⟨List.mem_map_of_mem hc, ?_⟩))
      simpa using hformer

/-- The index of a merged grammar is current, in form as well. -/
theorem MergeParts.reindex_eq (hmerged : Consistent (g.merge other).state) :
    (g.merge other).state.reindex = (g.merge other).state := by
  rw [hmerged.reindex_eq, h.types_reindex]

end Parts

/-! ### Merging a grammar into itself -/

/-- A constraint is valid in a grammar when it has something to say and the grammar has its rules. -/
def IsValid (g : Grammar) (c : Constraint) : Prop :=
  c.isWellFormed = true ∧ ∀ r ∈ c.rules, g.isRemoved r = .ok false

/-- Rules that were not taken out pass the check. -/
theorem checkRules_of_live {rules : List RuleId} (h : ∀ r ∈ rules, g.isRemoved r = .ok false) :
    g.checkRules rules = .ok () := by
  induction rules with
  | nil => rfl
  | cons r rest ih =>
    obtain ⟨hr, hrest⟩ := List.forall_mem_cons.mp h
    obtain ⟨rule, hrule⟩ := isLive_iff.mp (isLive_of_isRemoved hr)
    rw [checkRules, checkRule, ruleAt?_eq_some_iff.mp hrule]
    exact ih hrest

/-- The check of a constraint decides whether it is valid. -/
theorem checkConstraint_eq_ok_iff : g.checkConstraint c = .ok () ↔ g.IsValid c := by
  rw [checkConstraint]
  split
  · rename_i hformed
    refine ⟨fun h => ⟨hformed, fun r hr => ?_⟩, fun h => checkRules_of_live h.2⟩
    obtain ⟨rule, hrule⟩ := exists_rule_of_checkRules h r hr
    exact isRemoved_of_ruleAt? hrule
  · rename_i hformed
    refine ⟨fun h => ?_, fun h => absurd h.1 hformed⟩
    cases h

/-- So does the check of several constraints. -/
theorem checkConstraints_eq_ok_iff {constraints : List Constraint} :
    g.checkConstraints constraints = .ok () ↔ ∀ c ∈ constraints, g.IsValid c := by
  induction constraints with
  | nil => simp [checkConstraints]
  | cons c rest ih =>
    rw [checkConstraints, bind_eq_ok, List.forall_mem_cons, ← checkConstraint_eq_ok_iff, ← ih]
    constructor
    · intro h
      obtain ⟨_, hc, hrest⟩ := h
      exact ⟨hc, hrest⟩
    · intro h
      exact ⟨(), h.1, h.2⟩

/-- A rule is not in the grammar when the table has no rule at its position. -/
theorem isLive_eq_false_iff : g.isLive r = false ↔ g.ruleAt? r = none :=
  Option.isSome_eq_false_iff.trans Option.isNone_iff_eq_none

/-- Each rule by its own name, and nothing for the gaps. -/
def ownNames (g : Grammar) : List (Option RuleId) :=
  ((List.range g.size).map RuleId.mk).map fun r => if g.isLive r then some r else none

/-- In a mapping of a grammar to itself each rule has its own name and each gap none. -/
theorem getElem?_ownNames (hr : r.index < g.size) :
    g.ownNames[r.index]? = some (if g.isLive r then some r else none) := by
  simp [ownNames, hr]

/-- A rule by its own name stays what it is. -/
theorem renamed_ownNames (g : Grammar) : renamed g.ownNames = id := by
  funext r
  by_cases hr : r.index < g.size
  · rw [renamed, getElem?_ownNames hr]
    cases g.isLive r <;> rfl
  · have hnone : g.ownNames[r.index]? = none := by simp [ownNames, Nat.le_of_not_lt hr]
    rw [renamed, hnone]
    rfl

/-- A grammar with valid constraints absorbs itself. -/
theorem absorbs_self (h : ∀ c ∈ g.constraints, g.IsValid c) : Absorbs g g g.ownNames where
  agree := .inl rfl
  checked := checkConstraints_eq_ok_iff.mpr h
  start := by cases hg : g.isProbabilistic <;> simp [mergeStart, hg]
  becomes := by
    refine List.forall₂_map_right_iff.mpr (List.forall₂_same.mpr fun r _ => ?_)
    cases hlive : g.isLive r with
    | false =>
      exact .inl ⟨isLive_eq_false_iff.mp hlive, rfl⟩
    | true =>
      obtain ⟨rule, hrule⟩ := isLive_iff.mp hlive
      exact .inr ⟨rule, r, rule, hrule, rfl, hrule, rfl, rfl⟩
  symbols entry hentry := by
    have hvalue : g.symbols.get? entry.1 = some entry.2 := NameMap.get?_eq_some_iff.mpr hentry
    rw [NameMap.contains, hvalue]
    rfl
  constraints c hc := by
    rw [renamed_ownNames]
    cases c <;> simpa [Constraint.mapRules] using hc

/-! ### Idempotence -/

/-- A grammar is the same but for the words that the domains of its types take. -/
structure Unchanged (g g' : Grammar) : Prop where
  rows_eq : g'.rows = g.rows
  weights_eq : g'.weights = g.weights
  constraints_eq : g'.constraints = g.constraints
  symbols_eq : g'.symbols = g.symbols
  typeNames_eq : g'.typeNames = g.typeNames
  rulesOfType_eq : ∀ type, g'.rulesOfType type = g.rulesOfType type
  /-- The domains have the same members. -/
  domain_same : ∀ type domain, g.domain type = .ok domain →
    ∃ domain', g'.domain type = .ok domain' ∧ domain'.same domain = true

/-- Computing the index of a consistent grammar anew changes nothing in it. -/
theorem Consistent.unchanged_reindex (hg : Consistent g) (hdistinct : Distinct g) :
    Unchanged g g.reindex := by
  have hsame : SameRules g g.reindex := {
    consistent := hg
    consistent' := hg.reindex
    distinct := hdistinct
    distinct' := hdistinct.reindex
    mem_iff := fun rule => by rw [outline_reindex]
    symbols_eq := rfl }
  have hrules : g.reindex.ruleAt? = g.ruleAt? := by
    funext r
    rw [ruleAt?, hg.rows_reindex, ruleAt?]
  exact {
    rows_eq := hg.rows_reindex
    weights_eq := rfl
    constraints_eq := rfl
    symbols_eq := rfl
    typeNames_eq := typeNames_congr hsame.hasType_eq
    rulesOfType_eq := hsame.rulesOfType_eq hrules
    domain_same := fun _ _ => hsame.domain_same hrules }

/-- Merging the same grammar again adds nothing. -/
structure MergeIdempotent (g : Grammar) : Prop where
  /-- Grammars with rows that disagree on having probabilities since the first merge are told apart, and
  the merged one stays as it is. -/
  refused : ∀ other mapping, Reachable other → (g.merge other).result = .ok mapping →
    (g.merge other).state.isProbabilistic = true ∧ other.isProbabilistic = false ∧
      other.isEmpty = false ∧ (g.merge other).state.isEmpty = false →
    (g.merge other).state.merge other = .refused (g.merge other).state .probabilityMismatch
  /-- Otherwise the merged grammar stays as it is, and the rules become what they became before. -/
  again : ∀ other mapping, Reachable other → (g.merge other).result = .ok mapping →
    ¬ ((g.merge other).state.isProbabilistic = true ∧ other.isProbabilistic = false ∧
      other.isEmpty = false ∧ (g.merge other).state.isEmpty = false) →
    (g.merge other).state.merge other = .done (g.merge other).state mapping
  /-- Merging a grammar with valid constraints into itself names each rule itself and changes nothing. -/
  self : (∀ c ∈ g.constraints, g.IsValid c) → ∃ mapping, (g.merge g).result = .ok mapping ∧
    mapping.length = g.size ∧
    (∀ r, g.isRemoved r = .ok false → mapping[r.index]? = some (some r)) ∧
    (∀ r, g.isRemoved r = .ok true → mapping[r.index]? = some none) ∧
    Unchanged g (g.merge g).state
  /-- If some constraint is no longer valid, this fails and changes nothing. -/
  stale : (∃ c ∈ g.constraints, ¬ g.IsValid c) → ∃ failure, g.merge g = .failed g failure

/-- A grammar with a constraint that is not valid cannot be merged, not even into itself. -/
theorem merge_self_of_not_valid (hc : c ∈ g.constraints) (hinvalid : ¬ g.IsValid c) :
    ∃ failure, g.merge g = .failed g failure := by
  have hchecked : ∃ failure, g.checkConstraints g.constraints = .error failure := by
    cases hresult : g.checkConstraints g.constraints with
    | error failure => exact ⟨failure, rfl⟩
    | ok _ => exact absurd (checkConstraints_eq_ok_iff.mp hresult c hc) hinvalid
  obtain ⟨failure, hfailure⟩ := hchecked
  obtain ⟨before, first, after, hsplit, hbefore, hfirst⟩ := checkConstraints_eq_error_iff.mp hfailure
  exact ⟨failure, (MergeFault.constraint (.inl rfl) hsplit hbefore hfirst).merge_eq⟩

/-- Merging is idempotent on the grammars that can come about. -/
theorem Reachable.merge_idempotent (h : Reachable g) : MergeIdempotent g where
  refused other mapping hother hmerge hmodes := by
    obtain ⟨hprobabilistic, hplain, hrows, hrows'⟩ := hmodes
    exact (MergeFault.mismatch (by simp [hprobabilistic, hplain]) hrows hrows').merge_eq
  again other mapping hother hmerge hmodes := by
    have hmerged := h.merge hother
    obtain ⟨grown, hparts⟩ := h.consistent.mergeParts hmerge
    have habsorbs := hparts.absorbs hother.distinct (hparts.agree_merge hother.distinct hmodes)
    rw [habsorbs.merge_eq hmerged.consistent hmerged.distinct, hparts.reindex_eq hmerged.consistent]
  self hvalid := by
    have hmerge := (absorbs_self hvalid).merge_eq h.consistent h.distinct
    refine ⟨g.ownNames, by rw [hmerge]; rfl, by simp [ownNames], fun r hr => ?_, fun r hr => ?_, ?_⟩
    · have hlive := isLive_of_isRemoved hr
      obtain ⟨rule, hrule⟩ := isLive_iff.mp hlive
      rw [getElem?_ownNames (index_lt_of_ruleAt? hrule), hlive, if_pos rfl]
    · obtain ⟨hlt, hgap⟩ := isRemoved_eq_ok_true_iff.mp hr
      rw [getElem?_ownNames hlt, isLive_eq_false_iff.mpr hgap]
      rfl
    · rw [hmerge]
      exact h.consistent.unchanged_reindex h.distinct
  stale hinvalid := by
    obtain ⟨c, hc, hc'⟩ := hinvalid
    exact merge_self_of_not_valid hc hc'

/-- Merging the sums again finds the one and the sum and adds nothing. A grammar without rows that has
probabilities takes the one, and refuses it from then on. -/
theorem oneOnly_merge_idempotent : Reachable oneOnly ∧ Reachable flatSums ∧
    (oneOnly.merge flatSums).result = .ok [none, some ⟨0⟩, some ⟨1⟩] ∧ MergeIdempotent oneOnly ∧
    (oneOnly.merge flatSums).state.merge flatSums =
      .done (oneOnly.merge flatSums).state [none, some ⟨0⟩, some ⟨1⟩] ∧
    MergeIdempotent emptyProbabilistic ∧
    (emptyProbabilistic.merge oneOnly).state.merge oneOnly =
      .refused (emptyProbabilistic.merge oneOnly).state .probabilityMismatch := by
  have hone : Reachable oneOnly := Reachable.empty.addRule _ _
  have hsums : Reachable flatSums := ((Reachable.empty.addRules _ _).removeRule _).addConstraint _
  have hmerge : (oneOnly.merge flatSums).result = .ok [none, some ⟨0⟩, some ⟨1⟩] := by cbv
  have hplain : oneOnly.isProbabilistic = false := by cbv
  have hrows : oneOnly.isEmpty = false := by cbv
  have hagain := hone.merge_idempotent.again _ _ hsums hmerge (by decide +kernel)
  have hempty := Reachable.emptyProbabilistic.merge_idempotent
  have hvalid : oneOnly.checkConstraints oneOnly.constraints = .ok () := by cbv
  obtain ⟨mapping, htaken⟩ :=
    Reachable.emptyProbabilistic.consistent.isOk_merge hone.consistent.toIndexed (by decide +kernel)
      hvalid
  have hrefused := hempty.refused _ _ hone htaken ⟨by decide +kernel, hplain, hrows, by decide +kernel⟩
  exact ⟨hone, hsums, hmerge, hone.merge_idempotent, hagain, hempty, hrefused⟩

end TypedGrammar.Grammar
