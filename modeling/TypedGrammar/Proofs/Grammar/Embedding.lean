import TypedGrammar.Proofs.Grammar.MergeParts

/-!
# A merge embeds the other grammar

After a merge every rule of the other grammar has an image with the same type and body, different
rules have different images, and the rules that were there before stay as they were. What is added
are the rules that were not known, in their order, with their weights. The constraints of the other
grammar come along with their rules renamed, and so do the constants whose names are free.
-/

namespace TypedGrammar.Grammar

variable {g other grown : Grammar} {r image : RuleId} {rule : Rule} {type name : String}
  {mapping : List (Option RuleId)} {k : Nat}

/-! ### Constants and constraints -/

/-- A constant that is there keeps its value; otherwise it has the one that is added. -/
theorem get?_addSymbols (table : SymbolTable) (entries : List (String × Value)) :
    (addSymbols table entries).get? name = (table.get? name).or (NameMap.lookup name entries) := by
  induction entries generalizing table with
  | nil => simp [addSymbols, NameMap.lookup]
  | cons entry rest ih =>
    obtain ⟨added, value⟩ := entry
    rw [addSymbols, ih, NameMap.lookup]
    cases hfound : table.get? added with
    | some former =>
      have hcontains : table.contains added = true := by rw [NameMap.contains, hfound]; rfl
      rw [if_pos hcontains]
      by_cases hname : name = added
      · rw [hname, hfound]
        rfl
      · rw [if_neg hname]
    | none =>
      have hcontains : table.contains added = false := by rw [NameMap.contains, hfound]; rfl
      rw [if_neg (by simp [hcontains]), NameMap.get?_insert]
      by_cases hname : name = added
      · rw [if_pos hname, if_pos hname, hname, hfound]
        rfl
      · rw [if_neg hname, if_neg hname]

/-- The constraints that are added are those that are not there yet, each of them once. -/
theorem addNewConstraints_eq (known new : List Constraint) :
    addNewConstraints known new = known ++ (new.filter fun c => !known.contains c).eraseDups := by
  induction new generalizing known with
  | nil => simp [addNewConstraints]
  | cons c rest ih =>
    rw [addNewConstraints, ih]
    by_cases hc : c ∈ known
    · simp [hc]
    · simp [hc, List.eraseDups_cons, Bool.and_comm, beq_eq_decide]

/-! ### Answers about rules -/

/-- Resolving symbols anew changes no answer about a rule but what its symbols stand for. -/
theorem answers_of_resolve {g' x : Grammar} (hr : r.index < g.size) (hr' : r.index < g'.size)
    (h : g'.ruleAt? r = (g.ruleAt? r).map x.resolve) :
    g'.body r = g.body r ∧ g'.returnType r = g.returnType r ∧ g'.isRemoved r = g.isRemoved r ∧
      g'.isImmediate r = g.isImmediate r := by
  simp only [body, returnType, isRemoved, isImmediate, live, row_of_lt hr, row_of_lt hr', h]
  cases g.ruleAt? r <;> exact ⟨rfl, rfl, rfl, rfl⟩

/-! ### Images -/

section Parts

variable (h : MergeParts g other mapping grown)

include h

/-- The mapping has an entry for each row of the other grammar. -/
theorem MergeParts.length_eq : mapping.length = other.size := by
  simpa using h.merges.becomes.length_eq.symm

/-- The mapping names what the rule of the other grammar became. -/
theorem MergeParts.becomes {entry : Option RuleId} (hentry : mapping[r.index]? = some entry) :
    r.index < other.size ∧ Becomes other grown r entry := by
  obtain ⟨hlt, rfl⟩ := List.getElem?_eq_some_iff.mp hentry
  have hr : r.index < other.size := h.length_eq ▸ hlt
  have hbecomes := h.merges.becomes.get (by simpa using hr) hlt
  simp only [List.get_eq_getElem, List.getElem_map, List.getElem_range] at hbecomes
  exact ⟨hr, hbecomes⟩

/-- A rule of the other grammar has an image with its type and body. -/
theorem MergeParts.exists_image (hr : other.ruleAt? r = some rule) :
    ∃ image, mapping[r.index]? = some (some image) := by
  have hlt : r.index < mapping.length := h.length_eq ▸ index_lt_of_ruleAt? hr
  rcases (h.becomes (List.getElem?_eq_getElem hlt)).2 with ⟨hgap, -⟩ | ⟨-, image, -, -, hentry, -⟩
  · rw [hr] at hgap
    cases hgap
  · exact ⟨image, by rw [List.getElem?_eq_getElem hlt, hentry]⟩

/-- An image is the image of a rule, and it has the type and body of this rule. -/
theorem MergeParts.of_image (himage : mapping[r.index]? = some (some image)) :
    ∃ rule rule', other.ruleAt? r = some rule ∧ (g.merge other).state.ruleAt? image = some rule' ∧
      rule'.type = rule.type ∧ rule'.body = rule.body := by
  rcases (h.becomes himage).2 with ⟨-, hnone⟩ | ⟨rule, image', rule', hr, hentry, hr', htype, hbody⟩
  · cases hnone
  · obtain rfl := Option.some.inj hentry
    obtain ⟨x, hresolve⟩ := h.exists_resolve
    exact ⟨rule, x.resolve rule', hr, by rw [hresolve, hr']; rfl, htype, hbody⟩

/-- A rule of the other grammar is not mapped when it was taken out. -/
theorem MergeParts.gap_iff :
    mapping[r.index]? = some none ↔ other.isRemoved r = .ok true := by
  rw [isRemoved_eq_ok_true_iff]
  constructor
  · intro hgap
    obtain ⟨hr, ⟨hnone, -⟩ | ⟨-, image, -, -, hentry, -⟩⟩ := h.becomes hgap
    · exact ⟨hr, hnone⟩
    · cases hentry
  · rintro ⟨hr, hnone⟩
    have hlt : r.index < mapping.length := h.length_eq ▸ hr
    rcases (h.becomes (List.getElem?_eq_getElem hlt)).2 with ⟨-, hentry⟩ | ⟨rule, -, -, hrule, -⟩
    · rw [List.getElem?_eq_getElem hlt, hentry]
    · rw [hnone] at hrule
      cases hrule

/-- Different rules have different images. -/
theorem MergeParts.injective (hother : Distinct other) {s : RuleId}
    (hr : mapping[r.index]? = some (some image)) (hs : mapping[s.index]? = some (some image)) :
    r = s := by
  obtain ⟨rule, found, hrule, hfound, htype, hbody⟩ := h.of_image hr
  obtain ⟨rule', found', hrule', hfound', htype', hbody'⟩ := h.of_image hs
  obtain rfl := Option.some.inj (hfound.symm.trans hfound')
  exact hother r s rule rule' hrule hrule' (htype.symm.trans htype') (hbody.symm.trans hbody')

/-- A merge knows what either grammar knows. -/
theorem MergeParts.knows_iff {type : String} {body : Expr} :
    Knows (g.merge other).state type body ↔ Knows g type body ∨ Knows other type body := by
  obtain ⟨x, hresolve⟩ := h.exists_resolve
  have hgrown : Knows (g.merge other).state type body ↔ Knows grown type body := by
    simp only [Knows, hresolve, Option.map_eq_some_iff, exists_exists_and_eq_and]
    rfl
  have hstart : Knows (g.mergeStart other) type body ↔ Knows g type body := by
    simp only [Knows, ruleAt?_mergeStart]
  have hpositions : (∃ r ∈ (List.range other.size).map RuleId.mk, ∃ rule,
      other.ruleAt? r = some rule ∧ rule.type = type ∧ rule.body = body) ↔ Knows other type body := by
    constructor
    · rintro ⟨r, -, rule, hr⟩
      exact ⟨r, rule, hr⟩
    · rintro ⟨r, rule, hr, hrule⟩
      exact ⟨r, List.mem_map.mpr ⟨r.index, List.mem_range.mpr (index_lt_of_ruleAt? hr), rfl⟩,
        rule, hr, hrule⟩
  rw [hgrown, h.merges.knows_iff, hstart, hpositions]

/-! ### New rules -/

/-- Behind the former rules and the new ones before it stands a new rule, as it is in the other
grammar but for what its symbols stand for. -/
theorem MergeParts.ruleAt?_merge_new (hother : Distinct other)
    (hk : (g.newRules other)[k]? = some r) : ∃ rule x, other.ruleAt? r = some rule ∧
      (g.merge other).state.ruleAt? ⟨g.size + k⟩ = some (resolve x (bare rule)) := by
  have hmem : r ∈ g.newRules other := List.mem_of_getElem? hk
  obtain ⟨x, hresolve⟩ := h.exists_resolve
  cases hr : other.ruleAt? r with
  | none =>
    rw [newRules, List.mem_filter, isNew_of_gap hr] at hmem
    exact absurd hmem.2 Bool.false_ne_true
  | some rule =>
    refine ⟨rule, x, rfl, ?_⟩
    rw [hresolve, h.ruleAt?_new hother hk, hr]
    rfl

/-- A new rule becomes the one behind the former rules and the new ones before it. -/
theorem MergeParts.image_new (hother : Distinct other) (hmerged : Distinct (g.merge other).state)
    (hk : (g.newRules other)[k]? = some r) :
    mapping[r.index]? = some (some ⟨g.size + k⟩) := by
  obtain ⟨rule, x, hr, hnew⟩ := h.ruleAt?_merge_new hother hk
  obtain ⟨image, himage⟩ := h.exists_image hr
  obtain ⟨rule', found, hr', hfound, htype, hbody⟩ := h.of_image himage
  obtain rfl := Option.some.inj (hr.symm.trans hr')
  rw [himage, hmerged image ⟨g.size + k⟩ found _ hfound hnew htype hbody]

/-- The table is longer by the new rules. -/
theorem MergeParts.size_merge (hother : Distinct other) :
    (g.merge other).state.size = g.size + (g.newRules other).length := by
  rw [← h.size_eq hother, h.state_eq, state_mergeWeighted]
  exact Array.size_map ..

/-- The former rules keep what is known about them. -/
theorem MergeParts.former_answers (hother : Distinct other) (hr : r.index < g.size) :
    (g.merge other).state.body r = g.body r ∧
      (g.merge other).state.returnType r = g.returnType r ∧
      (g.merge other).state.isRemoved r = g.isRemoved r ∧
      (g.merge other).state.isImmediate r = g.isImmediate r := by
  obtain ⟨x, hresolve⟩ := h.exists_resolve
  refine answers_of_resolve (x := x) hr ?_ ?_
  · rw [h.size_merge hother]
    omega
  · rw [hresolve, h.ruleAt?_former hother hr]

/-! ### Weights -/

/-- Unless weights are assumed, a merge leaves those of the grown table. -/
theorem MergeParts.weights_grown
    (hplain : (g.isEmpty && (g.mergeStart other).isProbabilistic && !other.isProbabilistic) = false) :
    (g.merge other).state.weights = grown.weights := by
  have hsettled : (g.mergeWeighted other grown).state.weights = grown.weights := by
    rw [mergeWeighted, hplain]
    rfl
  rw [h.state_eq]
  exact hsettled

/-- The former rules keep their weights. -/
theorem MergeParts.storedWeight?_former (hg : Consistent g) (hother : Distinct other)
    (hr : r.index < g.size) : (g.merge other).state.storedWeight? r = g.storedWeight? r := by
  have hfilled := isEmpty_eq_false_of_lt hr
  have hstart : g.mergeStart other = g := by simp [mergeStart, hfilled]
  rw [storedWeight?, h.weights_grown (by simp [hfilled]), h.weights_eq hother, hstart, storedWeight?]
  cases hws : g.weights with
  | none => rfl
  | some ws =>
    have hlt : r.index < ws.size := hg.weights_size ws hws ▸ hr
    simp [Array.getElem?_append_left hlt]

/-- Rules with weights are appended to a grammar with weights. -/
theorem MergeParts.isProbabilistic_mergeStart (hprobabilistic : other.isProbabilistic = true)
    (hr : r.index < other.size) : (g.mergeStart other).isProbabilistic = true := by
  have hfilled := isEmpty_eq_false_of_lt hr
  cases hg : g.isProbabilistic with
  | true => simp [mergeStart, hg]
  | false =>
    have hempty : g.isEmpty = true := by simpa [hg, hprobabilistic, hfilled] using h.agree
    simp [mergeStart, hg, hempty, hprobabilistic]
    rfl

/-- The rules of a probabilistic grammar come with their weights. -/
theorem MergeParts.storedWeight?_new (hg : Consistent g) (hindexed : Indexed other)
    (hother : Distinct other) (hprobabilistic : other.isProbabilistic = true)
    (hk : (g.newRules other)[k]? = some r) :
    ∃ w, other.storedWeight? r = some w ∧
      (g.merge other).state.storedWeight? ⟨g.size + k⟩ = some w := by
  obtain ⟨rule, -, hr, -⟩ := h.ruleAt?_merge_new hother hk
  have hlt := index_lt_of_ruleAt? hr
  obtain ⟨w, hw⟩ : ∃ w, other.storedWeight? r = some w := by
    obtain ⟨ws, hws⟩ := Option.isSome_iff_exists.mp hprobabilistic
    have hin : r.index < ws.size := hindexed.weights_size ws hws ▸ hlt
    exact ⟨ws[r.index], by rw [storedWeight?, hws]; exact Array.getElem?_eq_getElem hin⟩
  obtain ⟨start, hstart⟩ :=
    Option.isSome_iff_exists.mp (h.isProbabilistic_mergeStart hprobabilistic hlt)
  have hsize : start.size = g.size := by
    rw [(hg.mergeStart other).weights_size start hstart, size, rows_mergeStart, size]
  refine ⟨w, hw, ?_⟩
  rw [storedWeight?, h.weights_grown (by simp [hprobabilistic]), h.weights_eq hother, hstart]
  simp [hsize, Array.getElem?_append_right, hk, hw]

/-- In a grammar without rows that has probabilities, rules without any get the uniform ones. -/
theorem MergeParts.storedWeight?_uniform (hg : Consistent g) (hother : Distinct other)
    (hempty : g.isEmpty = true) (hprobabilistic : g.isProbabilistic = true)
    (hplain : other.isProbabilistic = false) (hk : (g.newRules other)[k]? = some r)
    (hr : other.returnType r = .ok type) :
    ∃ rules, (g.merge other).state.rulesOfType type = .ok rules ∧
      (g.merge other).state.storedWeight? ⟨g.size + k⟩ = some (uniformLog rules.length) := by
  have huniform :
      (g.isEmpty && (g.mergeStart other).isProbabilistic && !other.isProbabilistic) = true := by
    simp [mergeStart, hempty, hprobabilistic, hplain]
  have hweighted : g.mergeWeighted other grown = (grown.mergeIndexed other).initUniform := by
    rw [mergeWeighted, if_pos huniform]
  have hsettled := hweighted ▸ h.weighted
  have hindexed := (h.merges.indexed (hg.mergeStart other).toIndexed).mergeIndexed other
  obtain ⟨rule, hrule, rfl⟩ := returnType_eq_ok_iff.mp hr
  obtain ⟨x, hresolve⟩ := exists_resolve_mergeIndexed grown other
  have hnew : (grown.mergeIndexed other).ruleAt? ⟨g.size + k⟩ = some (x.resolve (bare rule)) := by
    rw [hresolve, h.ruleAt?_new hother hk, hrule]
    rfl
  obtain ⟨entry, hentry⟩ := Option.isSome_iff_exists.mp (hindexed.hasType_of_ruleAt? hnew)
  have hweight := hindexed.storedWeight?_initUniform hsettled hnew
  rw [listed_of_get? hentry] at hweight
  refine ⟨entry.rules, ?_, ?_⟩
  · have htypes : (g.merge other).state.types = (grown.mergeIndexed other).types := by
      rw [h.state_eq, state_mergeWeighted]
    rw [rulesOfType, typeEntry, htypes, show (grown.mergeIndexed other).types.get? rule.type =
      some entry from hentry]
    rfl
  · have hstored : (g.merge other).state.weights =
        (grown.mergeIndexed other).initUniform.state.weights := by
      rw [h.state_eq, hweighted]
    rw [storedWeight?, hstored]
    exact hweight

/-! ### Constraints and constants after a merge -/

/-- The start and the steps of a merge have the constraints and the constants of the first grammar. -/
theorem MergeParts.grown_rest : grown.symbols = g.symbols ∧ grown.constraints = g.constraints := by
  have hstart : (g.mergeStart other).symbols = g.symbols ∧
      (g.mergeStart other).constraints = g.constraints := by
    unfold mergeStart
    split <;> exact ⟨rfl, rfl⟩
  obtain ⟨hsymbols, hconstraints⟩ := h.merges.same_rest
  exact ⟨hsymbols.trans hstart.1, hconstraints.trans hstart.2⟩

/-- The renamed constraints of the other grammar come behind those that were there, each that was not there
once. -/
theorem MergeParts.constraints_merge : (g.merge other).state.constraints = g.constraints ++
    ((other.constraints.map (Constraint.mapRules (renamed mapping))).filter fun c =>
      !g.constraints.contains c).eraseDups := by
  rw [← addNewConstraints_eq, h.state_eq, state_mergeWeighted, ← h.grown_rest.2]
  rfl

/-- A constant of the other grammar is taken over where this one has none of its name. -/
theorem MergeParts.constant_merge (name : String) : (g.merge other).state.symbols.constant name =
    (g.symbols.constant name).or (other.symbols.constant name) := by
  rw [h.state_eq, state_mergeWeighted, ← h.grown_rest.1]
  exact get?_addSymbols grown.symbols other.symbols.entries

/-- The mapping names what a rule of the other grammar is renamed to. -/
theorem MergeParts.getElem?_mapping (hr : other.isLive r = true) :
    mapping[r.index]? = some (some (renamed mapping r)) := by
  obtain ⟨rule, hrule⟩ := isLive_iff.mp hr
  obtain ⟨image, himage⟩ := h.exists_image hrule
  rw [renamed, himage]
  rfl

/-- The rules in the constraints of the other grammar were not taken out. -/
theorem MergeParts.isLive_of_constraint {c : Constraint} (hc : c ∈ other.constraints)
    (hr : r ∈ c.rules) : other.isLive r = true :=
  isLive_iff.mpr (exists_rule_of_checkConstraints h.checked c hc r hr)

/-- Renaming sends the rules of the constraints through the mapping. -/
theorem MergeParts.renamed_image {c : Constraint} (hc : c ∈ other.constraints) (hr : r ∈ c.rules) :
    mapping[r.index]? = some (some (renamed mapping r)) :=
  h.getElem?_mapping (h.isLive_of_constraint hc hr)

/-- The constraints that are added mention rules that were not taken out. -/
theorem MergeParts.appended_live {c : Constraint}
    (hc : c ∈ (g.merge other).state.constraints.drop g.constraints.length) (hr : r ∈ c.rules) :
    (g.merge other).state.isRemoved r = .ok false := by
  rw [h.constraints_merge, List.drop_left, List.mem_eraseDups, List.mem_filter] at hc
  obtain ⟨former, hformer, rfl⟩ := List.mem_map.mp hc.1
  rw [Constraint.rules_mapRules] at hr
  obtain ⟨s, hs, rfl⟩ := List.mem_map.mp hr
  obtain ⟨-, rule, -, hrule, -⟩ := h.of_image (h.renamed_image hformer hs)
  exact isRemoved_of_ruleAt? hrule

end Parts

/-! ### The embedding -/

/-- The second grammar is embedded in a merged one by a mapping, and the first one is still there. -/
structure Embeds (g other merged : Grammar) (mapping : List (Option RuleId)) : Prop where
  /-- The mapping has an entry for each row of the other grammar. -/
  length_eq : mapping.length = other.size
  /-- The rows without an image are those that were taken out. -/
  gap_iff : ∀ r : RuleId, mapping[r.index]? = some none ↔ other.isRemoved r = .ok true
  /-- Different rules have different images. -/
  injective : ∀ r s image : RuleId, mapping[r.index]? = some (some image) →
    mapping[s.index]? = some (some image) → r = s
  /-- An image has the type and the body of its rule. -/
  image_answers : ∀ r image : RuleId, mapping[r.index]? = some (some image) → ∃ type body,
    other.returnType r = .ok type ∧ other.body r = .ok body ∧
      merged.returnType image = .ok type ∧ merged.body image = .ok body
  /-- The former rules, gaps included, keep what is known about them. -/
  former_answers : ∀ r : RuleId, r.index < g.size →
    merged.body r = g.body r ∧ merged.returnType r = g.returnType r ∧
      merged.isRemoved r = g.isRemoved r ∧ merged.isImmediate r = g.isImmediate r ∧
      merged.storedWeight? r = g.storedWeight? r
  /-- What is added are the new rules. -/
  size_eq : merged.size = g.size + (g.newRules other).length
  /-- The new rules are added in order, and each stays immediate or ordinary. -/
  image_new : ∀ k r, (g.newRules other)[k]? = some r →
    mapping[r.index]? = some (some ⟨g.size + k⟩) ∧
      merged.isImmediate ⟨g.size + k⟩ = other.isImmediate r
  /-- A new rule that has a weight comes with it. -/
  weight_new : other.isProbabilistic = true → ∀ k r, (g.newRules other)[k]? = some r →
    ∃ w, other.storedWeight? r = some w ∧ merged.storedWeight? ⟨g.size + k⟩ = some w
  /-- A new rule without a weight gets the uniform one of its type. -/
  weight_uniform : g.isEmpty = true → g.isProbabilistic = true → other.isProbabilistic = false →
    ∀ k r type, (g.newRules other)[k]? = some r → other.returnType r = .ok type →
      ∃ rules, merged.rulesOfType type = .ok rules ∧
        merged.storedWeight? ⟨g.size + k⟩ = some (uniformLog rules.length)
  /-- The types and bodies are those of both grammars. -/
  knows_iff : ∀ type body, Knows merged type body ↔ Knows g type body ∨ Knows other type body
  /-- Both grammars are contained in the merged one. -/
  contained : g.containedIn merged = .ok true ∧ other.containedIn merged = .ok true
  /-- The constraints of the other grammar come behind the former ones with their rules renamed, save
  for those that are there already. -/
  constraints_eq : merged.constraints = g.constraints ++
    ((other.constraints.map (Constraint.mapRules (renamed mapping))).filter fun c =>
      !g.constraints.contains c).eraseDups
  /-- Renaming sends the rules of these constraints through the mapping. -/
  renamed_image : ∀ c ∈ other.constraints, ∀ r ∈ c.rules,
    mapping[r.index]? = some (some (renamed mapping r))
  /-- The constraints that are added mention rules that were not taken out. -/
  appended_live : ∀ c ∈ merged.constraints.drop g.constraints.length, ∀ r ∈ c.rules,
    merged.isRemoved r = .ok false
  /-- A constant keeps its value if it has one, and otherwise takes that of the other grammar. -/
  constant_eq : ∀ name, merged.symbols.constant name =
    (g.symbols.constant name).or (other.symbols.constant name)

/-- A merge of grammars that can come about that succeeds embeds the other grammar. -/
theorem Reachable.merge_embeds (h : Reachable g) (hother : Reachable other)
    (hmerge : (g.merge other).result = .ok mapping) :
    Embeds g other (g.merge other).state mapping := by
  have hmerged := h.merge hother
  have hdistinct := hother.distinct
  obtain ⟨grown, hparts⟩ := h.consistent.mergeParts hmerge
  exact {
    length_eq := hparts.length_eq
    gap_iff := fun _ => hparts.gap_iff
    injective := fun _ _ _ => hparts.injective hdistinct
    image_answers := fun r image himage => by
      obtain ⟨rule, rule', hr, hr', htype, hbody⟩ := hparts.of_image himage
      exact ⟨rule.type, rule.body, returnType_eq_ok_iff.mpr ⟨rule, hr, rfl⟩,
        body_of_ruleAt? hr, returnType_eq_ok_iff.mpr ⟨rule', hr', htype⟩,
        body_eq_ok_iff.mpr ⟨rule', hr', hbody⟩⟩
    former_answers := fun r hr => by
      obtain ⟨hbody, htype, hremoved, himmediate⟩ := hparts.former_answers hdistinct hr
      exact ⟨hbody, htype, hremoved, himmediate,
        hparts.storedWeight?_former h.consistent hdistinct hr⟩
    size_eq := hparts.size_merge hdistinct
    image_new := fun k r hk => by
      obtain ⟨rule, x, hr, hnew⟩ := hparts.ruleAt?_merge_new hdistinct hk
      refine ⟨hparts.image_new hdistinct hmerged.distinct hk, ?_⟩
      rw [isImmediate_of_ruleAt? hr, isImmediate_of_ruleAt? hnew]
      rfl
    weight_new := fun hprobabilistic _ _ hk =>
      hparts.storedWeight?_new h.consistent hother.consistent.toIndexed hdistinct hprobabilistic hk
    weight_uniform := fun hempty hprobabilistic hplain _ _ _ hk hr =>
      hparts.storedWeight?_uniform h.consistent hdistinct hempty hprobabilistic hplain hk hr
    knows_iff := fun _ _ => hparts.knows_iff
    contained :=
      ⟨hmerged.consistent.toIndexed.containedIn_eq_true fun _ _ hknown =>
          hparts.knows_iff.mpr (.inl hknown),
        hmerged.consistent.toIndexed.containedIn_eq_true fun _ _ hknown =>
          hparts.knows_iff.mpr (.inr hknown)⟩
    constraints_eq := hparts.constraints_merge
    renamed_image := fun _ hc _ hr => hparts.renamed_image hc hr
    appended_live := fun _ hc _ hr => hparts.appended_live hc hr
    constant_eq := hparts.constant_merge }

/-- The number one. -/
def oneOnly : Grammar := (empty.addRule "N" (.lit (.int 1))).state

/-- Sums of ones where a two was taken out, without sums in sums. -/
def flatSums : Grammar :=
  (((empty.addRules "N" [.lit (.int 2), .lit (.int 1), .call "+" [.sym "N", .sym "N"]]).state.removeRule
    ⟨0⟩).state.addConstraint (.forbidden [⟨2⟩, ⟨2⟩])).state

/-- The one is known, the two is gone, and the sum is added, with the constraint on it. -/
theorem oneOnly_merge_embeds : Reachable oneOnly ∧ Reachable flatSums ∧
    (oneOnly.merge flatSums).result = .ok [none, some ⟨0⟩, some ⟨1⟩] ∧
    Embeds oneOnly flatSums (oneOnly.merge flatSums).state [none, some ⟨0⟩, some ⟨1⟩] ∧
    (oneOnly.merge flatSums).state.constraints = [.forbidden [⟨1⟩, ⟨1⟩]] := by
  have hone : Reachable oneOnly := Reachable.empty.addRule _ _
  have hsums : Reachable flatSums := ((Reachable.empty.addRules _ _).removeRule _).addConstraint _
  have hmerge : (oneOnly.merge flatSums).result = .ok [none, some ⟨0⟩, some ⟨1⟩] := by cbv
  have hconstraints : (oneOnly.merge flatSums).state.constraints = [.forbidden [⟨1⟩, ⟨1⟩]] := by cbv
  exact ⟨hone, hsums, hmerge, hone.merge_embeds hsums hmerge, hconstraints⟩

end TypedGrammar.Grammar
