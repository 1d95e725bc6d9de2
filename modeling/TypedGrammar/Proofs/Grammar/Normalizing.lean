import TypedGrammar.Proofs.Grammar.Answers
import TypedGrammar.Proofs.Grammar.Success
import TypedGrammar.Proofs.Grammar.UniformWeights
import TypedGrammar.Proofs.NameOrder

/-!
# Scaling the weights of each type

The weights of all types stand in one array, and it is scaled in place, one type after the other in the
order of their names. The total of a type is computed from what the array holds when its turn comes.
No two types share a rule, so that is what the array held from the start; and no type lists a rule twice,
so each weight is lowered once, by the total of the type of its rule.
-/

namespace TypedGrammar.Grammar

variable {g : Grammar} {r : RuleId} {type : String} {weights ws : Array Float} {z : Float}
  {rules : List RuleId} {entries : List (String × TypeEntry)} {notices : List Notice}

/-! ### One type -/

/-- The weights stored for the rules of a list, in its order. -/
def weightsOf (weights : Array Float) (rules : List RuleId) : List Float :=
  rules.filterMap fun r => weights[r.index]?

/-- The logarithm of the sum of what the weights of the rules of a list stand for. -/
def totalWeight (weights : Array Float) (rules : List RuleId) : Float :=
  logSumExp (weightsOf weights rules)

/-- What scaling makes of the weight of a rule among those of its type. -/
def scaledWeight (weights : Array Float) (rules : List RuleId) (w : Float) : Float :=
  if (totalWeight weights rules).isFinite then w - totalWeight weights rules else w

/-- Weights that agree on the rules of a list have the same total there. -/
theorem totalWeight_congr (h : ∀ r ∈ rules, ws[r.index]? = weights[r.index]?) :
    totalWeight ws rules = totalWeight weights rules := by
  rw [totalWeight, totalWeight, weightsOf, weightsOf, List.filterMap_congr h]

/-- There is a weight to be read for each of the rules. -/
theorem mapM_weightAt (h : Weighed weights rules) :
    rules.mapM (weightAt weights) = .ok (weightsOf weights rules) := by
  induction rules with
  | nil => rfl
  | cons r rest ih =>
    obtain ⟨hr, hrest⟩ := List.forall_mem_cons.mp h
    rw [List.mapM_cons, weightAt, weightsOf, List.filterMap_cons, Array.getElem?_eq_getElem hr,
      ok_bind, ih hrest]
    rfl

/-- Lowering the weights of rules that are listed once lowers each of them once and no other. -/
theorem getElem?_lowerWeights (hnodup : rules.Nodup) (h : lowerWeights z weights rules = .ok ws)
    (s : RuleId) : ws[s.index]? =
      if s ∈ rules then weights[s.index]?.map (· - z) else weights[s.index]? := by
  induction rules generalizing weights with
  | nil =>
    cases h
    simp
  | cons r rest ih =>
    obtain ⟨hr, hrest⟩ := List.nodup_cons.mp hnodup
    obtain ⟨w, hw, h⟩ := bind_eq_ok.mp h
    obtain ⟨lowered, hlowered, h⟩ := bind_eq_ok.mp h
    rw [ih hrest h, getElem?_setWeight hlowered]
    by_cases hsame : s = r
    · have hstored : weights[r.index]? = some w := weightAt_eq_ok_iff.mp hw
      rw [hsame, if_neg hr, if_pos rfl, if_pos List.mem_cons_self, hstored, Option.map_some]
    · simp [hsame]

/-- The weights of a type are scaled by their total, and nothing else is. A type whose total is no finite
number is left alone, with a notice. -/
theorem of_normalizeType {entry : TypeEntry} (hnodup : entry.rules.Nodup)
    (hweighed : Weighed weights entry.rules)
    (h : normalizeType type entry weights = .ok (ws, notices)) :
    (∀ s : RuleId, ws[s.index]? = if s ∈ entry.rules then
        weights[s.index]?.map (scaledWeight weights entry.rules) else weights[s.index]?) ∧
      notices = if (totalWeight weights entry.rules).isFinite then [] else [.zeroTotal type] := by
  rw [normalizeType, mapM_weightAt hweighed, ok_bind] at h
  dsimp only at h
  change (if (totalWeight weights entry.rules).isFinite then _ else _) = _ at h
  split at h
  · rename_i hfinite
    obtain ⟨lowered, hlowered, h⟩ := bind_eq_ok.mp h
    cases h
    refine ⟨fun s => ?_, (if_pos hfinite).symm⟩
    rw [getElem?_lowerWeights hnodup hlowered]
    have hscaled : scaledWeight weights entry.rules = (· - totalWeight weights entry.rules) := by
      funext w
      exact if_pos hfinite
    rw [hscaled]
    rfl
  · rename_i hfinite
    cases h
    refine ⟨fun s => ?_, (if_neg hfinite).symm⟩
    have hkept : scaledWeight weights entry.rules = id := by
      funext w
      exact if_neg hfinite
    rw [hkept, Option.map_id, id, ite_self]

/-! ### The types in turn -/

/-- Each rule that a type lists has a weight, and no rule is listed twice, neither by one type nor by
two. -/
structure SharesOut (weights : Array Float) (entries : List (String × TypeEntry)) : Prop where
  weighed : ∀ entry ∈ entries, Weighed weights entry.2.rules
  nodup : ∀ entry ∈ entries, entry.2.rules.Nodup
  disjoint : entries.Pairwise fun a b => ∀ r ∈ a.2.rules, r ∉ b.2.rules

/-- The types behind the first share out any weights for the same rows. -/
theorem SharesOut.tail {first : String × TypeEntry} (h : SharesOut weights (first :: entries))
    (hsize : ws.size = weights.size) : SharesOut ws entries where
  weighed entry hentry r hr := hsize ▸ h.weighed entry (List.mem_cons_of_mem _ hentry) r hr
  nodup entry hentry := h.nodup entry (List.mem_cons_of_mem _ hentry)
  disjoint := (List.pairwise_cons.mp h.disjoint).2

/-- The first type is scaled, and then the others are. -/
theorem SharesOut.of_normalizeTypes_cons {first : String × TypeEntry}
    (hshares : SharesOut weights (first :: entries))
    (h : normalizeTypes weights (first :: entries) = .ok (ws, notices)) :
    ∃ scaled later, SharesOut scaled entries ∧ normalizeTypes scaled entries = .ok (ws, later) ∧
      (∀ s : RuleId, scaled[s.index]? = if s ∈ first.2.rules then
        weights[s.index]?.map (scaledWeight weights first.2.rules) else weights[s.index]?) ∧
      notices = (if (totalWeight weights first.2.rules).isFinite then [] else [.zeroTotal first.1]) ++
        later := by
  obtain ⟨⟨scaled, notice⟩, hfirst, h⟩ := bind_eq_ok.mp h
  obtain ⟨⟨final, later⟩, hrest, h⟩ := bind_eq_ok.mp h
  cases h
  obtain ⟨hscaled, hnotice⟩ := of_normalizeType (hshares.nodup first List.mem_cons_self)
    (hshares.weighed first List.mem_cons_self) hfirst
  exact ⟨scaled, later, hshares.tail (size_normalizeType hfirst), hrest, hscaled, by rw [← hnotice]⟩

/-- Rules that no type lists keep their weights. -/
theorem SharesOut.getElem?_of_notMem (hshares : SharesOut weights entries)
    (h : normalizeTypes weights entries = .ok (ws, notices)) {s : RuleId}
    (hs : ∀ entry ∈ entries, s ∉ entry.2.rules) : ws[s.index]? = weights[s.index]? := by
  induction entries generalizing weights notices with
  | nil =>
    cases h
    rfl
  | cons first rest ih =>
    obtain ⟨scaled, later, hrest, hlater, hscaled, -⟩ := hshares.of_normalizeTypes_cons h
    obtain ⟨hsFirst, hsRest⟩ := List.forall_mem_cons.mp hs
    rw [ih hrest hlater hsRest, hscaled, if_neg hsFirst]

/-- Scaling one type leaves the totals of the others. -/
theorem SharesOut.totalWeight_rest {first : String × TypeEntry} {scaled : Array Float}
    (hshares : SharesOut weights (first :: entries))
    (hscaled : ∀ s : RuleId, scaled[s.index]? = if s ∈ first.2.rules then
      weights[s.index]?.map (scaledWeight weights first.2.rules) else weights[s.index]?)
    {entry : String × TypeEntry} (hentry : entry ∈ entries) :
    totalWeight scaled entry.2.rules = totalWeight weights entry.2.rules := by
  refine totalWeight_congr fun r hr => ?_
  have hother : r ∉ first.2.rules := fun hfirst =>
    (List.pairwise_cons.mp hshares.disjoint).1 entry hentry r hfirst hr
  rw [hscaled, if_neg hother]

/-- The weight of a rule is scaled by the total that its type had from the start. The total of a type that
comes later is read from weights that are partly scaled already, though not those of its own rules. -/
theorem SharesOut.getElem?_of_mem (hshares : SharesOut weights entries)
    (h : normalizeTypes weights entries = .ok (ws, notices)) {entry : String × TypeEntry}
    (hentry : entry ∈ entries) {s : RuleId} (hs : s ∈ entry.2.rules) :
    ws[s.index]? = weights[s.index]?.map (scaledWeight weights entry.2.rules) := by
  induction entries generalizing weights notices with
  | nil => cases hentry
  | cons first rest ih =>
    obtain ⟨scaled, later, hrest, hlater, hscaled, -⟩ := hshares.of_normalizeTypes_cons h
    have hfirst := (List.pairwise_cons.mp hshares.disjoint).1
    rcases List.mem_cons.mp hentry with rfl | hentry
    · rw [hrest.getElem?_of_notMem hlater fun other hother => hfirst other hother s hs, hscaled,
        if_pos hs]
    · have hother : s ∉ first.2.rules := fun hsFirst => hfirst entry hentry s hsFirst hs
      have hfactor : scaledWeight scaled entry.2.rules = scaledWeight weights entry.2.rules := by
        funext w
        rw [scaledWeight, scaledWeight, hshares.totalWeight_rest hscaled hentry]
      rw [ih hrest hlater hentry, hscaled, if_neg hother, hfactor]

/-- The types that are left alone are those whose total is no finite number, in their order. -/
theorem SharesOut.notices_eq (hshares : SharesOut weights entries)
    (h : normalizeTypes weights entries = .ok (ws, notices)) :
    notices = (entries.filter fun entry => !(totalWeight weights entry.2.rules).isFinite).map
      fun entry => .zeroTotal entry.1 := by
  induction entries generalizing weights notices with
  | nil =>
    cases h
    rfl
  | cons first rest ih =>
    obtain ⟨scaled, later, hrest, hlater, hscaled, rfl⟩ := hshares.of_normalizeTypes_cons h
    have hsame : (rest.filter fun entry => !(totalWeight scaled entry.2.rules).isFinite) =
        rest.filter fun entry => !(totalWeight weights entry.2.rules).isFinite :=
      List.filter_congr fun entry hentry => by rw [hshares.totalWeight_rest hscaled hentry]
    rw [ih hrest hlater, hsame]
    cases hfinite : (totalWeight weights first.2.rules).isFinite <;> simp [hfinite]

/-- The types of a fitting index share out the weights of the rows. -/
theorem Indexed.sharesOut (hg : Indexed g) (hweights : g.weights = some weights) :
    SharesOut weights g.types.entries where
  weighed _ hentry := hg.weighed (hg.weights_size weights hweights) hentry
  nodup entry hentry := by
    have hascending := hg.lists.ascending entry.1
    rw [listed_of_get? (NameMap.get?_eq_some_iff.mpr hentry)] at hascending
    refine hascending.imp fun {r s} hlt heq => ?_
    exact Nat.lt_irrefl r.index (heq ▸ hlt)
  disjoint := hg.entries_disjoint

/-! ### All types -/

/-- The logarithm of the sum of what the weights stored for the rules of a type stand for. -/
def typeTotal (g : Grammar) (type : String) : Float :=
  logSumExp ((listed g.types type).filterMap g.storedWeight?)

/-- Scaling divides the probability of each rule by the total of its type before anything was scaled,
tells of the types where this cannot be done, and changes nothing else. -/
structure Normalizes (g : Grammar) : Prop where
  /-- Scaling succeeds. -/
  result : g.normalize.result = .ok ()
  /-- A grammar without probabilities stays as it is, and there is nothing to tell. -/
  plain : g.isProbabilistic = false → g.normalize = .done g ()
  /-- Nothing but the weights changes. -/
  others : g.normalize.state = { g with weights := g.normalize.state.weights }
  /-- There are still as many weights. -/
  weights_size : ∀ ws, g.weights = some ws →
    ∃ scaled, g.normalize.state.weights = some scaled ∧ scaled.size = ws.size
  /-- The total of a type is that of the weights of its rules, in the order of their names. -/
  total : g.isProbabilistic = true → ∀ type rules, g.rulesOfType type = .ok rules →
    rules.Pairwise (· < ·) ∧
      ∃ ws, rules.map g.storedWeight? = ws.map some ∧ g.typeTotal type = logSumExp ws
  /-- The weight of a rule is lowered by the total of its type if that is a finite number. -/
  scaled : g.isProbabilistic = true → ∀ r type, g.returnType r = .ok type →
    (g.typeTotal type).isFinite = true →
      ∃ w, g.storedWeight? r = some w ∧
        g.normalize.state.storedWeight? r = some (w - g.typeTotal type)
  /-- Otherwise the weight stays. -/
  unscaled : ∀ r type, g.returnType r = .ok type → (g.typeTotal type).isFinite = false →
    g.normalize.state.storedWeight? r = g.storedWeight? r
  /-- The weight of a rule that was taken out stays. -/
  removed : ∀ r, g.isRemoved r = .ok true →
    g.normalize.state.storedWeight? r = g.storedWeight? r
  /-- The types whose total is no finite number are told of, in the order in which they are listed. -/
  notices : g.isProbabilistic = true → g.normalize.notices =
    (g.typeNames.filter fun type => !(g.typeTotal type).isFinite).map .zeroTotal
  /-- The types are listed in the order of the bytes of their names. -/
  order : g.typeNames.Pairwise fun a b => bytesOf a < bytesOf b

/-- The total of a type with the weights of a probabilistic grammar. -/
theorem typeTotal_eq (hweights : g.weights = some weights) {entry : String × TypeEntry}
    (hentry : entry ∈ g.types.entries) :
    g.typeTotal entry.1 = totalWeight weights entry.2.rules := by
  have hstored : g.storedWeight? = fun r : RuleId => weights[r.index]? := by
    funext r
    rw [storedWeight?, hweights]
    rfl
  rw [typeTotal, listed_of_get? (NameMap.get?_eq_some_iff.mpr hentry), hstored]
  rfl

/-- A question that is answered for each entry of a list has the list of the answers. -/
theorem map_eq_map_filterMap {α β : Type} {f : α → Option β} {list : List α}
    (h : ∀ a ∈ list, ∃ b, f a = some b) : list.map f = (list.filterMap f).map some := by
  induction list with
  | nil => rfl
  | cons a rest ih =>
    obtain ⟨⟨b, hb⟩, hrest⟩ := List.forall_mem_cons.mp h
    rw [List.map_cons, ih hrest, List.filterMap_cons_some hb, List.map_cons, hb]

/-- The rules of a probabilistic grammar have weights. -/
theorem Indexed.storedWeight?_eq (hg : Indexed g) (hweights : g.weights = some weights)
    (hr : r.index < g.size) : ∃ w, g.storedWeight? r = some w := by
  have hlt : r.index < weights.size := (hg.weights_size weights hweights).symm ▸ hr
  rw [storedWeight?, hweights]
  exact ⟨_, Array.getElem?_eq_getElem hlt⟩

/-- Scaling a grammar with a fitting index gives the weights of each type their final form. -/
theorem Indexed.of_normalize (hg : Indexed g) (hweights : g.weights = some weights) :
    ∃ scaled, g.normalize =
        ⟨{ g with weights := some scaled }, .ok (),
          (g.typeNames.filter fun type => !(g.typeTotal type).isFinite).map .zeroTotal⟩ ∧
      scaled.size = weights.size ∧
      (∀ r type, g.returnType r = .ok type → scaled[r.index]? = weights[r.index]?.map fun w =>
        if (g.typeTotal type).isFinite then w - g.typeTotal type else w) ∧
      ∀ r, g.isRemoved r = .ok true → scaled[r.index]? = weights[r.index]? := by
  have hshares := hg.sharesOut hweights
  obtain ⟨⟨scaled, notices⟩, hscaled⟩ := isOk_normalizeTypes hshares.weighed
  refine ⟨scaled, ?_, size_normalizeTypes hscaled, fun r type htype => ?_, fun r hr => ?_⟩
  · have htotals : (g.types.entries.filter fun entry =>
        !(totalWeight weights entry.2.rules).isFinite) =
        g.types.entries.filter fun entry => !(g.typeTotal entry.1).isFinite :=
      List.filter_congr fun entry hentry => by rw [typeTotal_eq hweights hentry]
    have hnotices : notices =
        (g.typeNames.filter fun type => !(g.typeTotal type).isFinite).map .zeroTotal := by
      rw [hshares.notices_eq hscaled, htotals, typeNames, NameMap.keys, List.filter_map, List.map_map]
      rfl
    rw [normalize, hweights]
    dsimp only
    rw [hscaled, hnotices]
  · obtain ⟨rule, hrule, rfl⟩ := returnType_eq_ok_iff.mp htype
    obtain ⟨entry, hentry⟩ := Option.isSome_iff_exists.mp (hg.hasType_of_ruleAt? hrule)
    have hmem := (hg.rules_of_entry hentry r).mpr ⟨rule, hrule, rfl⟩
    have hentry := NameMap.get?_eq_some_iff.mp hentry
    rw [hshares.getElem?_of_mem hscaled hentry hmem]
    simp only [typeTotal_eq hweights hentry]
    rfl
  · obtain ⟨-, hgap⟩ := isRemoved_eq_ok_true_iff.mp hr
    refine hshares.getElem?_of_notMem hscaled fun entry hentry hmem => ?_
    obtain ⟨rule, hrule, -⟩ := hg.exists_rule_of_entry hentry hmem
    rw [hgap] at hrule
    cases hrule

/-- A grammar without probabilities is left alone. -/
theorem normalize_of_plain (h : g.weights = none) : g.normalize = .done g () := by
  rw [normalize, h]

/-- The weights of a consistent grammar are scaled type by type. -/
theorem Consistent.normalizes (hg : Consistent g) : Normalizes g := by
  have horder : g.typeNames.Pairwise fun a b => bytesOf a < bytesOf b :=
    g.types.ascending.imp bytesOf_lt
  rcases hweights : g.weights with _ | weights
  · have hkept := normalize_of_plain hweights
    have hplain : ¬ g.isProbabilistic = true := by
      rw [isProbabilistic, hweights]
      exact Bool.false_ne_true
    exact {
      result := hg.result_normalize
      plain := fun _ => hkept
      others := by rw [hkept]; rfl
      weights_size := fun ws hws => by
        rw [hweights] at hws
        cases hws
      total := fun h => absurd h hplain
      scaled := fun h => absurd h hplain
      unscaled := fun r type _ _ => by rw [hkept]; rfl
      removed := fun r _ => by rw [hkept]; rfl
      notices := fun h => absurd h hplain
      order := horder }
  · obtain ⟨scaled, hnormalize, hsize, hlive, hgap⟩ := hg.of_normalize hweights
    have hstored (r : RuleId) : g.storedWeight? r = weights[r.index]? := by
      rw [storedWeight?, hweights]
      rfl
    have hafter (r : RuleId) : g.normalize.state.storedWeight? r = scaled[r.index]? := by
      rw [hnormalize]
      rfl
    exact {
      result := hg.result_normalize
      plain := fun h => by
        rw [isProbabilistic, hweights] at h
        cases h
      others := by rw [hnormalize]
      weights_size := by
        intro ws hws
        obtain rfl := Option.some.inj (hweights.symm.trans hws)
        exact ⟨scaled, by rw [hnormalize], hsize⟩
      total := by
        intro _ type rules hrules
        obtain ⟨entry, hentry, hrules⟩ := bind_eq_ok.mp hrules
        obtain rfl := Except.ok.inj hrules
        have hentry := get?_of_typeEntry hentry
        have hall : ∀ r ∈ entry.rules, ∃ w, g.storedWeight? r = some w := fun r hr => by
          obtain ⟨rule, hrule, -⟩ := (hg.rules_of_entry hentry r).mp hr
          exact hg.storedWeight?_eq hweights (index_lt_of_ruleAt? hrule)
        refine ⟨?_, entry.rules.filterMap g.storedWeight?, map_eq_map_filterMap hall, ?_⟩
        · rw [← listed_of_get? hentry]
          exact hg.lists.ascending type
        · rw [typeTotal, listed_of_get? hentry]
      scaled := by
        intro _ r type htype hfinite
        obtain ⟨rule, hrule, -⟩ := returnType_eq_ok_iff.mp htype
        obtain ⟨w, hw⟩ := hg.storedWeight?_eq hweights (index_lt_of_ruleAt? hrule)
        rw [hafter, hlive r type htype, ← hstored, hw, Option.map_some, if_pos hfinite]
        exact ⟨w, rfl, rfl⟩
      unscaled := by
        intro r type htype hinfinite
        rw [hafter, hlive r type htype, hstored]
        simp [hinfinite]
      removed := by
        intro r hr
        rw [hafter, hgap r hr, hstored]
      notices := fun _ => by rw [hnormalize]
      order := horder }

/-- In every grammar that can come about, scaling divides the probability of each rule once, by the total
of its own type before anything was scaled. -/
theorem Reachable.normalizes_by_type (h : Reachable g) : Normalizes g := h.consistent.normalizes

/-- Numbers and their sums with uniform weights, where one of the numbers was taken out. -/
def unevenSums : Grammar :=
  ((((empty.addRules "N" [.lit (.int 1), .lit (.int 2), .call "+" [.sym "N", .sym "M"]]).state.addRule
    "M" (.sym "x")).state.initUniform.state).removeRule ⟨0⟩).state

/-- Two rules are left of three, and each of them is scaled by their total. -/
theorem unevenSums_normalizes : Reachable unevenSums ∧ unevenSums.isProbabilistic = true ∧
    (unevenSums.rulesOfType "N").toOption = some [⟨1⟩, ⟨2⟩] ∧
    (unevenSums.isRemoved ⟨0⟩).toOption = some true ∧ Normalizes unevenSums :=
  have hreachable : Reachable unevenSums :=
    (((Reachable.empty.addRules _ _).addRule _ _).initUniform).removeRule _
  ⟨hreachable, by decide +kernel, by decide +kernel, by decide +kernel,
    hreachable.normalizes_by_type⟩

end TypedGrammar.Grammar
