import TypedGrammar.Proofs.Grammar.Reachable

/-!
# Work on a table that succeeds

Weights are filled in and scaled at the positions that the index lists, and the rules of a table take
theirs along to another one. Each of these steps would fail at a rule that the table lacks. With an index
that fits the table there is no such rule, so reading and setting weights always succeeds.
-/

namespace TypedGrammar.Grammar

variable {g other : Grammar} {rules : List RuleId} {entries : List (String × TypeEntry)}
  {weights : Array Float}

/-- Two steps succeed when the first does and the second does on what the first gives. -/
theorem isOk_bind {α β : Type} {x : Except Failure α} {f : α → Except Failure β}
    (hx : ∃ a, x = .ok a) (hf : ∀ a, x = .ok a → ∃ b, f a = .ok b) : ∃ b, (x >>= f) = .ok b := by
  obtain ⟨a, ha⟩ := hx
  obtain ⟨b, hb⟩ := hf a ha
  exact ⟨b, bind_eq_ok.mpr ⟨a, ha, hb⟩⟩

/-- Going through a list succeeds when each step does. -/
theorem isOk_mapM {α β : Type} {f : α → Except Failure β} {list : List α}
    (h : ∀ a ∈ list, ∃ b, f a = .ok b) : ∃ bs, list.mapM f = .ok bs := by
  induction list with
  | nil => exact ⟨[], rfl⟩
  | cons a rest ih =>
    obtain ⟨ha, hrest⟩ := List.forall_mem_cons.mp h
    rw [List.mapM_cons]
    exact isOk_bind ha fun b _ => (isOk_bind (ih hrest)) fun bs _ => ⟨b :: bs, rfl⟩

/-! ### Setting weights -/

/-- There is a weight for each rule of a list. -/
def Weighed (weights : Array Float) (rules : List RuleId) : Prop :=
  ∀ r ∈ rules, r.index < weights.size

/-- A weight in range can be read. -/
theorem isOk_weightAt {r : RuleId} (hr : r.index < weights.size) :
    ∃ w, weightAt weights r = .ok w :=
  ⟨_, weightAt_eq_ok_iff.mpr (Array.getElem?_eq_getElem hr)⟩

/-- A weight in range can be set. -/
theorem isOk_setWeight {r : RuleId} (hr : r.index < weights.size) (w : Float) :
    ∃ ws, setWeight weights r w = .ok ws := ⟨_, if_pos hr⟩

/-- Rules with weights can be given the same one. -/
theorem isOk_fillWeights (h : Weighed weights rules) (w : Float) :
    ∃ ws, fillWeights w weights rules = .ok ws := by
  induction rules generalizing weights with
  | nil => exact ⟨weights, rfl⟩
  | cons r rest ih =>
    refine isOk_bind (isOk_setWeight (h r List.mem_cons_self) w) fun ws hws => ih fun s hs => ?_
    rw [size_setWeight hws]
    exact h s (List.mem_cons_of_mem _ hs)

/-- The weights of rules that have some can be lowered. -/
theorem isOk_lowerWeights (h : Weighed weights rules) (z : Float) :
    ∃ ws, lowerWeights z weights rules = .ok ws := by
  induction rules generalizing weights with
  | nil => exact ⟨weights, rfl⟩
  | cons r rest ih =>
    have hr := h r List.mem_cons_self
    refine isOk_bind (isOk_weightAt hr) fun w _ => ?_
    refine isOk_bind (isOk_setWeight hr (w - z)) fun ws hws => ih fun s hs => ?_
    rw [size_setWeight hws]
    exact h s (List.mem_cons_of_mem _ hs)

/-- Each rule can be given its share, where the types list rules with weights. -/
theorem isOk_uniformWeights (h : ∀ entry ∈ entries, Weighed weights entry.2.rules) :
    ∃ ws, uniformWeights weights entries = .ok ws := by
  induction entries generalizing weights with
  | nil => exact ⟨weights, rfl⟩
  | cons entry rest ih =>
    refine isOk_bind (isOk_fillWeights (h entry List.mem_cons_self) _) fun ws hws => ih ?_
    intro later hlater s hs
    rw [size_fillWeights hws]
    exact h later (List.mem_cons_of_mem _ hlater) s hs

/-- A type of rules with weights can be normalized. -/
theorem isOk_normalizeType {entry : TypeEntry} (h : Weighed weights entry.rules) (type : String) :
    ∃ scaled, normalizeType type entry weights = .ok scaled := by
  refine isOk_bind (isOk_mapM fun r hr => isOk_weightAt (h r hr)) fun values _ => ?_
  dsimp only
  split
  · exact isOk_bind (isOk_lowerWeights h _) fun ws _ => ⟨_, rfl⟩
  · exact ⟨_, rfl⟩

/-- Types of rules with weights can be normalized. -/
theorem isOk_normalizeTypes (h : ∀ entry ∈ entries, Weighed weights entry.2.rules) :
    ∃ scaled, normalizeTypes weights entries = .ok scaled := by
  induction entries generalizing weights with
  | nil => exact ⟨(weights, []), rfl⟩
  | cons entry rest ih =>
    refine isOk_bind (isOk_normalizeType (h entry List.mem_cons_self) entry.1) fun scaled hscaled => ?_
    refine isOk_bind (ih fun later hlater s hs => ?_) fun final _ => ⟨_, rfl⟩
    rw [size_normalizeType hscaled]
    exact h later (List.mem_cons_of_mem _ hlater) s hs

/-- The rules that a fitting index lists are rules of the table. -/
theorem Indexed.exists_rule_of_entry (hg : Indexed g) {entry : String × TypeEntry}
    (hentry : entry ∈ g.types.entries) {r : RuleId} (hr : r ∈ entry.2.rules) :
    ∃ rule, g.ruleAt? r = some rule ∧ rule.type = entry.1 :=
  (hg.rules_of_entry (NameMap.get?_eq_some_iff.mpr hentry) r).mp hr

/-- There are weights for the rules that a fitting index lists, if there is one for each row. -/
theorem Indexed.weighed (hg : Indexed g) (hsize : weights.size = g.size)
    {entry : String × TypeEntry} (hentry : entry ∈ g.types.entries) :
    Weighed weights entry.2.rules := by
  intro r hr
  obtain ⟨rule, hrule, -⟩ := hg.exists_rule_of_entry hentry hr
  rw [hsize]
  exact index_lt_of_ruleAt? hrule

/-- Uniform weights can be given to every grammar with a fitting index. -/
theorem Indexed.result_initUniform (hg : Indexed g) : g.initUniform.result = .ok () := by
  have hsize : (Array.replicate g.size negInfinity).size = g.size := Array.size_replicate
  obtain ⟨ws, hws⟩ := isOk_uniformWeights fun _ hentry => hg.weighed hsize hentry
  rw [initUniform, hws]
  rfl

/-- The weights of every grammar with a fitting index can be scaled. -/
theorem Indexed.result_normalize (hg : Indexed g) : g.normalize.result = .ok () := by
  rw [normalize]
  split
  · rfl
  · rename_i weights hweights
    obtain ⟨scaled, hscaled⟩ :=
      isOk_normalizeTypes fun _ hentry => hg.weighed (hg.weights_size weights hweights) hentry
    rw [hscaled]

/-! ### Merging -/

/-- Every row of a table with a fitting index has its weight. -/
theorem Indexed.isOk_carriedWeight (hg : Indexed g) {r : RuleId} (hr : r.index < g.size) :
    ∃ weight, g.carriedWeight r = .ok weight := by
  rw [carriedWeight]
  split
  · exact ⟨none, rfl⟩
  · rename_i ws hws
    have hlt : r.index < ws.size := hg.weights_size ws hws ▸ hr
    exact isOk_bind (isOk_weightAt hlt) fun w _ => ⟨some w, rfl⟩

/-- Settling the weights of a merge succeeds. -/
theorem Indexed.result_mergeWeighted {grown : Grammar} (h : Indexed grown) (g other : Grammar) :
    (g.mergeWeighted other grown).result = .ok () := by
  rw [mergeWeighted]
  split
  · exact (h.mergeIndexed other).result_initUniform
  · rfl

end TypedGrammar.Grammar
