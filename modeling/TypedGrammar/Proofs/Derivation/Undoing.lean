import TypedGrammar.Proofs.Derivation.SameRules
import TypedGrammar.Proofs.Grammar.SoundTable

/-!
# Adding a rule and taking it out again

A rule that is added stands behind the table, and once it is taken out a gap stands there. The rules are
then the same as before, at the same positions. Whatever a grammar computes from them comes out the same
again: adding computes it anew, and taking out either computes it anew, when the type goes with the rule,
or patches it.
-/

namespace TypedGrammar.Grammar

variable {g g' : Grammar} {r s : RuleId} {type : String} {body : Expr} {immediate : Bool}
  {weight : Option Float} {edit : Edit Grammar (Option RuleId)}

/-! ### Adding -/

/-- The ways to add a rule that keep the grammar plain or probabilistic. -/
inductive AddsRule (g : Grammar) (type : String) (body : Expr) : Edit Grammar (Option RuleId) → Prop
  | ordinary : AddsRule g type body (g.addRule type body)
  | immediate : AddsRule g type body (g.addImmediateRule type body)
  | weighted (p : Float) (hprobabilistic : g.isProbabilistic = true) :
      AddsRule g type body (g.addRuleWithProbability p type body)

/-- A rule that was added was pushed behind the table, and the index was computed anew. -/
theorem addEntry_eq_done (h : (g.addEntry type body immediate weight).result = .ok (some r)) :
    g.addEntry type body immediate weight =
        .done (g.pushRule type body immediate weight).2.reindex (some r) ∧ r = ⟨g.size⟩ := by
  unfold addEntry at h ⊢
  split at h
  · cases h
  · split at h
    · cases h
    · rename_i hnew
      rw [if_neg hnew]
      cases h
      exact ⟨rfl, rfl⟩

/-- An addition that answers with a rule pushed it behind the table. -/
theorem AddsRule.eq_done (h : AddsRule g type body edit) (hr : edit.result = .ok (some r)) :
    ∃ immediate weight, edit =
        .done (g.pushRule type body immediate weight).2.reindex (some r) ∧ r = ⟨g.size⟩ := by
  cases h with
  | ordinary =>
    unfold addRule at hr ⊢
    split at hr
    · cases hr
    · rename_i hplain
      rw [if_neg hplain]
      exact ⟨_, _, addEntry_eq_done hr⟩
  | immediate =>
    unfold addImmediateRule at hr ⊢
    split at hr
    · cases hr
    · rename_i hplain
      rw [if_neg hplain]
      exact ⟨_, _, addEntry_eq_done hr⟩
  | weighted p hprobabilistic =>
    simp only [addRuleWithProbability, hprobabilistic, Bool.not_true, Bool.false_and,
      Bool.false_eq_true, if_false, if_true] at hr ⊢
    split at hr
    · rename_i hp
      rw [if_pos hp]
      exact ⟨_, _, addEntry_eq_done hr⟩
    · cases hr

/-- Whatever way a rule is added, the grammar is one that can come about. -/
theorem AddsRule.reachable (h : AddsRule g type body edit) (hg : Reachable g) :
    Reachable edit.state := by
  cases h with
  | ordinary => exact hg.addRule type body
  | immediate => exact hg.addImmediateRule type body
  | weighted p => exact hg.addRuleWithProbability p type body

/-! ### Taking out again -/

/-- Striking a rule from the index concerns neither the weights nor the constraints nor the constants. -/
theorem delist_rest (g : Grammar) (type : String) (r : RuleId) :
    (g.delist type r).weights = g.weights ∧ (g.delist type r).constraints = g.constraints ∧
      (g.delist type r).symbols = g.symbols := by
  unfold delist
  split
  · exact ⟨rfl, rfl, rfl⟩
  · dsimp only
    split
    · exact ⟨rfl, rfl, rfl⟩
    · exact ⟨rfl, rfl, rfl⟩

/-- A gap takes the weight of one rule. -/
theorem storedWeight?_withGap (hs : s.index ≠ r.index) :
    (g.withGap r).storedWeight? s = g.storedWeight? s := by
  rw [storedWeight?, storedWeight?, withGap]
  cases g.weights with
  | none => rfl
  | some ws => exact Array.getElem?_setIfInBounds_ne (Ne.symm hs)

/-- A rule pushed behind the table leaves the weights of the others. -/
theorem Indexed.storedWeight?_pushRule (hg : Indexed g) (type : String) (body : Expr)
    (immediate : Bool) (weight : Option Float) (hs : s.index < g.size) :
    (g.pushRule type body immediate weight).2.storedWeight? s = g.storedWeight? s := by
  rw [storedWeight?, storedWeight?, Grammar.pushRule]
  cases hws : g.weights with
  | none => rfl
  | some ws =>
    have hne : s.index ≠ ws.size := Nat.ne_of_lt (hg.weights_size ws hws ▸ hs)
    exact (Array.getElem?_push).trans (if_neg hne)

/-- A grammar has one more row than another, a gap, and the same constants, constraints and weights. -/
structure GapBehind (g g' : Grammar) : Prop where
  outline_eq : g'.outline = g.outline ++ [none]
  isProbabilistic_eq : g'.isProbabilistic = g.isProbabilistic
  storedWeight?_eq : ∀ r : RuleId, r.index < g.size → g'.storedWeight? r = g.storedWeight? r
  constraints_eq : g'.constraints = g.constraints
  symbols_eq : g'.symbols = g.symbols

/-- The rule that was pushed last leaves a gap behind the table. -/
theorem Indexed.gapBehind (hg : Indexed g) (type : String) (body : Expr) (immediate : Bool)
    (weight : Option Float) (struck : String) : GapBehind g
      (((g.pushRule type body immediate weight).2.reindex.withGap ⟨g.size⟩).delist struck ⟨g.size⟩) := by
  obtain ⟨hweights, hconstraints, hsymbols⟩ :=
    delist_rest ((g.pushRule type body immediate weight).2.reindex.withGap ⟨g.size⟩) struck ⟨g.size⟩
  refine ⟨?_, ?_, fun r hr => ?_, hconstraints, hsymbols⟩
  · rw [outline_delist, outline_withGap, outline_reindex, outline_pushRule,
      List.set_append_right _ _ (length_outline g).le, length_outline, Nat.sub_self]
    rfl
  · rw [isProbabilistic, hweights, withGap, Option.isSome_map]
    exact Option.isSome_map
  · have hgap := storedWeight?_withGap (g := (g.pushRule type body immediate weight).2.reindex)
      (r := ⟨g.size⟩) (Nat.ne_of_lt hr)
    rw [storedWeight?, hweights]
    exact hgap.trans (hg.storedWeight?_pushRule type body immediate weight hr)

/-! ### What is left -/

/-- A gap behind the table leaves the rules that there were. -/
theorem GapBehind.sameRules (h : GapBehind g g') (hg : Reachable g) (hg' : Reachable g') :
    SameRules g g' where
  consistent := hg.consistent
  consistent' := hg'.consistent
  distinct := hg.distinct
  distinct' := hg'.distinct
  mem_iff rule := by
    rw [h.outline_eq, List.reduceOption_append]
    simp
  symbols_eq := h.symbols_eq

/-- A gap behind the table is one more row. -/
theorem GapBehind.size_eq (h : GapBehind g g') : g'.size = g.size + 1 := by
  rw [← length_outline, h.outline_eq, List.length_append, length_outline]
  rfl

/-- The rules stand at the same positions. -/
theorem GapBehind.getElem?_outline_iff (h : GapBehind g g') {rule : Rule} (i : Nat) :
    g'.outline[i]? = some (some rule) ↔ g.outline[i]? = some (some rule) := by
  rw [h.outline_eq, List.getElem?_append]
  split
  · rfl
  · rename_i hbehind
    rw [List.getElem?_eq_none (Nat.le_of_not_lt hbehind)]
    cases i - g.outline.length <;> simp

/-- Each position has the rule that it had, with its symbols resolved alike. -/
theorem GapBehind.ruleAt?_eq (h : GapBehind g g') (hsame : SameRules g g') :
    g'.ruleAt? = g.ruleAt? := by
  funext r
  refine Option.ext fun rule => ⟨fun hr => ?_, fun hr => ?_⟩
  · have hrow := getElem?_outline_eq_some_iff.mpr ⟨rule, hr, rfl⟩
    obtain ⟨found, hfound, hbare⟩ :=
      getElem?_outline_eq_some_iff.mp ((h.getElem?_outline_iff r.index).mp hrow)
    rw [hfound, hsame.rule_eq hfound hr hbare.symm]
  · have hrow := getElem?_outline_eq_some_iff.mpr ⟨rule, hr, rfl⟩
    obtain ⟨found, hfound, hbare⟩ :=
      getElem?_outline_eq_some_iff.mp ((h.getElem?_outline_iff r.index).mpr hrow)
    rw [hfound, hsame.rule_eq hr hfound hbare]

/-- A grammar has one more row than another, a gap at the position of a rule, and everything else is as
it is there. -/
structure OneMoreGap (g g' : Grammar) (r : RuleId) : Prop where
  size_eq : g'.size = g.size + 1
  isRemoved : g'.isRemoved r = .ok true
  typeNames_eq : g'.typeNames = g.typeNames
  rulesOfType_eq : ∀ type, g'.rulesOfType type = g.rulesOfType type
  /-- The domains have the same members. -/
  domain_same : ∀ type domain, g.domain type = .ok domain →
    ∃ domain', g'.domain type = .ok domain' ∧ domain'.same domain = true
  /-- Nothing that is known about the other rules, gaps included, has changed. -/
  older : ∀ s : RuleId, s.index < g.size →
    g'.body s = g.body s ∧ g'.returnType s = g.returnType s ∧ g'.isRemoved s = g.isRemoved s ∧
      g'.isImmediate s = g.isImmediate s ∧ g'.symbolKinds s = g.symbolKinds s ∧
      g'.childTypes s = g.childTypes s ∧ g'.isTerminal s = g.isTerminal s ∧
      g'.storedWeight? s = g.storedWeight? s
  isProbabilistic_eq : g'.isProbabilistic = g.isProbabilistic
  constraints_eq : g'.constraints = g.constraints
  symbols_eq : g'.symbols = g.symbols
  countDerivations_eq : ∀ type depth, g'.countDerivations type depth = g.countDerivations type depth

/-- With the same rules at the same positions nothing else differs behind a gap. -/
theorem GapBehind.oneMoreGap (h : GapBehind g g') (hg : Reachable g) (hg' : Reachable g') :
    OneMoreGap g g' ⟨g.size⟩ := by
  have hsame := h.sameRules hg hg'
  have hrules := h.ruleAt?_eq hsame
  have hlt : ∀ {s : RuleId}, s.index < g.size → s.index < g'.size := fun hs =>
    h.size_eq ▸ Nat.lt_succ_of_lt hs
  have hrow : ∀ {s : RuleId}, s.index < g.size → g'.row s = g.row s := fun hs => by
    rw [row_of_lt hs, row_of_lt (hlt hs), hrules]
  have hgap : g.ruleAt? ⟨g.size⟩ = none :=
    Option.eq_none_iff_forall_ne_some.mpr fun rule hr => Nat.lt_irrefl _ (index_lt_of_ruleAt? hr)
  exact {
    size_eq := h.size_eq
    isRemoved := isRemoved_eq_ok_true_iff.mpr
      ⟨h.size_eq ▸ Nat.lt_succ_self g.size, hrules ▸ hgap⟩
    typeNames_eq := typeNames_congr hsame.hasType_eq
    rulesOfType_eq := hsame.rulesOfType_eq hrules
    domain_same := fun _ _ => hsame.domain_same hrules
    older := fun s hs => by
      simp only [body, returnType, isRemoved, isImmediate, symbolKinds, childTypes, isTerminal, live,
        hrow hs, h.storedWeight?_eq s hs, and_self]
    isProbabilistic_eq := h.isProbabilistic_eq
    constraints_eq := h.constraints_eq
    symbols_eq := h.symbols_eq
    countDerivations_eq := hsame.countDerivations_eq }

/-- A rule that was added to a grammar that can come about can be taken out again, and only a gap is left
of it. -/
theorem Reachable.only_gap_left (h : Reachable g) (hadds : AddsRule g type body edit)
    (hr : edit.result = .ok (some r)) :
    (edit.state.removeRule r).result = .ok () ∧ OneMoreGap g (edit.state.removeRule r).state r := by
  have hafter := hadds.reachable h
  have hremoved : Reachable (edit.state.removeRule r).state := hafter.removeRule r
  obtain ⟨immediate, weight, rfl, rfl⟩ := hadds.eq_done hr
  dsimp only [Edit.done] at hafter hremoved ⊢
  have hpushed : (g.pushRule type body immediate weight).2.reindex.ruleAt? ⟨g.size⟩ =
      some ((g.pushRule type body immediate weight).2.resolve ⟨type, body, immediate, []⟩) := by
    rw [ruleAt?_reindex, ruleAt?_pushRule, if_pos rfl]
    rfl
  obtain ⟨hresult, hstate⟩ := hafter.consistent.removeRule_eq hpushed
  have hgap : GapBehind g
      ((g.pushRule type body immediate weight).2.reindex.removeRule ⟨g.size⟩).state := by
    rw [hstate]
    exact h.consistent.gapBehind type body immediate weight type
  exact ⟨hresult, hgap.oneMoreGap h hremoved⟩

/-- A rule with a name in its body that is a constant. -/
def namedBound : Grammar :=
  ((empty.withSymbols (NameMap.empty.insert "B" (.int 1))).addRule "A" (.call "f" [.sym "B"])).state

/-- While the name is a type, the rule asks for a child. The rule of the new type is taken out, and the
name is a constant again. -/
theorem namedBound_only_gap_left : Reachable namedBound ∧
    AddsRule namedBound "B" (.lit (.int 2)) (namedBound.addRule "B" (.lit (.int 2))) ∧
    (namedBound.addRule "B" (.lit (.int 2))).result = .ok (some ⟨1⟩) ∧
    (namedBound.addRule "B" (.lit (.int 2))).state.symbolKinds ⟨0⟩ = .ok [.nonterminal "B"] ∧
    ((namedBound.addRule "B" (.lit (.int 2))).state.removeRule ⟨1⟩).result = .ok () ∧
    OneMoreGap namedBound ((namedBound.addRule "B" (.lit (.int 2))).state.removeRule ⟨1⟩).state ⟨1⟩ ∧
    ((namedBound.addRule "B" (.lit (.int 2))).state.removeRule ⟨1⟩).state.symbolKinds ⟨0⟩ =
      .ok [.constant (.int 1)] := by
  have hreachable : Reachable namedBound := (Reachable.empty.withSymbols _).addRule _ _
  have hadded : (namedBound.addRule "B" (.lit (.int 2))).result = .ok (some ⟨1⟩) := by cbv
  obtain ⟨hresult, hgap⟩ := hreachable.only_gap_left .ordinary hadded
  exact ⟨hreachable, .ordinary, hadded, by cbv, hresult, hgap, by cbv⟩

end TypedGrammar.Grammar
