import TypedGrammar.Proofs.Grammar.Changes
import TypedGrammar.Proofs.Grammar.Embedding

/-!
# Sound tables

No rule is stored twice and no malformed one is stored at all. A rule is checked before it is added, and
it is added only when its body is new, whatever its type. A merge takes the rules of another grammar
over without a check, and only where their type and body are new together; so it may bring a body in
under a second type, and what it brings in is sound because the other grammar is.
-/

namespace TypedGrammar

/-! ### Bodies without unnamed parts -/

/-- The first expression is the second or stands within its arguments. -/
inductive Expr.Within : Expr → Expr → Prop
  | refl (e : Expr) : Within e e
  | arg {part arg : Expr} {op : String} {args : List Expr} (harg : arg ∈ args)
      (hpart : Within part arg) : Within part (.call op args)

/-- Every symbol and every operator of the expression has a name. -/
structure Expr.Named (e : Expr) : Prop where
  symbols : ∀ name, Expr.Within (.sym name) e → name ≠ ""
  operators : ∀ op args, Expr.Within (.call op args) e → op ≠ ""

/-- A literal has no name that could be empty. -/
theorem Expr.named_lit (value : Value) : Expr.Named (.lit value) where
  symbols _ hwithin := nomatch hwithin
  operators _ _ hwithin := nomatch hwithin

/-- The only name in a symbol is its own. -/
theorem Expr.named_sym_iff {name : String} : Expr.Named (.sym name) ↔ name ≠ "" := by
  constructor
  · exact fun h => h.symbols name (.refl _)
  · intro hname
    refine ⟨fun other hwithin => ?_, fun op args hwithin => nomatch hwithin⟩
    cases hwithin
    exact hname

/-- The names in a call are its operator and those in the arguments. -/
theorem Expr.named_call_iff {op : String} {args : List Expr} :
    Expr.Named (.call op args) ↔ op ≠ "" ∧ ∀ arg ∈ args, arg.Named := by
  constructor
  · intro h
    exact ⟨h.operators op args (.refl _), fun arg harg =>
      ⟨fun name hwithin => h.symbols name (.arg harg hwithin),
        fun op' args' hwithin => h.operators op' args' (.arg harg hwithin)⟩⟩
  · intro h
    refine ⟨fun name hwithin => ?_, fun op' args' hwithin => ?_⟩
    · cases hwithin with
      | arg harg hpart => exact (h.2 _ harg).symbols name hpart
    · cases hwithin with
      | refl => exact h.1
      | arg harg hpart => exact (h.2 _ harg).operators op' args' hpart

namespace Grammar

variable {g : Grammar} {change : Change} {changes : List Change} {r s : RuleId} {rule rule' : Rule}
  {type : String} {body : Expr} {rows rows' : List (Option Rule)}

mutual

/-- The check of a body finds a fault unless all its symbols and operators have names. -/
theorem bodyFault?_eq_none_iff : ∀ e : Expr, bodyFault? e = none ↔ e.Named
  | .lit value => by simp [bodyFault?, Expr.named_lit]
  | .sym name => by simp [bodyFault?, Expr.named_sym_iff]
  | .call op args => by
    rw [Expr.named_call_iff, ← argsFault?_eq_none_iff args, bodyFault?]
    by_cases hop : op = "" <;> simp [hop]

/-- The check of arguments finds a fault unless this holds of each of them. -/
theorem argsFault?_eq_none_iff : ∀ args : List Expr,
    argsFault? args = none ↔ ∀ arg ∈ args, arg.Named
  | [] => by simp [argsFault?]
  | arg :: rest => by
    rw [argsFault?, Option.or_eq_none_iff, bodyFault?_eq_none_iff arg, argsFault?_eq_none_iff rest,
      List.forall_mem_cons]

end

/-- A rule is without fault when its type is not blank and its body has no unnamed part. -/
theorem ruleFault?_eq_none_iff :
    ruleFault? type body = none ↔ Text.isBlank type = false ∧ body.Named := by
  rw [ruleFault?, ← bodyFault?_eq_none_iff]
  cases Text.isBlank type <;> simp

/-! ### What steps keep -/

/-- Leaving gaps out does not change which rules there are. -/
theorem reduceOption_filter_isSome (rows : List (Option Rule)) :
    (rows.filter Option.isSome).reduceOption = rows.reduceOption := by
  induction rows with
  | nil => rfl
  | cons row rest ih => cases row <;> simp [ih]

/-- A gap takes a rule out of the list of the rules. -/
theorem reduceOption_set_none_sublist (rows : List (Option Rule)) (i : Nat) :
    (rows.set i none).reduceOption.Sublist rows.reduceOption := by
  induction rows generalizing i with
  | nil => exact .refl _
  | cons row rest ih =>
    cases i with
    | zero => cases row <;> simp
    | succ i =>
      cases row with
      | none => simpa using ih i
      | some rule => simpa using ih i

/-- Steps bring in rules without fault, and rules of the grammar that is merged. -/
theorem RowStep.mem_cases (h : RowStep change rows rows') (hrule : rule ∈ rows'.reduceOption) :
    rule ∈ rows.reduceOption ∨ ruleFault? rule.type rule.body = none ∨
      ∃ other, change = .merge other ∧ rule ∈ other.outline.reduceOption := by
  cases h with
  | added hsound _ =>
    rw [List.reduceOption_append, List.mem_append] at hrule
    rcases hrule with hrule | hrule
    · exact .inl hrule
    · obtain rfl := List.mem_singleton.mp hrule
      exact .inr (.inl hsound)
  | @joined other _ _ hother _ =>
    rw [List.reduceOption_append, List.mem_append] at hrule
    rcases hrule with hrule | hrule
    · exact .inl hrule
    · obtain rfl := List.mem_singleton.mp hrule
      exact .inr (.inr ⟨other, rfl, hother⟩)
  | takenOut i => exact .inl ((reduceOption_set_none_sublist rows i).mem hrule)
  | closed =>
    rw [reduceOption_filter_isSome] at hrule
    exact .inl hrule

/-- Steps of changes other than a merge keep different bodies different. -/
theorem RowStep.nodup_bodies (h : RowStep change rows rows') (hmerge : ∀ other, change ≠ .merge other)
    (hrows : (rows.reduceOption.map Rule.body).Nodup) :
    (rows'.reduceOption.map Rule.body).Nodup := by
  cases h with
  | @added _ _ rule _ hnew =>
    rw [List.reduceOption_append, List.map_append]
    refine List.nodup_append.mpr ⟨hrows, List.nodup_singleton _, ?_⟩
    intro first hfirst second hsecond
    obtain ⟨known, hknown, rfl⟩ := List.mem_map.mp hfirst
    obtain rfl := List.mem_singleton.mp hsecond
    exact hnew known hknown
  | @joined other _ _ _ _ => exact absurd rfl (hmerge other)
  | takenOut i => exact hrows.sublist ((reduceOption_set_none_sublist rows i).map _)
  | closed => rwa [reduceOption_filter_isSome]

/-- Every rule of a grammar that can come about is without fault. -/
theorem Reachable.ruleFault?_eq_none (h : Reachable g) (hr : g.ruleAt? r = some rule) :
    ruleFault? rule.type rule.body = none := by
  have hrows : ∀ rule ∈ g.outline.reduceOption, ruleFault? rule.type rule.body = none := by
    refine h.outline_induction
      (P := fun rows => ∀ rule ∈ rows.reduceOption, ruleFault? rule.type rule.body = none) nofun
      fun change rows rows' hmerge hstep hrows rule hrule => ?_
    rcases hstep.mem_cases hrule with hkept | hsound | ⟨other, hother, hjoined⟩
    · exact hrows rule hkept
    · exact hsound
    · exact hmerge other hother rule hjoined
  exact hrows (bare rule) (bare_mem_outline hr)

/-- Where no body stands twice in the outline, a body belongs to one rule. -/
theorem eq_of_nodup_bodies (h : (g.outline.reduceOption.map Rule.body).Nodup)
    (hr : g.ruleAt? r = some rule) (hs : g.ruleAt? s = some rule') (hbody : rule.body = rule'.body) :
    r = s := by
  have hpairwise : ∀ (i j : Nat) (a b : Rule), i < j → g.outline[i]? = some (some a) →
      g.outline[j]? = some (some b) → a.body ≠ b.body := by
    intro i j a b hlt hi hj
    rw [List.Nodup, List.pairwise_map, List.reduceOption, List.pairwise_filterMap,
      List.pairwise_iff_getElem] at h
    obtain ⟨hi', hi⟩ := List.getElem?_eq_some_iff.mp hi
    obtain ⟨hj', hj⟩ := List.getElem?_eq_some_iff.mp hj
    exact h i j hi' hj' hlt a hi b hj
  have hr' := getElem?_outline_eq_some_iff.mpr ⟨rule, hr, rfl⟩
  have hs' := getElem?_outline_eq_some_iff.mpr ⟨rule', hs, rfl⟩
  rcases Nat.lt_trichotomy r.index s.index with hlt | heq | hlt
  · exact absurd hbody (hpairwise _ _ (bare rule) (bare rule') hlt hr' hs')
  · exact congrArg RuleId.mk heq
  · exact absurd hbody.symm (hpairwise _ _ (bare rule') (bare rule) hlt hs' hr')

/-- A run without merges from a grammar without rules leads to a table in which no body stands twice. -/
theorem nodup_bodies_runAll (hg : Consistent g) (hempty : g.outline = [])
    (hmerge : ∀ other, Change.merge other ∉ changes) :
    ((g.runAll changes).outline.reduceOption.map Rule.body).Nodup := by
  refine hg.runAll_induction (P := fun rows => (rows.reduceOption.map Rule.body).Nodup)
    (fun change hmem rows rows' hstep hrows => ?_) (hempty ▸ List.nodup_nil)
  refine hstep.nodup_bodies (fun other => ?_) hrows
  rintro rfl
  exact hmerge other hmem

/-! ### Searching and adding -/

/-- The search for a type and a body finds the rule that has them. -/
theorem Indexed.findRule?_eq_some_iff (hg : Indexed g) (hdistinct : Distinct g) :
    g.findRule? type body = .ok (some r) ↔ g.returnType r = .ok type ∧ g.body r = .ok body := by
  rw [returnType_eq_ok_iff, body_eq_ok_iff]
  rcases hg.findRule?_cases type body with
    ⟨found, rule, hfind, hrule, htype, hbody⟩ | ⟨hfind, hunknown⟩
  · rw [hfind]
    constructor
    · intro h
      obtain rfl := Option.some.inj (Except.ok.inj h)
      exact ⟨⟨rule, hrule, htype⟩, rule, hrule, hbody⟩
    · intro h
      obtain ⟨⟨rule', hr, htype'⟩, rule'', hr', hbody'⟩ := h
      obtain rfl := Option.some.inj (hr.symm.trans hr')
      obtain rfl := hdistinct found r rule rule' hrule hr (htype.trans htype'.symm)
        (hbody.trans hbody'.symm)
      rfl
  · rw [hfind]
    constructor
    · intro h
      cases h
    · intro h
      obtain ⟨⟨rule, hr, htype⟩, rule', hr', hbody⟩ := h
      obtain rfl := Option.some.inj (hr.symm.trans hr')
      exact absurd ⟨r, rule, hr, htype, hbody⟩ hunknown

/-- The search finds nothing when no rule has the type and the body. -/
theorem Indexed.findRule?_eq_none_iff (hg : Indexed g) :
    g.findRule? type body = .ok none ↔ ¬ ∃ r, g.returnType r = .ok type ∧ g.body r = .ok body := by
  rw [← knows_iff]
  rcases hg.findRule?_cases type body with ⟨found, rule, hfind, hrule⟩ | ⟨hfind, hunknown⟩
  · rw [hfind]
    exact ⟨nofun, fun h => absurd ⟨found, rule, hrule⟩ h⟩
  · rw [hfind]
    exact ⟨fun _ => hunknown, fun _ => rfl⟩

/-- A rule is added when its body is new, under the next name, and nothing happens otherwise. -/
structure AddsOnce (g : Grammar) (type : String) (body : Expr) (immediate : Bool)
    (edit : Edit Grammar (Option RuleId)) : Prop where
  known_iff : (edit.result = .ok none ∧ edit.state = g) ↔ ∃ r, g.body r = .ok body
  added : (¬ ∃ r, g.body r = .ok body) → edit.result = .ok (some ⟨g.size⟩) ∧
    edit.state.returnType ⟨g.size⟩ = .ok type ∧ edit.state.body ⟨g.size⟩ = .ok body ∧
      edit.state.isImmediate ⟨g.size⟩ = .ok immediate

/-- A body is contained in the table when it is that of some rule. -/
theorem containsBody_iff : g.containsBody body = true ↔ ∃ r, g.body r = .ok body := by
  simp only [body_eq_ok_iff]
  constructor
  · intro h
    obtain ⟨row, hmem, hrow⟩ := List.any_eq_true.mp h
    obtain ⟨i, hi⟩ := List.mem_iff_getElem?.mp hmem
    rw [Array.getElem?_toList] at hi
    obtain ⟨rule, rfl, hbody⟩ := Option.any_eq_true _ _ |>.mp hrow
    exact ⟨⟨i⟩, rule, ruleAt?_eq_some_iff.mpr hi, of_decide_eq_true hbody⟩
  · intro h
    obtain ⟨r, rule, hr, hbody⟩ := h
    by_contra hcontains
    exact not_knows_of_containsBody (Bool.eq_false_iff.mpr hcontains) rule.type
      ⟨r, rule, hr, rfl, hbody⟩

/-- An entry without a fault is added once. -/
theorem addsOnce_addEntry (hsound : ruleFault? type body = none) (immediate : Bool)
    (weight : Option Float) :
    AddsOnce g type body immediate (g.addEntry type body immediate weight) := by
  rw [addEntry, hsound]
  dsimp only
  by_cases hknown : g.containsBody body = true
  · rw [if_pos hknown]
    exact ⟨⟨fun _ => containsBody_iff.mp hknown, fun _ => ⟨rfl, rfl⟩⟩,
      fun h => absurd (containsBody_iff.mp hknown) h⟩
  · rw [if_neg hknown]
    have hunknown : ¬ ∃ r, g.body r = .ok body := fun h => hknown (containsBody_iff.mpr h)
    refine ⟨⟨fun h => ?_, fun h => absurd h hunknown⟩, fun _ => ⟨rfl, ?_⟩⟩
    · cases h.1
    · have hrule : (g.pushRule type body immediate weight).2.reindex.ruleAt? ⟨g.size⟩ =
          some ((g.pushRule type body immediate weight).2.resolve ⟨type, body, immediate, []⟩) := by
        rw [ruleAt?_reindex, ruleAt?_pushRule, if_pos rfl]
        rfl
      exact ⟨returnType_eq_ok_iff.mpr ⟨_, hrule, rfl⟩, body_of_ruleAt? hrule,
        isImmediate_of_ruleAt? hrule⟩

/-- A rule with a probability is added once. In a plain grammar the table is empty, so that the rule is new
and the weights are the only difference to adding it without one. -/
theorem addsOnce_addRuleWithProbability (hmode : g.isProbabilistic = true ∨ g.isEmpty = true)
    {p : Float} (hp : isWeight p = true) (hsound : ruleFault? type body = none) :
    AddsOnce g type body false (g.addRuleWithProbability p type body) := by
  have hadmitted : (!g.isProbabilistic && !g.isEmpty) = false := by
    rcases hmode with hmode | hmode <;> simp [hmode]
  rw [addRuleWithProbability, hadmitted, hp]
  simp only [Bool.false_eq_true, if_false, if_true]
  cases hprobabilistic : g.isProbabilistic with
  | true => exact addsOnce_addEntry hsound false _
  | false =>
    obtain ⟨-, hadded⟩ := addsOnce_addEntry (g := { g with weights := some #[] }) hsound false
      (some (Float.log p))
    have hunknown : ¬ ∃ r, g.body r = .ok body := by
      intro h
      obtain ⟨r, hr⟩ := h
      obtain ⟨rule, hr, -⟩ := body_eq_ok_iff.mp hr
      have hempty := isEmpty_eq_false_of_lt (index_lt_of_ruleAt? hr)
      rw [hprobabilistic, hempty] at hmode
      simp at hmode
    have hadded := hadded hunknown
    refine ⟨⟨fun h => ?_, fun h => absurd h hunknown⟩, fun _ => hadded⟩
    exact nomatch hadded.1.symm.trans h.1

/-! ### Every grammar that can come about -/

/-- What holds of the rules of a grammar and of adding to them. -/
structure SoundTable (g : Grammar) : Prop where
  /-- No two rules have the same type and body. -/
  unique : ∀ r s type body, g.returnType r = .ok type → g.body r = .ok body →
    g.returnType s = .ok type → g.body s = .ok body → r = s
  /-- No rule has a blank type or a part without a name. -/
  well_formed : ∀ r type body, g.returnType r = .ok type → g.body r = .ok body →
    Text.isBlank type = false ∧ body.Named
  /-- The search finds the rule that has the type and the body. -/
  found_iff : ∀ type body r,
    g.findRule? type body = .ok (some r) ↔ g.returnType r = .ok type ∧ g.body r = .ok body
  /-- The search finds nothing when there is no such rule. -/
  not_found_iff : ∀ type body,
    g.findRule? type body = .ok none ↔ ¬ ∃ r, g.returnType r = .ok type ∧ g.body r = .ok body
  /-- If nothing was ever merged, no two rules have the same body. -/
  unmerged : ∀ start changes, start = empty ∨ start = emptyProbabilistic →
    (∀ other, Change.merge other ∉ changes) → g = start.runAll changes →
    ∀ r s body, g.body r = .ok body → g.body s = .ok body → r = s
  /-- An ordinary rule is added once. -/
  addRule : ∀ type body, g.isProbabilistic = false → Text.isBlank type = false → body.Named →
    AddsOnce g type body false (g.addRule type body)
  /-- An immediate rule is added once. -/
  addImmediateRule : ∀ type body, g.isProbabilistic = false → Text.isBlank type = false →
    body.Named → AddsOnce g type body true (g.addImmediateRule type body)
  /-- A rule with a probability is added once. -/
  addRuleWithProbability : ∀ p type body, g.isProbabilistic = true ∨ g.isEmpty = true →
    isWeight p = true → Text.isBlank type = false → body.Named →
    AddsOnce g type body false (g.addRuleWithProbability p type body)

/-- Every grammar that can come about has a sound table. -/
theorem Reachable.sound_table (h : Reachable g) : SoundTable g where
  unique r s type body hr hr' hs hs' := by
    have hfind := (h.consistent.findRule?_eq_some_iff h.distinct).mpr ⟨hr, hr'⟩
    have hfind' := (h.consistent.findRule?_eq_some_iff h.distinct).mpr ⟨hs, hs'⟩
    exact Option.some.inj (Except.ok.inj (hfind.symm.trans hfind'))
  well_formed r type body htype hbody := by
    obtain ⟨rule, hr, rfl⟩ := returnType_eq_ok_iff.mp htype
    obtain rfl := Except.ok.inj ((body_of_ruleAt? hr).symm.trans hbody)
    exact ruleFault?_eq_none_iff.mp (h.ruleFault?_eq_none hr)
  found_iff type body r := h.consistent.findRule?_eq_some_iff h.distinct
  not_found_iff type body := h.consistent.findRule?_eq_none_iff
  unmerged start changes hstart hmerge hrun r s body hr hs := by
    subst hrun
    obtain ⟨rule, hr, hrule⟩ := body_eq_ok_iff.mp hr
    obtain ⟨rule', hs, hrule'⟩ := body_eq_ok_iff.mp hs
    have hnodup : ((start.runAll changes).outline.reduceOption.map Rule.body).Nodup := by
      rcases hstart with rfl | rfl
      · exact nodup_bodies_runAll Reachable.empty.consistent rfl hmerge
      · exact nodup_bodies_runAll Reachable.emptyProbabilistic.consistent rfl hmerge
    exact eq_of_nodup_bodies hnodup hr hs (hrule.trans hrule'.symm)
  addRule type body hmode htype hbody := by
    rw [Grammar.addRule, hmode]
    exact addsOnce_addEntry (ruleFault?_eq_none_iff.mpr ⟨htype, hbody⟩) false none
  addImmediateRule type body hmode htype hbody := by
    rw [Grammar.addImmediateRule, hmode]
    exact addsOnce_addEntry (ruleFault?_eq_none_iff.mpr ⟨htype, hbody⟩) true none
  addRuleWithProbability p type body hmode hp htype hbody :=
    addsOnce_addRuleWithProbability hmode hp (ruleFault?_eq_none_iff.mpr ⟨htype, hbody⟩)

/-- The literal of one type, and the same literal of another type merged in. -/
def sharedLiteral : Grammar := (oneOnly.merge (empty.addRule "B" (.lit (.int 1))).state).state

/-- A merge brings in a body that is there under another type, and adding it again does nothing. -/
theorem sharedLiteral_sound_table : Reachable sharedLiteral ∧ SoundTable sharedLiteral ∧
    sharedLiteral.body ⟨0⟩ = .ok (.lit (.int 1)) ∧ sharedLiteral.body ⟨1⟩ = .ok (.lit (.int 1)) ∧
    (sharedLiteral.addRule "C" (.lit (.int 1))).result = .ok none := by
  have hreachable : Reachable sharedLiteral :=
    (Reachable.empty.addRule _ _).merge (Reachable.empty.addRule _ _)
  exact ⟨hreachable, hreachable.sound_table, by cbv, by cbv, by cbv⟩

end Grammar

end TypedGrammar
