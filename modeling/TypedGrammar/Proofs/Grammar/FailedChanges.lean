import Mathlib.Data.List.Permutation
import TypedGrammar.Proofs.Grammar.Success

/-!
# Changes that fail

A change checks its arguments before it touches the grammar, so one that fails leaves the grammar as it
was. For a merge this takes an argument: behind its checks it rewrites the table in several passes, and
none of them can fail, as the index of the table fits and the rules of the other one have their weights.
Adding several rules stops at the first one that is refused, with the rules before it in place.

Adding a rule with a probability is the exception. A grammar without rows becomes probabilistic before
the arguments are checked, and stays so when they are refused.
-/

namespace TypedGrammar

namespace Edit

variable {σ α : Type}

/-- Whenever the change fails, it leaves the given state behind. -/
def Keeps (state : σ) (edit : Edit σ α) : Prop :=
  ∀ failure, edit.result = .error failure → edit.state = state

/-- A change that gives up with the state that it got keeps it. -/
theorem keeps_failed (state : σ) (failure : Failure) : (failed state failure : Edit σ α).Keeps state :=
  fun _ _ => rfl

/-- A change that succeeds says nothing about failing. -/
theorem keeps_of_ok {edit : Edit σ α} {a : α} (h : edit.result = .ok a) (state : σ) :
    edit.Keeps state := by
  intro failure herror
  rw [h] at herror
  cases herror

end Edit

namespace Grammar

variable {g other : Grammar} {type : String} {failure : Failure}

/-! ### One rule or constraint -/

/-- An entry that is refused changes nothing. -/
theorem keeps_addEntry (g : Grammar) (type : String) (body : Expr) (immediate : Bool)
    (weight : Option Float) : (g.addEntry type body immediate weight).Keeps g := by
  unfold addEntry
  split
  · exact Edit.keeps_failed g _
  · split
    · exact Edit.keeps_of_ok rfl g
    · exact Edit.keeps_of_ok rfl g

/-- A rule that is refused changes nothing. -/
theorem keeps_addRule (g : Grammar) (type : String) (body : Expr) :
    (g.addRule type body).Keeps g := by
  unfold addRule
  split
  · exact Edit.keeps_failed g _
  · exact g.keeps_addEntry type body false none

/-- An immediate rule that is refused changes nothing. -/
theorem keeps_addImmediateRule (g : Grammar) (type : String) (body : Expr) :
    (g.addImmediateRule type body).Keeps g := by
  unfold addImmediateRule
  split
  · exact Edit.keeps_failed g _
  · exact g.keeps_addEntry type body true none

/-- Failing to take a rule out changes nothing. -/
theorem keeps_removeRule (g : Grammar) (r : RuleId) : (g.removeRule r).Keeps g := by
  unfold removeRule
  split
  · exact Edit.keeps_failed g _
  · exact Edit.keeps_failed g _
  · split
    · exact Edit.keeps_failed g _
    · exact Edit.keeps_of_ok rfl g

/-- A constraint that is refused changes nothing. -/
theorem keeps_addConstraint (g : Grammar) (c : Constraint) : (g.addConstraint c).Keeps g := by
  unfold addConstraint
  split
  · exact Edit.keeps_of_ok rfl g
  · exact Edit.keeps_failed g _

/-! ### Several rules -/

/-- Adding rules of a type one after the other, none of which is refused, leads from one grammar to
another. -/
inductive AddsEach (type : String) : Grammar → List Expr → Grammar → Prop
  | nil (g : Grammar) : AddsEach type g [] g
  | cons {g g' : Grammar} {body : Expr} {bodies : List Expr} {added : Option RuleId}
      (hadded : (g.addRule type body).result = .ok added)
      (hrest : AddsEach type (g.addRule type body).state bodies g') :
      AddsEach type g (body :: bodies) g'

/-- When the first of several rules is added the others are added behind it. -/
theorem addRules_cons_of_ok {body : Expr} {added : Option RuleId}
    (h : (g.addRule type body).result = .ok added) (rest : List Expr) :
    g.addRules type (body :: rest) =
      ((g.addRule type body).state.addRules type rest).map (added.toList ++ ·) := by
  rcases hstep : g.addRule type body with ⟨g', result, notices⟩
  rw [hstep] at h
  obtain rfl : result = .ok added := h
  rw [addRules, hstep]

/-- When the first of several rules is refused none of the others is added. -/
theorem addRules_cons_of_error {body : Expr} (h : (g.addRule type body).result = .error failure)
    (rest : List Expr) : g.addRules type (body :: rest) = .failed g failure := by
  have hstate := g.keeps_addRule type body failure h
  rcases hstep : g.addRule type body with ⟨g', result, notices⟩
  rw [hstep] at h hstate
  obtain rfl : result = .error failure := h
  obtain rfl : g' = g := hstate
  rw [addRules, hstep]

/-- Adding several rules fails at the first one that is refused, after the rules before it were added
one by one. -/
theorem addRules_of_error {bodies : List Expr}
    (h : (g.addRules type bodies).result = .error failure) :
    ∃ before body after, bodies = before ++ body :: after ∧
      AddsEach type g before (g.addRules type bodies).state ∧
      ((g.addRules type bodies).state.addRule type body).result = .error failure := by
  induction bodies generalizing g with
  | nil => cases h
  | cons body rest ih =>
    cases hresult : (g.addRule type body).result with
    | error refusal =>
      rw [addRules_cons_of_error hresult] at h ⊢
      obtain rfl := Except.error.inj h
      exact ⟨[], body, rest, rfl, .nil g, hresult⟩
    | ok added =>
      rw [addRules_cons_of_ok hresult] at h ⊢
      have hrest : ((g.addRule type body).state.addRules type rest).result = .error failure := by
        rcases hanswer : ((g.addRule type body).state.addRules type rest).result with refusal | ids
        · rw [Edit.map, hanswer] at h
          exact h
        · rw [Edit.map, hanswer] at h
          cases h
      obtain ⟨before, refused, after, rfl, hbefore, hrefused⟩ := ih hrest
      exact ⟨body :: before, refused, after, rfl, .cons hresult hbefore, hrefused⟩

/-! ### Merging -/

/-- Why a merge fails: the grammars disagree about having probabilities, or a constraint of the other
one does not fit it while those before it do. -/
inductive MergeFault (g other : Grammar) : Failure → Prop
  | mismatch (hmodes : g.isProbabilistic ≠ other.isProbabilistic) (hother : other.isEmpty = false)
      (hg : g.isEmpty = false) : MergeFault g other (.reported .probabilityMismatch)
  | constraint {before after : List Constraint} {c : Constraint} {failure : Failure}
      (hmodes : g.isProbabilistic = other.isProbabilistic ∨ other.isEmpty = true ∨ g.isEmpty = true)
      (hsplit : other.constraints = before ++ c :: after)
      (hvalid : ∀ valid ∈ before, other.checkConstraint valid = .ok ())
      (hinvalid : other.checkConstraint c = .error failure) : MergeFault g other failure

/-- The checks of a merge succeed, and behind them it stops at a rule that has no weight to take along. -/
structure MissesWeight (g other : Grammar) (failure : Failure) : Prop where
  modes : g.isProbabilistic = other.isProbabilistic ∨ other.isEmpty = true ∨ g.isEmpty = true
  valid : other.checkConstraints other.constraints = .ok ()
  lacks : LacksWeight (g.mergeStart other) other ((List.range other.size).map RuleId.mk) failure

/-- Checking constraints fails at the first one that does not fit. -/
theorem checkConstraints_eq_error_iff {constraints : List Constraint} :
    g.checkConstraints constraints = .error failure ↔
      ∃ before c after, constraints = before ++ c :: after ∧
        (∀ valid ∈ before, g.checkConstraint valid = .ok ()) ∧
        g.checkConstraint c = .error failure := by
  induction constraints with
  | nil =>
    constructor
    · exact nofun
    · rintro ⟨before, c, after, hsplit, -⟩
      simp at hsplit
  | cons first rest ih =>
    rw [checkConstraints]
    cases hfirst : g.checkConstraint first with
    | error refusal =>
      constructor
      · intro h
        obtain rfl := Except.error.inj h
        exact ⟨[], first, rest, rfl, nofun, hfirst⟩
      · rintro ⟨before, c, after, hsplit, hvalid, hinvalid⟩
        cases before with
        | nil =>
          obtain ⟨rfl, rfl⟩ := List.cons.inj hsplit
          exact hfirst.symm.trans hinvalid
        | cons valid before =>
          obtain ⟨rfl, rfl⟩ := List.cons.inj hsplit
          rw [hvalid first List.mem_cons_self] at hfirst
          cases hfirst
    | ok _ =>
      rw [ok_bind, ih]
      constructor
      · rintro ⟨before, c, after, rfl, hvalid, hinvalid⟩
        exact ⟨first :: before, c, after, rfl, List.forall_mem_cons.mpr ⟨hfirst, hvalid⟩, hinvalid⟩
      · rintro ⟨before, c, after, hsplit, hvalid, hinvalid⟩
        cases before with
        | nil =>
          obtain ⟨rfl, rfl⟩ := List.cons.inj hsplit
          rw [hinvalid] at hfirst
          cases hfirst
        | cons valid before =>
          obtain ⟨rfl, rfl⟩ := List.cons.inj hsplit
          exact ⟨before, c, after, rfl, (List.forall_mem_cons.mp hvalid).2, hinvalid⟩

/-- A merge that has a reason to fail does nothing but fail. -/
theorem MergeFault.merge_eq (h : MergeFault g other failure) :
    g.merge other = .failed g failure := by
  rw [Grammar.merge_eq]
  cases h with
  | mismatch hmodes hother hg =>
    rw [if_pos (by simp [hmodes, hother, hg])]
    rfl
  | constraint hmodes hsplit hvalid hinvalid =>
    rw [modes_agree_iff.mpr hmodes, if_neg Bool.false_ne_true,
      checkConstraints_eq_error_iff.mpr ⟨_, _, _, hsplit, hvalid, hinvalid⟩]

/-- Appending the rows of the other grammar fails exactly where a weight is missing. -/
theorem Consistent.mergeRows_weightedRows_eq_error_iff (h : Consistent g) :
    (g.mergeStart other).mergeRows other.weightedRows = .error failure ↔
      LacksWeight (g.mergeStart other) other ((List.range other.size).map RuleId.mk) failure := by
  rw [weightedRows_eq]
  exact (h.mergeStart other).mergeRows_eq_error_iff

/-- So does a merge that misses a weight. -/
theorem MissesWeight.merge_eq (h : MissesWeight g other failure) (hg : Consistent g) :
    g.merge other = .failed g failure := by
  rw [Grammar.merge_eq, modes_agree_iff.mpr h.modes, if_neg Bool.false_ne_true, h.valid,
    hg.mergeRows_weightedRows_eq_error_iff.mpr h.lacks]

/-- Merging succeeds behind its checks when the rules are appended: nothing else that is done to the table
can fail. -/
theorem Consistent.isOk_merge_of_rows {appended : List (Option RuleId) × Grammar} (h : Consistent g)
    (hmodes : (g.isProbabilistic != other.isProbabilistic && !other.isEmpty && !g.isEmpty) = false)
    (hvalid : other.checkConstraints other.constraints = .ok ())
    (hrows : (g.mergeStart other).mergeRows other.weightedRows = .ok appended) :
    ∃ mapping, (g.merge other).result = .ok mapping := by
  obtain ⟨mapping, grown⟩ := appended
  have hstart := h.mergeStart other
  have hindexed : Indexed grown := by
    rw [weightedRows_eq] at hrows
    exact (hstart.merges hrows).indexed hstart.toIndexed
  rw [Grammar.merge_eq, hmodes, hvalid, hrows]
  dsimp only
  rw [hindexed.result_mergeWeighted g other]
  exact ⟨mapping, rfl⟩

/-- A merge fails for the reasons that it checks and for missing weights. -/
theorem Consistent.merge_eq_error_iff (h : Consistent g) : (g.merge other).result = .error failure ↔
    MergeFault g other failure ∨ MissesWeight g other failure := by
  constructor
  · intro herror
    cases hmodes : g.isProbabilistic != other.isProbabilistic && !other.isEmpty && !g.isEmpty with
    | true =>
      rw [Grammar.merge_eq, if_pos hmodes] at herror
      obtain rfl := Except.error.inj herror
      simp only [Bool.and_eq_true, bne_iff_ne, Bool.not_eq_true'] at hmodes
      exact .inl (.mismatch hmodes.1.1 hmodes.1.2 hmodes.2)
    | false =>
      have hagree := modes_agree_iff.mp hmodes
      cases hvalid : other.checkConstraints other.constraints with
      | error refusal =>
        rw [Grammar.merge_eq, hmodes, hvalid] at herror
        obtain rfl := Except.error.inj herror
        obtain ⟨before, c, after, hsplit, hbefore, hinvalid⟩ :=
          checkConstraints_eq_error_iff.mp hvalid
        exact .inl (.constraint hagree hsplit hbefore hinvalid)
      | ok _ =>
        cases hrows : (g.mergeStart other).mergeRows other.weightedRows with
        | error missing =>
          rw [Grammar.merge_eq, hmodes, hvalid, hrows] at herror
          obtain rfl := Except.error.inj herror
          exact .inr ⟨hagree, hvalid, h.mergeRows_weightedRows_eq_error_iff.mp hrows⟩
        | ok appended =>
          obtain ⟨mapping, hmapping⟩ := h.isOk_merge_of_rows hmodes hvalid hrows
          rw [hmapping] at herror
          cases herror
  · rintro (hfault | hmisses)
    · rw [hfault.merge_eq]
      rfl
    · rw [hmisses.merge_eq h]
      rfl

/-- No weight is missing where there is one for each row. -/
theorem Indexed.not_missesWeight (hother : Indexed other) (g : Grammar) (failure : Failure) :
    ¬ MissesWeight g other failure := by
  rintro ⟨-, -, -, r, -, -, -, rule, -, -, hr, -, hmissing⟩
  obtain ⟨weight, hweight⟩ := hother.isOk_carriedWeight (index_lt_of_ruleAt? hr)
  rw [hweight] at hmissing
  cases hmissing

/-- Merging succeeds behind its checks when there is a weight for each row of the other grammar. -/
theorem Consistent.isOk_merge (h : Consistent g) (hother : Indexed other)
    (hmodes : (g.isProbabilistic != other.isProbabilistic && !other.isEmpty && !g.isEmpty) = false)
    (hvalid : other.checkConstraints other.constraints = .ok ()) :
    ∃ mapping, (g.merge other).result = .ok mapping := by
  cases hrows : (g.mergeStart other).mergeRows other.weightedRows with
  | ok appended => exact h.isOk_merge_of_rows hmodes hvalid hrows
  | error failure =>
    have hlacks := h.mergeRows_weightedRows_eq_error_iff.mp hrows
    exact absurd ⟨modes_agree_iff.mp hmodes, hvalid, hlacks⟩ (hother.not_missesWeight g failure)

/-- Whatever the other grammar is, a merge that fails changes nothing. -/
theorem Consistent.keeps_merge (h : Consistent g) (other : Grammar) : (g.merge other).Keeps g := by
  intro failure herror
  rcases h.merge_eq_error_iff.mp herror with hfault | hmisses
  · rw [hfault.merge_eq]
    rfl
  · rw [hmisses.merge_eq h]
    rfl

/-! ### All changes -/

/-- What is left of a grammar when a change of it fails. -/
structure FailsUnchanged (g : Grammar) : Prop where
  /-- A rule that is refused changes nothing. -/
  addRule : ∀ type body, (g.addRule type body).Keeps g
  /-- Neither does an immediate rule that is refused. -/
  addImmediateRule : ∀ type body, (g.addImmediateRule type body).Keeps g
  /-- Failing to take a rule out changes nothing. -/
  removeRule : ∀ r, (g.removeRule r).Keeps g
  /-- A constraint that is refused changes nothing. -/
  addConstraint : ∀ c, (g.addConstraint c).Keeps g
  /-- A merge that fails changes nothing. -/
  merge : ∀ other, (g.merge other).Keeps g
  /-- A merge with a grammar that can come about fails for exactly the reasons that it checks at first. -/
  merge_iff : ∀ other, Reachable other → ∀ failure,
    (g.merge other).result = .error failure ↔ MergeFault g other failure
  /-- With any other grammar it fails for these reasons, or for a weight that is missing there. -/
  merge_iff_of_any : ∀ other failure, (g.merge other).result = .error failure ↔
    MergeFault g other failure ∨ MissesWeight g other failure
  /-- When one of several rules is refused, the rules before it were added one by one. -/
  addRules : ∀ type bodies failure, (g.addRules type bodies).result = .error failure →
    ∃ before body after, bodies = before ++ body :: after ∧
      AddsEach type g before (g.addRules type bodies).state ∧
      ((g.addRules type bodies).state.addRule type body).result = .error failure

/-- A change of a grammar that can come about changes nothing when it fails, except that adding several
rules keeps those before the first one that is refused. -/
theorem Reachable.fails_unchanged (h : Reachable g) : FailsUnchanged g where
  addRule := g.keeps_addRule
  addImmediateRule := g.keeps_addImmediateRule
  removeRule := g.keeps_removeRule
  addConstraint := g.keeps_addConstraint
  merge := h.consistent.keeps_merge
  merge_iff other hother failure := by
    rw [h.consistent.merge_eq_error_iff, or_iff_left (hother.consistent.not_missesWeight g failure)]
  merge_iff_of_any _ _ := h.consistent.merge_eq_error_iff
  addRules _ _ _ herror := addRules_of_error herror

/-- Two numbers that exclude each other, after the second was taken out. -/
def staleConstraint : Grammar :=
  (((empty.addRules "N" [.lit (.int 1), .lit (.int 2)]).state.addConstraint
    (.forbidden [⟨0⟩, ⟨1⟩])).state.removeRule ⟨1⟩).state

/-- The constraint does not fit its grammar any more, so a merge with a copy fails and changes
nothing. -/
theorem staleConstraint_fails_unchanged : Reachable staleConstraint ∧
    (staleConstraint.merge staleConstraint).result = .error (.reported (.removedRule ⟨1⟩)) ∧
    FailsUnchanged staleConstraint ∧ (staleConstraint.merge staleConstraint).state = staleConstraint := by
  have hreachable : Reachable staleConstraint :=
    ((Reachable.empty.addRules _ _).addConstraint _).removeRule _
  have herror : (staleConstraint.merge staleConstraint).result =
      .error (.reported (.removedRule ⟨1⟩)) := by cbv
  have hunchanged := hreachable.fails_unchanged
  exact ⟨hreachable, herror, hunchanged, hunchanged.merge _ _ herror⟩

/-! ### Rules with probabilities -/

/-- The grammar that a rule with a probability is added to: a plain one without rows becomes
probabilistic before the arguments are looked at. -/
def weightedStart (g : Grammar) : Grammar :=
  if !g.isProbabilistic && g.isEmpty then { g with weights := some #[] } else g

/-- A grammar with probabilities, or with rows, stays as it is. -/
theorem weightedStart_eq_self (h : g.isProbabilistic = true ∨ g.isEmpty = false) :
    g.weightedStart = g := by
  rw [weightedStart]
  rcases h with hprobabilistic | hrows
  · rw [hprobabilistic]
    rfl
  · rw [hrows, Bool.and_false]
    rfl

/-- A plain grammar without rows gets an empty list of weights. -/
theorem weightedStart_of_isEmpty (hplain : g.isProbabilistic = false) (hempty : g.isEmpty = true) :
    g.weightedStart = { g with weights := some #[] } := by
  rw [weightedStart, hplain, hempty]
  rfl

/-- Whatever is wrong with a rule that has a probability, the grammar that it is added to stays. -/
theorem keeps_addRuleWithProbability (g : Grammar) (p : Float) (type : String) (body : Expr) :
    (g.addRuleWithProbability p type body).Keeps g.weightedStart := by
  unfold addRuleWithProbability
  split
  · rename_i hrows
    rw [Bool.and_eq_true, Bool.not_eq_true', Bool.not_eq_true'] at hrows
    rw [weightedStart_eq_self (.inr hrows.2)]
    exact Edit.keeps_failed g _
  · rename_i hagree
    have hstart : (if g.isProbabilistic then g else { g with weights := some #[] }) =
        g.weightedStart := by
      split
      · rename_i hprobabilistic
        exact (weightedStart_eq_self (.inl hprobabilistic)).symm
      · rename_i hplain
        rw [Bool.not_eq_true] at hplain
        exact (weightedStart_of_isEmpty hplain (by simpa [hplain] using hagree)).symm
    dsimp only
    rw [hstart]
    split
    · exact g.weightedStart.keeps_addEntry type body false _
    · exact Edit.keeps_failed _ _

/-- A faulty rule is refused whatever its probability. -/
theorem addRuleWithProbability_of_ruleFault {fault : RuleFault} {body : Expr} (g : Grammar)
    (p : Float) (h : ruleFault? type body = some fault) :
    ∃ failure, (g.addRuleWithProbability p type body).result = .error failure := by
  unfold addRuleWithProbability
  split
  · exact ⟨_, rfl⟩
  · dsimp only
    split
    · rw [addEntry, h]
      exact ⟨_, rfl⟩
    · exact ⟨_, rfl⟩

/-- A grammar that has probabilities or rows is as before when it refuses a rule with a probability. A
plain grammar without rows becomes probabilistic by the refusal, and refuses ordinary rules from then
on. -/
theorem addRuleWithProbability_refused {p : Float} {body : Expr}
    (h : (g.addRuleWithProbability p type body).result = .error failure) :
    (g.isProbabilistic = true ∨ g.isEmpty = false →
      (g.addRuleWithProbability p type body).state = g) ∧
    (g.isProbabilistic = false → g.isEmpty = true →
      (g.addRuleWithProbability p type body).state = { g with weights := some #[] } ∧
      ∀ type' body', ((g.addRuleWithProbability p type body).state.addRule type' body').result =
        .error (.reported .probabilityMismatch)) := by
  rw [g.keeps_addRuleWithProbability p type body failure h]
  refine ⟨weightedStart_eq_self, fun hplain hempty => ?_⟩
  rw [weightedStart_of_isEmpty hplain hempty]
  exact ⟨rfl, fun _ _ => rfl⟩

/-- A rule without a type is refused. A probabilistic grammar without rules is as before by that, and a
plain one has become probabilistic. -/
theorem blank_addRuleWithProbability_refused :
    (∃ failure, (emptyProbabilistic.addRuleWithProbability 0.5 " " (.lit (.int 1))).result =
      .error failure) ∧
    (emptyProbabilistic.addRuleWithProbability 0.5 " " (.lit (.int 1))).state = emptyProbabilistic ∧
    (∃ failure, (empty.addRuleWithProbability 0.5 " " (.lit (.int 1))).result = .error failure) ∧
    (empty.addRuleWithProbability 0.5 " " (.lit (.int 1))).state = emptyProbabilistic := by
  have hblank : ruleFault? " " (.lit (.int 1)) = some .blankType := by cbv
  obtain ⟨failure, herror⟩ := addRuleWithProbability_of_ruleFault emptyProbabilistic 0.5 hblank
  obtain ⟨failure', herror'⟩ := addRuleWithProbability_of_ruleFault empty 0.5 hblank
  exact ⟨⟨failure, herror⟩, (addRuleWithProbability_refused herror).1 (.inl rfl),
    ⟨failure', herror'⟩, ((addRuleWithProbability_refused herror').2 rfl rfl).1⟩

/-- The grammar without rules takes an ordinary rule, but no longer after it refused a rule with a
probability. -/
theorem empty_addRuleWithProbability_lasting : Reachable empty ∧
    (∃ failure, (empty.addRuleWithProbability 0.5 "" (.lit (.int 1))).result = .error failure) ∧
    (empty.addRuleWithProbability 0.5 "" (.lit (.int 1))).state ≠ empty ∧
    (empty.addRule "A" (.lit (.int 1))).result = .ok (some ⟨0⟩) ∧
    ((empty.addRuleWithProbability 0.5 "" (.lit (.int 1))).state.addRule "A" (.lit (.int 1))).result =
      .error (.reported .probabilityMismatch) := by
  obtain ⟨failure, herror⟩ := addRuleWithProbability_of_ruleFault empty 0.5
    (by cbv : ruleFault? "" (.lit (.int 1)) = some .blankType)
  rw [keeps_addRuleWithProbability _ _ _ _ failure herror]
  refine ⟨.empty, ⟨failure, herror⟩, fun hsame => ?_, by cbv, rfl⟩
  cases congrArg weights hsame

end Grammar

end TypedGrammar
