import TypedGrammar.Proofs.Derivation.Counting
import TypedGrammar.Proofs.Derivation.ParseCompleteness
import TypedGrammar.Proofs.Grammar.Renaming
import TypedGrammar.Proofs.Grammar.SameRules

/-!
# Derivations by the same rules

Grammars with the same rules have the same numbers of derivations, since a sum does not depend on the
order of its terms. They also parse the same expressions. The first rule that matches need not be the
same, nor the tree that is found; but where one grammar finds a tree the other finds one, and both trees
stand for the same expression.
-/

namespace TypedGrammar.Grammar

variable {g g' : Grammar} {rules : List RuleId} {type : String} {e : Expr} {visiting : List String}

/-! ### Numbers of derivations -/

/-- The recurrence over the rules of a type instead of their names. -/
theorem derivationCount_succ (g : Grammar) (depth : Nat) (type : String) :
    g.derivationCount (depth + 1) type = (((g.rulesOrNone type).map g.ruleAt?).map fun row =>
      (((row.map Rule.childTypes).getD []).map (g.derivationCount depth)).prod).sum := by
  rw [derivationCount, List.map_map]
  rfl

/-- The recurrence for counts is the same. -/
theorem SameRules.derivationCount_eq (h : SameRules g g') (depth : Nat) :
    g'.derivationCount depth = g.derivationCount depth := by
  induction depth with
  | zero => rfl
  | succ depth ih =>
    funext type
    rw [derivationCount_succ, derivationCount_succ, ih]
    exact ((h.rulesOrNone_perm type).map _).sum_eq

/-- There are as many derivations of each type and depth. -/
theorem SameRules.countDerivations_eq (h : SameRules g g') (type : String) (depth : Nat) :
    g'.countDerivations type depth = g.countDerivations type depth := by
  have htype' := h.hasType_eq type
  cases htype : g.hasType type with
  | true =>
    rw [htype] at htype'
    rw [h.consistent.countDerivations_eq htype, h.consistent'.countDerivations_eq htype',
      h.derivationCount_eq]
  | false =>
    rw [countDerivations, countDerivations, if_neg (by simp [htype', htype]),
      if_neg (by simp [htype])]

/-! ### What a search goes by -/

/-- The search found something. -/
def Finds {α : Type} (answer : Except Failure (Option α)) : Prop := ∃ a, answer = .ok (some a)

section MatchedBy

variable {search search' : String → Expr → List String → Except Failure (Option Tree)}

mutual

/-- Where the types and the constants are the same, a body matches if it does with searches that find
less. -/
theorem MatchedBy.transfer (htypes : ∀ x, g'.hasType x = g.hasType x) (hsymbols : g'.symbols = g.symbols)
    (hsearch : ∀ type e visiting, Finds (search type e visiting) → Finds (search' type e visiting)) :
    ∀ {body e : Expr} {visiting : List String} {children : List Tree},
      MatchedBy g search body e visiting children →
        ∃ children', MatchedBy g' search' body e visiting children'
  | _, _, _, _, .lit value visiting => ⟨[], .lit value visiting⟩
  | _, _, _, _, .place htype h => by
    obtain ⟨child', h'⟩ := hsearch _ _ _ ⟨_, h⟩
    exact ⟨[child'], .place ((htypes _).trans htype) h'⟩
  | _, _, _, _, .symbol htype visiting => ⟨[], .symbol ((htypes _).trans htype) visiting⟩
  | _, _, _, _, .constant htype hvalue visiting =>
    ⟨[], .constant ((htypes _).trans htype) (hsymbols ▸ hvalue) visiting⟩
  | _, _, _, _, .call op h visiting => by
    obtain ⟨children', h'⟩ := h.transfer htypes hsymbols hsearch
    exact ⟨children', .call op h' visiting⟩

/-- The same for the arguments of a call. -/
theorem ArgsMatchedBy.transfer (htypes : ∀ x, g'.hasType x = g.hasType x)
    (hsymbols : g'.symbols = g.symbols)
    (hsearch : ∀ type e visiting, Finds (search type e visiting) → Finds (search' type e visiting)) :
    ∀ {args others : List Expr} {children : List Tree},
      ArgsMatchedBy g search args others children →
        ∃ children', ArgsMatchedBy g' search' args others children'
  | _, _, _, .nil => ⟨[], .nil⟩
  | _, _, _, .cons harg hrest => by
    obtain ⟨children', harg'⟩ := harg.transfer htypes hsymbols hsearch
    obtain ⟨later', hrest'⟩ := hrest.transfer htypes hsymbols hsearch
    exact ⟨children' ++ later', .cons harg' hrest'⟩

end

end MatchedBy

/-! ### Parsing by the same rules -/

namespace SameRules

variable (h : SameRules g g')

include h

/-- A search finds a tree if it does in the other grammar. -/
theorem matchType_finds_of (fuel : Nat) (type : String) (e : Expr) (visiting : List String)
    (hfinds : Finds (g.matchType fuel type e visiting)) :
    Finds (g'.matchType fuel type e visiting) := by
  obtain ⟨t, ht⟩ := hfinds
  induction fuel generalizing type e visiting t with
  | zero => cases ht
  | succ fuel ih =>
    obtain ⟨hfresh, ⟨r, rule, children, hr, rfl, hordinary, hmatch, -⟩ |
      ⟨r, rule, value, hr, rfl, himmediate, rfl, -⟩⟩ := h.consistent.of_searchBy ht
    · obtain ⟨r', hr'⟩ := h.exists_ruleAt? hr
      obtain ⟨children', hmatch'⟩ := hmatch.transfer h.hasType_eq h.symbols_eq
        fun type e visiting hfinds => hfinds.elim (ih type e visiting)
      exact h.consistent'.matchType_finds hfresh hr' hordinary hmatch'
    · obtain ⟨r', hr'⟩ := h.exists_ruleAt? hr
      exact h.consistent'.matchType_finds_literal hfresh hr' himmediate value

/-- A parse starts with the same fuel. -/
theorem parseFuel_eq (e : Expr) : g'.parseFuel e = g.parseFuel e := by
  rw [parseFuel, parseFuel, size_types_congr h.hasType_eq]

/-- An expression that is parsed by the one grammar is parsed by the other. -/
theorem exists_fromExpression {t : Tree} (ht : g.fromExpression e type = .ok t) :
    ∃ t', g'.fromExpression e type = .ok t' := by
  obtain ⟨t', ht'⟩ :=
    h.matchType_finds_of (g.parseFuel e) type e [] ⟨t, fromExpression_eq_ok_iff.mp ht⟩
  exact ⟨t', fromExpression_eq_ok_iff.mpr (by rw [h.parseFuel_eq, ht'])⟩

end SameRules

mutual

/-- What constants stand for depends on the types and on the constants. -/
theorem resolveConstants_congr (htypes : ∀ x, g'.hasType x = g.hasType x)
    (hsymbols : g'.symbols = g.symbols) : ∀ e : Expr, g'.resolveConstants e = g.resolveConstants e
  | .lit _ => rfl
  | .sym name => by rw [resolveConstants, resolveConstants, htypes, hsymbols]
  | .call op args => by
    rw [resolveConstants, resolveConstants, resolveConstantsOfArgs_congr htypes hsymbols args]

/-- The same for the arguments of a call. -/
theorem resolveConstantsOfArgs_congr (htypes : ∀ x, g'.hasType x = g.hasType x)
    (hsymbols : g'.symbols = g.symbols) : ∀ args : List Expr,
    g'.resolveConstantsOfArgs args = g.resolveConstantsOfArgs args
  | [] => rfl
  | arg :: rest => by
    rw [resolveConstantsOfArgs, resolveConstantsOfArgs, resolveConstants_congr htypes hsymbols arg,
      resolveConstantsOfArgs_congr htypes hsymbols rest]

end

/-- The trees that the grammars find for an expression stand for the same expression. -/
theorem SameRules.toExpression_eq (h : SameRules g g') {t t' : Tree}
    (ht : g.fromExpression e type = .ok t) (ht' : g'.fromExpression e type = .ok t') :
    ∃ e', g.toExpression t = .ok e' ∧ g'.toExpression t' = .ok e' := by
  refine ⟨g.resolveConstants e, (h.consistent.derives_of_fromExpression ht).stands, ?_⟩
  rw [← resolveConstants_congr h.hasType_eq h.symbols_eq]
  exact (h.consistent'.derives_of_fromExpression ht').stands

end TypedGrammar.Grammar
