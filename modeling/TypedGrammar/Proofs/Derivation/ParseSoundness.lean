import TypedGrammar.Proofs.Derivation.Filling
import TypedGrammar.Proofs.Derivation.ParseCalls

/-!
# Parsing is sound

A search for a tree of a type gives an answer, never a failure, and a tree that it finds is a complete
derivation of the type. The tree stands for the expression that was searched for, up to named
constants: a rule body that mentions a constant matches the name as well as the literal, and the tree
stands for the literal.
-/

namespace TypedGrammar.Grammar

mutual

/-- The expression with the literal in place of every symbol that names a constant and no type. -/
def resolveConstants (g : Grammar) : Expr → Expr
  | .lit value => .lit value
  | .sym name =>
    if g.hasType name then .sym name
    else match g.symbols.constant name with
      | some value => .lit value
      | none => .sym name
  | .call op args => .call op (g.resolveConstantsOfArgs args)

/-- The arguments with the literal in place of every symbol that names a constant and no type. -/
def resolveConstantsOfArgs (g : Grammar) : List Expr → List Expr
  | [] => []
  | arg :: rest => g.resolveConstants arg :: g.resolveConstantsOfArgs rest

end

mutual

/-- An expression without named constants is left as it is. -/
theorem resolveConstants_eq_self (g : Grammar) : ∀ e : Expr,
    (∀ name ∈ e.symbols, g.hasType name = true ∨ g.symbols.constant name = none) →
      g.resolveConstants e = e
  | .lit _, _ => rfl
  | .sym name, h => by
    rw [resolveConstants]
    rcases h name List.mem_cons_self with htype | hvalue
    · rw [if_pos htype]
    · rw [hvalue, ite_self]
  | .call _ args, h => by rw [resolveConstants, resolveConstantsOfArgs_eq_self g args h]

/-- Arguments without named constants are left as they are. -/
theorem resolveConstantsOfArgs_eq_self (g : Grammar) : ∀ args : List Expr,
    (∀ name ∈ Expr.symbolsOfArgs args, g.hasType name = true ∨ g.symbols.constant name = none) →
      g.resolveConstantsOfArgs args = args
  | [], _ => rfl
  | arg :: rest, h => by
    rw [resolveConstantsOfArgs,
      resolveConstants_eq_self g arg fun name hname => h name (List.mem_append_left _ hname),
      resolveConstantsOfArgs_eq_self g rest fun name hname => h name (List.mem_append_right _ hname)]

end

variable {g : Grammar} {type : String} {e : Expr}

/-- The tree is a complete derivation of the type that stands for the expression, up to constants. -/
structure Derives (g : Grammar) (type : String) (e : Expr) (t : Tree) : Prop where
  complete : Complete g type t
  stands : g.toExpression t = .ok (g.resolveConstants e)

/-- The trees fill the places of a body, and the body filled by them is the expression, up to
constants. -/
structure Matches (g : Grammar) (body e : Expr) (children : List Tree) : Prop where
  complete : List.Forall₂ (Complete g) (g.places body) children
  filled : ∃ es, StandFor g children es ∧ Fills g body es (g.resolveConstants e)

/-- The trees fill the places of arguments, and the arguments filled by them are the expressions, up
to constants. -/
structure MatchesArgs (g : Grammar) (args others : List Expr) (children : List Tree) : Prop where
  complete : List.Forall₂ (Complete g) (g.placesOfArgs args) children
  filled : ∃ es, StandFor g children es ∧ FillsArgs g args es (g.resolveConstantsOfArgs others)

/-- A search gave an answer, and what it found, if anything, is right. -/
def Answers {α : Type} (right : α → Prop) (answer : Except Failure (Option α)) : Prop :=
  ∃ found, answer = .ok found ∧ ∀ a, found = some a → right a

/-- To find nothing is no wrong answer. -/
theorem Answers.none {α : Type} {right : α → Prop} : Answers right (.ok none) := ⟨_, rfl, nofun⟩

/-- To find something that is right is no wrong answer. -/
theorem Answers.some {α : Type} {right : α → Prop} {a : α} (h : right a) :
    Answers right (.ok (some a)) :=
  ⟨_, rfl, fun _ ha => Option.some.inj ha ▸ h⟩

/-- An answer is passed on when what it found is turned into something right. -/
theorem Answers.map {α β : Type} {right : α → Prop} {right' : β → Prop}
    {answer : Except Failure (Option α)} (h : Answers right answer) (f : α → β)
    (hf : ∀ a, right a → right' (f a)) :
    Answers right' (answer >>= fun found => pure (found.map f)) := by
  obtain ⟨found, rfl, hright⟩ := h
  refine ⟨found.map f, rfl, fun b hb => ?_⟩
  obtain ⟨a, ha, rfl⟩ := Option.map_eq_some_iff.mp hb
  exact hf a (hright a ha)

/-- A symbol that names no type matches without children. -/
theorem Matches.of_symbol {name : String} (htype : g.hasType name = false)
    (h : Fills g (.sym name) [] (g.resolveConstants e)) : Matches g (.sym name) e [] where
  complete := by
    rw [places_symbol htype]
    exact .nil
  filled := ⟨[], .nil, h⟩

/-- A symbol that names no type stands for its constant or for itself, without a child. -/
theorem fills_resolveConstants_symbol {name : String} (htype : g.hasType name = false) :
    Fills g (.sym name) [] (g.resolveConstants (.sym name)) := by
  rw [resolveConstants, if_neg (by simp [htype])]
  cases hvalue : g.symbols.constant name with
  | some value => exact .constant htype hvalue
  | none => exact .variable htype hvalue

section MatchBody

variable {matchType : String → Expr → List String → Except Failure (Option Tree)}

mutual

/-- Matching a body gives an answer, and children that it finds are right, if this holds of the search
for a tree of a type. -/
theorem matchBody_answers (g : Grammar)
    (hsearch : ∀ type e visiting, Answers (Derives g type e) (matchType type e visiting)) :
    ∀ (body e : Expr) (visiting : List String),
      Answers (Matches g body e) (matchBody g matchType body e visiting)
  | .lit value, e, visiting => by
    rw [matchBody]
    split
    · rename_i heq
      subst heq
      exact .some ⟨.nil, [], .nil, .lit value⟩
    · exact .none
  | .sym name, e, visiting => by
    cases htype : g.hasType name with
    | true =>
      rw [matchBody_place htype]
      refine (hsearch name e visiting).map (fun child => [child]) fun child hchild => ?_
      refine ⟨?_, [g.resolveConstants e], .cons hchild.stands .nil, .place htype _⟩
      rw [places_type htype]
      exact .cons hchild.complete .nil
    | false =>
      rw [matchBody_symbol htype]
      split
      · rename_i hmatch
        refine .some (.of_symbol htype ?_)
        rcases hmatch with hconstant | rfl
        · obtain ⟨value, hvalue, rfl⟩ := Option.map_eq_some_iff.mp hconstant
          exact .constant htype hvalue
        · exact fills_resolveConstants_symbol htype
      · exact .none
  | .call op args, e, visiting => by
    cases e with
    | lit value => exact .none
    | sym name => exact .none
    | call op' args' =>
      rw [matchBody]
      split
      · rename_i heq
        simp only [Bool.and_eq_true, decide_eq_true_iff] at heq
        obtain ⟨rfl, hlength⟩ := heq
        obtain ⟨found, hfound, hright⟩ := matchArgs_answers g hsearch args args' hlength
        refine ⟨found, hfound, fun children hchildren => ?_⟩
        obtain ⟨hcomplete, es, hes, hfills⟩ := hright children hchildren
        exact ⟨hcomplete, es, hes, .call op hfills⟩
      · exact .none

/-- The same for a list of arguments and as many expressions. -/
theorem matchArgs_answers (g : Grammar)
    (hsearch : ∀ type e visiting, Answers (Derives g type e) (matchType type e visiting)) :
    ∀ (args others : List Expr), args.length = others.length →
      Answers (MatchesArgs g args others) (matchArgs g matchType args others)
  | [], [], _ => .some ⟨.nil, [], .nil, .nil⟩
  | arg :: rest, e :: others, hlength => by
    rw [matchArgs]
    obtain ⟨found, hfound, hright⟩ := matchBody_answers g hsearch arg e []
    rw [hfound, ok_bind]
    cases found with
    | none => exact .none
    | some children =>
      have hfirst := hright children rfl
      refine (matchArgs_answers g hsearch rest others (Nat.succ.inj hlength)).map _ fun later hlater => ?_
      obtain ⟨es, hes, hfills⟩ := hfirst.filled
      obtain ⟨es', hes', hfills'⟩ := hlater.filled
      refine ⟨?_, es ++ es', List.rel_append hes hes', .cons hfills hfills'⟩
      rw [placesOfArgs_cons]
      exact List.rel_append hfirst.complete hlater.complete

end

/-- Trying the ordinary rules of a list that all derive a type gives an answer, and a tree that it
finds is right. -/
theorem matchOrdinary_answers (hg : Consistent g)
    (hsearch : ∀ type e visiting, Answers (Derives g type e) (matchType type e visiting))
    (visiting : List String) {rules : List RuleId}
    (hrules : ∀ r ∈ rules, ∃ rule, g.ruleAt? r = some rule ∧ rule.type = type) :
    Answers (Derives g type e) (matchOrdinary g matchType e visiting rules) := by
  induction rules with
  | nil => exact .none
  | cons r rest ih =>
    have hrest := ih fun s hs => hrules s (List.mem_cons_of_mem _ hs)
    obtain ⟨rule, hr, rfl⟩ := hrules r List.mem_cons_self
    rw [matchOrdinary, isImmediate_of_ruleAt? hr, ok_bind]
    cases hordinary : rule.immediate with
    | true => exact hrest
    | false =>
      obtain ⟨found, hfound, hright⟩ := matchBody_answers g hsearch rule.body e visiting
      simp only [Bool.false_eq_true, if_false, body_of_ruleAt? hr, ok_bind, hfound]
      cases found with
      | none => exact hrest
      | some children =>
        obtain ⟨hcomplete, es, hes, hfills⟩ := hright children rfl
        refine .some ⟨.of_children hr hordinary ?_, toExpression_apply hg hr hordinary hes hfills⟩
        rwa [hg.childTypes_eq_places hr hordinary]

end MatchBody

/-- The search for an immediate rule in a list of rules of the table gives an answer, and a rule that
it finds is an immediate one of the list. -/
theorem firstImmediate?_answers {rules : List RuleId}
    (hrules : ∀ r ∈ rules, ∃ rule, g.ruleAt? r = some rule ∧ rule.type = type) :
    Answers (fun r => ∃ rule, g.ruleAt? r = some rule ∧ rule.type = type ∧ rule.immediate = true)
      (g.firstImmediate? rules) := by
  induction rules with
  | nil => exact .none
  | cons r rest ih =>
    obtain ⟨rule, hr, htype⟩ := hrules r List.mem_cons_self
    rw [firstImmediate?, isImmediate_of_ruleAt? hr, ok_bind]
    cases himmediate : rule.immediate with
    | true => exact .some ⟨rule, hr, htype, himmediate⟩
    | false => exact ih fun s hs => hrules s (List.mem_cons_of_mem _ hs)

/-- The same for the node that holds the literal. -/
theorem matchImmediate_answers {rules : List RuleId}
    (hrules : ∀ r ∈ rules, ∃ rule, g.ruleAt? r = some rule ∧ rule.type = type) :
    Answers (Derives g type e) (g.matchImmediate rules e) := by
  cases e with
  | lit value =>
    refine (firstImmediate?_answers hrules).map _ fun r hr => ?_
    obtain ⟨rule, hr, rfl, himmediate⟩ := hr
    exact ⟨.immediate hr himmediate value, rfl⟩
  | sym name => exact .none
  | call op args => exact .none

/-- A search for a tree of a type gives an answer, and a tree that it finds is right. -/
theorem matchType_answers (hg : Consistent g) (fuel : Nat) (type : String) (e : Expr)
    (visiting : List String) : Answers (Derives g type e) (g.matchType fuel type e visiting) := by
  induction fuel generalizing type e visiting with
  | zero => exact .none
  | succ fuel ih =>
    rw [matchType]
    split
    · exact .none
    · cases hentry : g.types.get? type with
      | none => exact .none
      | some entry =>
        have hrules := fun r => (hg.rules_of_entry hentry r).mp
        obtain ⟨found, hfound, hright⟩ := matchOrdinary_answers (e := e) hg ih (type :: visiting) hrules
        dsimp only
        rw [hfound, ok_bind]
        cases found with
        | some t => exact .some (hright t rfl)
        | none => exact matchImmediate_answers hrules

/-- Parsing by a type of the grammar finds a tree or reports that there is no matching rule, and a
tree that it finds is right. -/
theorem Consistent.fromExpression_answers (hg : Consistent g) (htype : g.hasType type = true)
    (e : Expr) :
    (∃ t, g.fromExpression e type = .ok t ∧ Derives g type e t) ∨
      g.fromExpression e type = report (.noMatchingRule type e) := by
  obtain ⟨found, hfound, hright⟩ := matchType_answers hg (g.parseFuel e) type e []
  rw [fromExpression, if_pos htype, hfound, ok_bind]
  cases found with
  | some t => exact .inl ⟨t, rfl, hright t rfl⟩
  | none => exact .inr rfl

/-- Parsing reports a type that is not known. -/
theorem fromExpression_unknown (htype : g.hasType type = false) (e : Expr) :
    g.fromExpression e type = report (.unknownType type) := by
  rw [fromExpression, if_neg (by simp [htype])]

/-- A tree that parsing gives is a complete derivation that stands for the expression, up to
constants. -/
theorem Consistent.derives_of_fromExpression (hg : Consistent g) {t : Tree}
    (h : g.fromExpression e type = .ok t) : Derives g type e t := by
  obtain ⟨found, hfound, hright⟩ := matchType_answers hg (g.parseFuel e) type e []
  obtain rfl := Except.ok.inj (hfound.symm.trans (fromExpression_eq_ok_iff.mp h))
  exact hright t rfl

/-- Parsing reports an unknown type, and otherwise finds a tree or reports that no rule matches. A
tree that it finds is a complete derivation of the type, and stands for the expression with every
named constant replaced by its literal. -/
theorem Reachable.fromExpression_sound (h : Reachable g) (e : Expr) (type : String) :
    (g.hasType type = false → g.fromExpression e type = report (.unknownType type)) ∧
    (g.hasType type = true → (∃ t, g.fromExpression e type = .ok t) ∨
      g.fromExpression e type = report (.noMatchingRule type e)) ∧
    ∀ t, g.fromExpression e type = .ok t →
      Complete g type t ∧ t.containsHole = false ∧ g.isComplete t = .ok true ∧
      g.toExpression t = .ok (g.resolveConstants e) ∧
      ((∀ name ∈ e.symbols, g.hasType name = true ∨ g.symbols.constant name = none) →
        g.toExpression t = .ok e) := by
  refine ⟨fun htype => fromExpression_unknown htype e, fun htype => ?_, fun t ht => ?_⟩
  · rcases h.consistent.fromExpression_answers htype e with ⟨t, ht, -⟩ | hnone
    · exact .inl ⟨t, ht⟩
    · exact .inr hnone
  · have hderives := h.consistent.derives_of_fromExpression ht
    refine ⟨hderives.complete, hderives.complete.containsHole_eq_false,
      hderives.complete.isComplete_eq_true, hderives.stands, fun hconstants => ?_⟩
    rw [hderives.stands, resolveConstants_eq_self g e hconstants]

/-- Sums of ones and of a named constant. -/
def sums : Grammar :=
  (((empty.withSymbols (.ofList [("two", .int 2)])).addRule "N" (.lit (.int 1))).state.addRule "N"
    (.call "+" [.sym "N", .sym "two"])).state

/-- A sum that names the constant is parsed, and the tree stands for the sum with its literal. -/
theorem sums_fromExpression_sound :
    Reachable sums ∧
    sums.fromExpression (.call "+" [.lit (.int 1), .sym "two"]) "N" =
      .ok (.apply ⟨1⟩ [.apply ⟨0⟩ []]) ∧
    Complete sums "N" (.apply ⟨1⟩ [.apply ⟨0⟩ []]) ∧
    sums.toExpression (.apply ⟨1⟩ [.apply ⟨0⟩ []]) =
      .ok (.call "+" [.lit (.int 1), .lit (.int 2)]) := by
  have hreachable : Reachable sums := ((Reachable.empty.withSymbols _).addRule _ _).addRule _ _
  have hparse : sums.fromExpression (.call "+" [.lit (.int 1), .sym "two"]) "N" =
      .ok (.apply ⟨1⟩ [.apply ⟨0⟩ []]) := by cbv
  obtain ⟨hcomplete, -, -, hstands, -⟩ :=
    (hreachable.fromExpression_sound (.call "+" [.lit (.int 1), .sym "two"]) "N").2.2 _ hparse
  refine ⟨hreachable, hparse, hcomplete, hstands.trans ?_⟩
  cbv

end TypedGrammar.Grammar
