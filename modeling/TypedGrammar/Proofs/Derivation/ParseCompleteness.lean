import TypedGrammar.Proofs.Derivation.ParseFuel
import TypedGrammar.Proofs.Derivation.ParseSoundness

/-!
# Parsing is complete

`Parses` describes what a search can find: it tells the rules whose body is a bare place, which match
the same expression by another type, from those that take the expression apart, and it never enters a
type again that is being tried. A complete derivation may run around a cycle of bare places. Cutting
such loops turns it into one that a search can find (`Parses.cut`), and then the search finds
something, since no attempt before the right one fails.
-/

namespace TypedGrammar.Grammar

variable {g : Grammar} {r : RuleId} {rule : Rule} {type name : String} {t : Tree} {e : Expr}
  {visiting : List String}

/-- Is the body anything but a bare place for a child? -/
def TakesApart (g : Grammar) (body : Expr) : Prop :=
  ∀ name, body = .sym name → g.hasType name = false

/-- A search for the type on the expression can succeed without entering a type that is being tried. -/
inductive Parses (g : Grammar) : List String → String → Expr → Prop
  | unit {visiting : List String} {r : RuleId} {rule : Rule} {name : String} {e : Expr}
      (hfresh : rule.type ∉ visiting) (hr : g.ruleAt? r = some rule)
      (hordinary : rule.immediate = false) (hbody : rule.body = .sym name)
      (htype : g.hasType name = true) (hchild : Parses g (rule.type :: visiting) name e) :
      Parses g visiting rule.type e
  | build {visiting : List String} {r : RuleId} {rule : Rule} {es : List Expr} {e : Expr}
      (hfresh : rule.type ∉ visiting) (hr : g.ruleAt? r = some rule)
      (hordinary : rule.immediate = false) (hbody : g.TakesApart rule.body)
      (hfills : Fills g rule.body es e)
      (hchildren : ∀ i (hp : i < (g.places rule.body).length) (he : i < es.length),
        Parses g [] (g.places rule.body)[i] es[i]) :
      Parses g visiting rule.type e
  | literal {visiting : List String} {r : RuleId} {rule : Rule} (hfresh : rule.type ∉ visiting)
      (hr : g.ruleAt? r = some rule) (himmediate : rule.immediate = true) (value : Value) :
      Parses g visiting rule.type (.lit value)

/-! ### Cutting loops -/

/-- A search that can succeed still can when fewer types are being tried. -/
theorem Parses.mono {fewer : List String} (h : Parses g visiting type e) (hfewer : fewer ⊆ visiting) :
    Parses g fewer type e := by
  induction h generalizing fewer with
  | unit hfresh hr hordinary hbody htype _ ih =>
    exact .unit (fun hmem => hfresh (hfewer hmem)) hr hordinary hbody htype
      (ih (List.cons_subset_cons _ hfewer))
  | build hfresh hr hordinary hbody hfills hchildren _ =>
    exact .build (fun hmem => hfresh (hfewer hmem)) hr hordinary hbody hfills hchildren
  | literal hfresh hr himmediate value =>
    exact .literal (fun hmem => hfresh (hfewer hmem)) hr himmediate value

/-- A search that can succeed either does without some type, or the search for that type on the same
expression can succeed itself. -/
theorem Parses.cut (h : Parses g visiting type e) (entered : String) :
    Parses g (entered :: visiting) type e ∨ Parses g visiting entered e := by
  by_cases hsame : type = entered
  · exact .inr (hsame ▸ h)
  · have hfresh' : ∀ {visited : List String}, type ∉ visited → type ∉ entered :: visited :=
      fun hfresh => List.not_mem_cons_of_ne_of_not_mem hsame hfresh
    induction h with
    | @unit visiting _ rule child _ hfresh hr hordinary hbody htype hchild ih =>
      by_cases hchildSame : child = entered
      · exact .inr (hchildSame ▸ hchild.mono (List.subset_cons_self _ _))
      · rcases ih hchildSame (fun h => List.not_mem_cons_of_ne_of_not_mem hchildSame h) with
          havoids | hentered
        · exact .inl (.unit (hfresh' hfresh) hr hordinary hbody htype
            (havoids.mono (List.Perm.swap entered rule.type visiting).subset))
        · exact .inr (hentered.mono (List.subset_cons_self _ _))
    | build hfresh hr hordinary hbody hfills hchildren _ =>
      exact .inl (.build (hfresh' hfresh) hr hordinary hbody hfills hchildren)
    | literal hfresh hr himmediate value =>
      exact .inl (.literal (hfresh' hfresh) hr himmediate value)

/-- A body is a bare place for a child or takes the expression apart. -/
theorem place_or_takesApart (g : Grammar) (body : Expr) :
    (∃ name, body = .sym name ∧ g.hasType name = true) ∨ g.TakesApart body := by
  by_cases hplace : ∃ name, body = .sym name ∧ g.hasType name = true
  · exact .inl hplace
  · refine .inr fun name hbody => ?_
    rw [← Bool.not_eq_true]
    exact fun htype => hplace ⟨name, hbody, htype⟩

/-- What a complete derivation stands for can be found by a search for its type. -/
theorem Complete.parses (h : Complete g type t) (hg : Consistent g) (he : g.toExpression t = .ok e) :
    Parses g [] type e := by
  refine h.induct_expression hg (fun r rule es e hr hordinary hfills hparses => ?_)
    (fun r rule value hr himmediate => .literal List.not_mem_nil hr himmediate value) he
  rcases place_or_takesApart g rule.body with ⟨name, hbody, htype⟩ | hbody
  · rw [hbody] at hfills hparses
    obtain rfl := hfills.eq_singleton htype
    rw [places_type htype] at hparses
    obtain ⟨hchild, -⟩ := List.forall₂_cons.mp hparses
    rcases hchild.cut rule.type with havoids | hentered
    · exact .unit List.not_mem_nil hr hordinary hbody htype havoids
    · exact hentered
  · exact .build List.not_mem_nil hr hordinary hbody hfills fun _ _ _ => hparses.get _ _

/-! ### The search finds what can be found -/

mutual

/-- No expression in a place is higher than the whole. -/
theorem Fills.height_le {body e : Expr} {es : List Expr} {e' : Expr} (hmem : e' ∈ es) :
    Fills g body es e → e'.height ≤ e.height
  | .lit _ => absurd hmem List.not_mem_nil
  | .place _ _ => by
    obtain rfl := List.mem_singleton.mp hmem
    exact Nat.le_refl _
  | .constant _ _ => absurd hmem List.not_mem_nil
  | .variable _ _ => absurd hmem List.not_mem_nil
  | .call _ hargs => Nat.le_trans (hargs.height_le hmem) (Nat.le_add_left _ 1)

/-- No expression in a place of some arguments is higher than the highest of them. -/
theorem FillsArgs.height_le {args args' es : List Expr} {e' : Expr} (hmem : e' ∈ es) :
    FillsArgs g args es args' → e'.height ≤ Expr.heightOfArgs args'
  | .nil => absurd hmem List.not_mem_nil
  | .cons harg hrest => by
    rw [Expr.heightOfArgs]
    rcases List.mem_append.mp hmem with hfirst | hlater
    · exact Nat.le_trans (harg.height_le hfirst) (Nat.le_max_left _ _)
    · exact Nat.le_trans (hrest.height_le hlater) (Nat.le_max_right _ _)

end

/-- The expressions in the places of a body that takes an expression apart are lower. -/
theorem Fills.height_lt {body : Expr} {es : List Expr} {e' : Expr} (hbody : g.TakesApart body)
    (hmem : e' ∈ es) : Fills g body es e → e'.height < e.height
  | .lit _ => absurd hmem List.not_mem_nil
  | .place htype _ => absurd htype (by simp [hbody _ rfl])
  | .constant _ _ => absurd hmem List.not_mem_nil
  | .variable _ _ => absurd hmem List.not_mem_nil
  | .call _ hargs => Nat.lt_of_le_of_lt (hargs.height_le hmem) (Nat.lt_add_of_pos_left Nat.zero_lt_one)

section Search

variable {matchType : String → Expr → List String → Except Failure (Option Tree)}

mutual

/-- Matching a body finds children when the search for each place does. -/
theorem Fills.exists_matchedBy : ∀ {body : Expr} {es : List Expr} {e : Expr}, Fills g body es e →
    List.Forall₂ (fun name e' => ∃ t, matchType name e' [] = .ok (some t)) (g.places body) es →
      ∃ children, MatchedBy g matchType body e [] children
  | _, _, _, .lit value, _ => ⟨[], .lit value []⟩
  | _, _, _, .place htype _, hplaces => by
    rw [places_type htype] at hplaces
    obtain ⟨⟨t, ht⟩, -⟩ := List.forall₂_cons.mp hplaces
    exact ⟨[t], .place htype ht⟩
  | _, _, _, .constant htype hvalue, _ => ⟨[], .constant htype hvalue []⟩
  | _, _, _, .variable htype _, _ => ⟨[], .symbol htype []⟩
  | _, _, _, .call op hargs, hplaces => by
    obtain ⟨children, hchildren⟩ := hargs.exists_matchedBy hplaces
    exact ⟨children, .call op hchildren []⟩

/-- Matching arguments finds children when the search for each place does. -/
theorem FillsArgs.exists_matchedBy : ∀ {args es others : List Expr}, FillsArgs g args es others →
    List.Forall₂ (fun name e' => ∃ t, matchType name e' [] = .ok (some t)) (g.placesOfArgs args) es →
      ∃ children, ArgsMatchedBy g matchType args others children
  | _, _, _, .nil, _ => ⟨[], .nil⟩
  | _, _, _, .cons harg hrest, hplaces => by
    rw [placesOfArgs_cons] at hplaces
    have hfirst := List.forall₂_take_append _ _ _ hplaces
    have hlater := List.forall₂_drop_append _ _ _ hplaces
    rw [← harg.length_eq, List.take_left] at hfirst
    rw [← harg.length_eq, List.drop_left] at hlater
    obtain ⟨children, hchildren⟩ := harg.exists_matchedBy hfirst
    obtain ⟨later, hlater⟩ := hrest.exists_matchedBy hlater
    exact ⟨children ++ later, .cons hchildren hlater⟩

end

/-- A body that takes the expression apart is matched without regard to the types being tried. -/
theorem MatchedBy.of_takesApart {body : Expr} {children : List Tree} (hbody : g.TakesApart body)
    (h : MatchedBy g matchType body e [] children) : MatchedBy g matchType body e visiting children := by
  cases h with
  | lit value _ => exact .lit value visiting
  | place htype _ => simp [hbody _ rfl] at htype
  | symbol htype _ => exact .symbol htype visiting
  | constant htype hvalue _ => exact .constant htype hvalue visiting
  | call op h _ => exact .call op h visiting

/-- Trying the ordinary rules of a list in order gives the tree for a rule whose body matches, or one for
an ordinary rule before it: none of these fails. -/
theorem matchOrdinary_first
    (hsearch : ∀ type e visiting, Answers (Derives g type e) (matchType type e visiting))
    {rules : List RuleId} (hascending : rules.Pairwise (· < ·))
    (hrules : ∀ s ∈ rules, ∃ rule, g.ruleAt? s = some rule) (hmem : r ∈ rules)
    (hr : g.ruleAt? r = some rule) (hordinary : rule.immediate = false) {children : List Tree}
    (hchildren : matchBody g matchType rule.body e visiting = .ok (some children)) :
    ∃ s trees, matchOrdinary g matchType e visiting rules = .ok (some (.apply s trees)) ∧
      (s = r ∧ trees = children ∨ s < r ∧ g.isImmediate s = .ok false) := by
  induction rules with
  | nil => exact absurd hmem List.not_mem_nil
  | cons s rest ih =>
    obtain ⟨hleast, hascending⟩ := List.pairwise_cons.mp hascending
    obtain ⟨other, hs⟩ := hrules s List.mem_cons_self
    rw [matchOrdinary, isImmediate_of_ruleAt? hs, ok_bind, body_of_ruleAt? hs, ok_bind]
    rcases List.mem_cons.mp hmem with rfl | hmem
    · obtain rfl := Option.some.inj (hr.symm.trans hs)
      rw [hordinary, hchildren]
      exact ⟨_, _, rfl, .inl ⟨rfl, rfl⟩⟩
    · have hrest := ih hascending (fun x hx => hrules x (List.mem_cons_of_mem _ hx)) hmem
      obtain ⟨found, hfound, -⟩ := matchBody_answers g hsearch other.body e visiting
      cases himmediate : other.immediate with
      | true => exact hrest
      | false =>
        simp only [Bool.false_eq_true, if_false, hfound, ok_bind]
        cases found with
        | none => exact hrest
        | some trees =>
          exact ⟨s, trees, rfl, .inr ⟨hleast r hmem, by rw [isImmediate_of_ruleAt? hs, himmediate]⟩⟩

end Search

/-- The first immediate rule of a list is a given one, or one before it. -/
theorem firstImmediate?_first {rules : List RuleId} (hascending : rules.Pairwise (· < ·))
    (hrules : ∀ s ∈ rules, ∃ rule, g.ruleAt? s = some rule) (hmem : r ∈ rules)
    (hr : g.ruleAt? r = some rule) (himmediate : rule.immediate = true) :
    ∃ s, g.firstImmediate? rules = .ok (some s) ∧ (s = r ∨ s < r ∧ g.isImmediate s = .ok true) := by
  induction rules with
  | nil => exact absurd hmem List.not_mem_nil
  | cons s rest ih =>
    obtain ⟨hleast, hascending⟩ := List.pairwise_cons.mp hascending
    obtain ⟨other, hs⟩ := hrules s List.mem_cons_self
    rw [firstImmediate?, isImmediate_of_ruleAt? hs, ok_bind]
    rcases List.mem_cons.mp hmem with rfl | hmem
    · obtain rfl := Option.some.inj (hr.symm.trans hs)
      rw [himmediate]
      exact ⟨_, rfl, .inl rfl⟩
    · cases hother : other.immediate with
      | true => exact ⟨s, rfl, .inr ⟨hleast r hmem, by rw [isImmediate_of_ruleAt? hs, hother]⟩⟩
      | false => exact ih hascending (fun x hx => hrules x (List.mem_cons_of_mem _ hx)) hmem

section Entered

variable {entry : TypeEntry} {fuel : Nat}

/-- A search that enters a type takes the tree that trying its ordinary rules gives. -/
theorem matchType_of_some (hfresh : type ∉ visiting) (hentry : g.types.get? type = some entry)
    (h : matchOrdinary g (g.matchType fuel) e (type :: visiting) entry.rules = .ok (some t)) :
    g.matchType (fuel + 1) type e visiting = .ok (some t) := by
  rw [matchType, if_neg (by simpa using hfresh), hentry]
  dsimp only
  rw [h]
  rfl

/-- A search that enters a type leaves what no ordinary rule gives to the immediate rules. -/
theorem matchType_of_none (hfresh : type ∉ visiting) (hentry : g.types.get? type = some entry)
    (h : matchOrdinary g (g.matchType fuel) e (type :: visiting) entry.rules = .ok none) :
    g.matchType (fuel + 1) type e visiting = g.matchImmediate entry.rules e := by
  rw [matchType, if_neg (by simpa using hfresh), hentry]
  dsimp only
  rw [h]
  rfl

/-- The rules in the entry of a type are ascending. -/
theorem Consistent.entry_ascending (hg : Consistent g) (hentry : g.types.get? type = some entry) :
    entry.rules.Pairwise (· < ·) := by
  rw [← listed_of_get? hentry]
  exact hg.lists.ascending type

/-- A search for the type of a rule whose body matches gives the tree for this rule, or one for an
ordinary rule of a lower name. -/
theorem Consistent.matchType_first (hg : Consistent g) (hfresh : rule.type ∉ visiting)
    (hr : g.ruleAt? r = some rule) (hordinary : rule.immediate = false) {children : List Tree}
    (hmatched : MatchedBy g (g.matchType fuel) rule.body e (rule.type :: visiting) children) :
    ∃ s trees, g.matchType (fuel + 1) rule.type e visiting = .ok (some (.apply s trees)) ∧
      (s = r ∧ trees = children ∨ s < r ∧ g.isImmediate s = .ok false) := by
  obtain ⟨entry, hentry⟩ := Option.isSome_iff_exists.mp (hg.hasType_of_ruleAt? hr)
  have hmem := hg.rules_of_entry hentry
  obtain ⟨s, trees, hfound, hs⟩ := matchOrdinary_first (matchType_answers hg fuel)
    (hg.entry_ascending hentry) (fun s hs => ((hmem s).mp hs).imp fun _ h => h.1)
    ((hmem r).mpr ⟨rule, hr, rfl⟩) hr hordinary hmatched.matchBody_eq
  exact ⟨s, trees, matchType_of_some hfresh hentry hfound, hs⟩

/-- A search for the type of an immediate rule on a literal gives a tree for an ordinary rule, or the
literal for this rule or for an immediate one of a lower name. -/
theorem Consistent.matchType_first_literal (hg : Consistent g) (hfresh : rule.type ∉ visiting)
    (hr : g.ruleAt? r = some rule) (himmediate : rule.immediate = true) (value : Value) :
    (∃ s trees, g.matchType (fuel + 1) rule.type (.lit value) visiting = .ok (some (.apply s trees)) ∧
      g.isImmediate s = .ok false) ∨
    ∃ s, g.matchType (fuel + 1) rule.type (.lit value) visiting = .ok (some (.immediate s value)) ∧
      (s = r ∨ s < r ∧ g.isImmediate s = .ok true) := by
  obtain ⟨entry, hentry⟩ := Option.isSome_iff_exists.mp (hg.hasType_of_ruleAt? hr)
  have hmem := hg.rules_of_entry hentry
  obtain ⟨found, hfound, -⟩ := matchOrdinary_answers (e := .lit value) hg (matchType_answers hg fuel)
    (rule.type :: visiting) fun s hs => (hmem s).mp hs
  cases found with
  | some t =>
    obtain ⟨s, -, body, trees, hs, -, -, rfl⟩ := of_matchOrdinary hfound
    exact .inl ⟨s, trees, matchType_of_some hfresh hentry hfound, hs⟩
  | none =>
    obtain ⟨s, hs, hfirst⟩ := firstImmediate?_first (hg.entry_ascending hentry)
      (fun s hs => ((hmem s).mp hs).imp fun _ h => h.1) ((hmem r).mpr ⟨rule, hr, rfl⟩) hr himmediate
    refine .inr ⟨s, ?_, hfirst⟩
    rw [matchType_of_none hfresh hentry hfound, matchImmediate, hs]
    rfl

/-- A search for the type of a rule finds a tree when the body of the rule matches. -/
theorem Consistent.matchType_finds (hg : Consistent g) (hfresh : rule.type ∉ visiting)
    (hr : g.ruleAt? r = some rule) (hordinary : rule.immediate = false) {children : List Tree}
    (hmatched : MatchedBy g (g.matchType fuel) rule.body e (rule.type :: visiting) children) :
    ∃ t, g.matchType (fuel + 1) rule.type e visiting = .ok (some t) := by
  obtain ⟨s, trees, hfound, -⟩ := hg.matchType_first hfresh hr hordinary hmatched
  exact ⟨_, hfound⟩

/-- A search for the type of an immediate rule finds a tree for every literal. -/
theorem Consistent.matchType_finds_literal (hg : Consistent g) (hfresh : rule.type ∉ visiting)
    (hr : g.ruleAt? r = some rule) (himmediate : rule.immediate = true) (value : Value) :
    ∃ t, g.matchType (fuel + 1) rule.type (.lit value) visiting = .ok (some t) := by
  obtain ⟨s, trees, hfound, -⟩ | ⟨s, hfound, -⟩ :=
    hg.matchType_first_literal hfresh hr himmediate value
  · exact ⟨_, hfound⟩
  · exact ⟨_, hfound⟩

end Entered

/-- A search that can succeed does, given enough fuel. -/
theorem Parses.finds (h : Parses g visiting type e) (hg : Consistent g) (fuel : Nat)
    (hfuel : EnoughFuel g fuel visiting e) :
    ∃ t, g.matchType fuel type e visiting = .ok (some t) := by
  induction h generalizing fuel with
  | @unit visiting _ rule _ e hfresh hr hordinary hbody htype _ ih =>
    obtain ⟨rest, rfl, hrest⟩ := hfuel.enter hfresh (hg.hasType_of_ruleAt? hr)
    obtain ⟨child, hchild⟩ := ih rest hrest
    have hmatched : MatchedBy g (g.matchType rest) rule.body e (rule.type :: visiting) [child] :=
      hbody ▸ .place htype hchild
    exact hg.matchType_finds hfresh hr hordinary hmatched
  | @build _ _ rule es _ hfresh hr hordinary hbody hfills _ ih =>
    obtain ⟨rest, rfl, hrest⟩ := hfuel.enter hfresh (hg.hasType_of_ruleAt? hr)
    have hplaces : List.Forall₂ (fun name e' => ∃ t, g.matchType rest name e' [] = .ok (some t))
        (g.places rule.body) es :=
      List.forall₂_iff_get.mpr ⟨hfills.length_eq, fun i hp he =>
        ih i hp he rest (hrest.descend (hfills.height_lt hbody (List.getElem_mem he)))⟩
    obtain ⟨children, hchildren⟩ := hfills.exists_matchedBy hplaces
    exact hg.matchType_finds hfresh hr hordinary (hchildren.of_takesApart hbody)
  | literal hfresh hr himmediate value =>
    obtain ⟨rest, rfl, -⟩ := hfuel.enter hfresh (hg.hasType_of_ruleAt? hr)
    exact hg.matchType_finds_literal hfresh hr himmediate value

/-! ### What trees stand for has no named constants -/

mutual

/-- A body filled by expressions without named constants has none. -/
theorem Fills.resolveConstants_eq {body e : Expr} {es : List Expr}
    (hes : ∀ e' ∈ es, g.resolveConstants e' = e') : Fills g body es e → g.resolveConstants e = e
  | .lit _ => rfl
  | .place _ e => hes e List.mem_cons_self
  | .constant _ _ => rfl
  | .variable htype hvalue => by rw [resolveConstants, if_neg (by simp [htype]), hvalue]
  | .call _ hargs => by rw [resolveConstants, hargs.resolveConstantsOfArgs_eq hes]

/-- Arguments filled by expressions without named constants have none. -/
theorem FillsArgs.resolveConstantsOfArgs_eq {args args' es : List Expr}
    (hes : ∀ e' ∈ es, g.resolveConstants e' = e') :
    FillsArgs g args es args' → g.resolveConstantsOfArgs args' = args'
  | .nil => rfl
  | .cons harg hrest => by
    rw [resolveConstantsOfArgs,
      harg.resolveConstants_eq fun e' he => hes e' (List.mem_append_left _ he),
      hrest.resolveConstantsOfArgs_eq fun e' he => hes e' (List.mem_append_right _ he)]

end

/-- What a complete derivation stands for has no named constants. -/
theorem Complete.resolveConstants_eq (h : Complete g type t) (hg : Consistent g)
    (he : g.toExpression t = .ok e) : g.resolveConstants e = e := by
  refine h.induct_expression hg (motive := fun _ e => g.resolveConstants e = e)
    (fun r rule es e _ _ hfills ih => hfills.resolveConstants_eq fun e' he' => ?_)
    (fun _ _ _ _ _ => rfl) he
  obtain ⟨-, -, hself⟩ := Pairing.exists_left_of_mem ih he'
  exact hself

/-! ### Completeness -/

/-- A complete derivation of a type stands for an expression, and parsing that expression by the type
finds a complete derivation that stands for it as well. -/
theorem Reachable.fromExpression_complete (hg : Reachable g) (h : Complete g type t) :
    ∃ e t', g.toExpression t = .ok e ∧ g.fromExpression e type = .ok t' ∧ Complete g type t' ∧
      g.toExpression t' = .ok e := by
  have hconsistent := hg.consistent
  obtain ⟨e, he⟩ := h.exists_expression hconsistent
  obtain ⟨t', ht'⟩ := (h.parses hconsistent he).finds hconsistent _ (.start (Nat.le_refl _))
  have hparse : g.fromExpression e type = .ok t' := by
    rw [fromExpression, if_pos (h.hasType hconsistent), ht']
    rfl
  have hderives := hconsistent.derives_of_fromExpression hparse
  have hstands := hderives.stands
  rw [h.resolveConstants_eq hconsistent he] at hstands
  exact ⟨e, t', he, hparse, hderives.complete, hstands⟩

/-- Two types that each derive the other, one of which derives a literal. -/
def unitCycle : Grammar :=
  (empty.addRules "A" [.sym "B", .lit (.int 1)]).state.addRule "B" (.sym "A") |>.state

/-- A tree that runs around the cycle is not found again, but one that stands for the same literal. -/
theorem unitCycle_fromExpression_complete :
    Reachable unitCycle ∧ Complete unitCycle "A" (.apply ⟨0⟩ [.apply ⟨2⟩ [.apply ⟨1⟩ []]]) ∧
    ∃ e t', unitCycle.toExpression (.apply ⟨0⟩ [.apply ⟨2⟩ [.apply ⟨1⟩ []]]) = .ok e ∧
      unitCycle.fromExpression e "A" = .ok t' ∧ Complete unitCycle "A" t' ∧
      unitCycle.toExpression t' = .ok e := by
  have hreachable : Reachable unitCycle := (Reachable.empty.addRules _ _).addRule _ _
  have hcomplete : Complete unitCycle "A" (.apply ⟨0⟩ [.apply ⟨2⟩ [.apply ⟨1⟩ []]]) := by
    have hone : Complete unitCycle "A" (.apply ⟨1⟩ []) :=
      complete_apply_iff.mpr ⟨⟨"A", .lit (.int 1), false, []⟩, by cbv, rfl, rfl, .nil⟩
    have hback : Complete unitCycle "B" (.apply ⟨2⟩ [.apply ⟨1⟩ []]) :=
      complete_apply_iff.mpr ⟨⟨"B", .sym "A", false, [.nonterminal "A"]⟩, by cbv, rfl, rfl,
        .cons hone .nil⟩
    exact complete_apply_iff.mpr ⟨⟨"A", .sym "B", false, [.nonterminal "B"]⟩, by cbv, rfl, rfl,
      .cons hback .nil⟩
  exact ⟨hreachable, hcomplete, hreachable.fromExpression_complete hcomplete⟩

end TypedGrammar.Grammar
