import TypedGrammar.Proofs.Derivation.Filling
import TypedGrammar.Proofs.Members
import TypedGrammar.Proofs.Placeholders

/-!
# The expression of a tree as a substitution

Filling a body goes along its symbols with a list of what they stand for and a list of children, and
drops from both what it has used. `substitute` says what comes out without a state: each symbol that
names a type is looked up by the number of such symbols on its left. A tree may have holes and too few
or too many children; what is missing stays a symbol, and what is too much is not looked up.
-/

namespace TypedGrammar

namespace Grammar

variable {g : Grammar} {r : RuleId} {rule : Rule} {t : Tree} {children : List Tree} {es : List Expr}
  {body : Expr} {path : List Nat} {name : String} {k : Nat}

/-! ### Simultaneous substitution -/

mutual

/-- A body in which expressions are put for the symbols that name types, all at once. The first of these
symbols has the number `k`, and one without an expression for its number stays. Constants become
literals. -/
def substitute (g : Grammar) (es : List Expr) (k : Nat) : Expr → Expr
  | .lit value => .lit value
  | .sym name =>
    if g.hasType name then es[k]?.getD (.sym name)
    else match g.symbols.constant name with
      | some value => .lit value
      | none => .sym name
  | .call op args => .call op (substituteArgs g es k args)

/-- The same for a list of arguments. -/
def substituteArgs (g : Grammar) (es : List Expr) (k : Nat) : List Expr → List Expr
  | [] => []
  | arg :: rest => substitute g es k arg :: substituteArgs g es (k + (g.places arg).length) rest

end

/-- At the path in the body stands a symbol that names a type, with `k` such symbols on its left. -/
inductive PlaceAt (g : Grammar) : Expr → List Nat → Nat → String → Prop
  | sym {name : String} (htype : g.hasType name = true) : PlaceAt g (.sym name) [] 0 name
  | call (op : String) {before after : List Expr} {arg : Expr} {path : List Nat} {k : Nat}
      {name : String} (harg : PlaceAt g arg path k name) :
      PlaceAt g (.call op (before ++ arg :: after)) (before.length :: path)
        ((g.placesOfArgs before).length + k) name

/-- Substitution keeps the number of arguments. -/
theorem length_substituteArgs (g : Grammar) (es : List Expr) (k : Nat) (args : List Expr) :
    (g.substituteArgs es k args).length = args.length := by
  induction args generalizing k with
  | nil => rfl
  | cons arg rest ih => rw [substituteArgs, List.length_cons, List.length_cons, ih]

/-- Arguments behind others are looked up from the number behind theirs. -/
theorem substituteArgs_append (g : Grammar) (es : List Expr) (k : Nat) (args rest : List Expr) :
    g.substituteArgs es k (args ++ rest) = g.substituteArgs es k args ++
      g.substituteArgs es (k + (g.placesOfArgs args).length) rest := by
  induction args generalizing k with
  | nil => rfl
  | cons arg others ih =>
    rw [List.cons_append, substituteArgs, ih, substituteArgs, List.cons_append, placesOfArgs_cons,
      List.length_append, Nat.add_assoc]

/-- At each place stands the expression for its number as it is, or the symbol if there is none. -/
theorem PlaceAt.at?_substitute (h : PlaceAt g body path k name) (first : Nat) :
    (g.substitute es first body).at? path = some (es[first + k]?.getD (.sym name)) := by
  induction h generalizing first with
  | sym htype => simp [substitute, htype, Expr.at?]
  | @call op before after arg path k name _ ih =>
    rw [substitute, Expr.at?, substituteArgs_append, List.getElem?_append_right
      (length_substituteArgs ..).le, length_substituteArgs, Nat.sub_self, substituteArgs]
    rw [List.getElem?_cons_zero, Option.bind_some, ih, Nat.add_assoc]

/-- The places of a body are the paths at which the names of types stand, with the numbers that these have
among its symbols. -/
theorem placeAt_iff : PlaceAt g body path k name ↔
    body.at? path = some (.sym name) ∧ g.hasType name = true ∧ body.placeNumber g.hasType path = k := by
  constructor
  · intro h
    induction h with
    | sym htype => exact ⟨rfl, htype, rfl⟩
    | @call op before after arg path k name _ ih =>
      obtain ⟨hpath, htype, hnumber⟩ := ih
      have harg : (before ++ arg :: after)[before.length]? = some arg := by simp
      refine ⟨?_, htype, ?_⟩
      · rw [Expr.at?, harg, Option.bind_some, hpath]
      · rw [Expr.placeNumber, harg, Option.map_some, Option.getD_some, hnumber, List.take_left]
        rfl
  · intro h
    obtain ⟨hpath, htype, rfl⟩ := h
    induction path generalizing body with
    | nil =>
      obtain rfl := Option.some.inj hpath
      exact .sym htype
    | cons i path ih =>
      cases body with
      | lit value => cases hpath
      | sym name => cases hpath
      | call op args =>
        obtain ⟨arg, harg, hsub⟩ := Option.bind_eq_some_iff.mp hpath
        rw [Expr.placeNumber, harg, Option.map_some, Option.getD_some]
        obtain ⟨hi, rfl⟩ := List.getElem?_eq_some_iff.mp harg
        have hplace : PlaceAt g (.call op (args.take i ++ args[i] :: args.drop (i + 1))) _ _ name :=
          .call op (ih hsub)
        rwa [List.length_take_of_le hi.le, ← List.drop_eq_getElem_cons hi, List.take_append_drop] at hplace

/-- A place has the number that its symbol has among the names of types in the body. -/
theorem PlaceAt.getElem?_places (h : PlaceAt g body path k name) : (g.places body)[k]? = some name := by
  obtain ⟨hpath, htype, rfl⟩ := placeAt_iff.mp h
  exact Expr.getElem?_placeholders_of_at? hpath htype

/-- Each name of a type in a body stands at a place. -/
theorem exists_placeAt (g : Grammar) (body : Expr) (k : Nat) (name : String)
    (h : (g.places body)[k]? = some name) : ∃ path, PlaceAt g body path k name := by
  obtain ⟨path, hpath, hnumber⟩ := Expr.exists_at?_of_placeholders body k name h
  exact ⟨path, placeAt_iff.mpr ⟨hpath, (List.mem_filter.mp (List.mem_of_getElem? h)).2, hnumber⟩⟩

mutual

/-- Expressions behind those for the places of a body are not looked up. -/
theorem substitute_append (g : Grammar) (es more : List Expr) : ∀ (k : Nat) (body : Expr),
    k + (g.places body).length ≤ es.length →
      g.substitute (es ++ more) k body = g.substitute es k body
  | _, .lit _, _ => rfl
  | k, .sym name, hlength => by
    cases htype : g.hasType name with
    | true =>
      rw [places_type htype] at hlength
      rw [substitute, substitute, List.getElem?_append_left hlength]
    | false => simp [substitute, htype]
  | k, .call op args, hlength => by
    rw [substitute, substitute, substituteArgs_append_right g es more k args hlength]

/-- The same for a list of arguments. -/
theorem substituteArgs_append_right (g : Grammar) (es more : List Expr) :
    ∀ (k : Nat) (args : List Expr), k + (g.placesOfArgs args).length ≤ es.length →
      g.substituteArgs (es ++ more) k args = g.substituteArgs es k args
  | _, [], _ => rfl
  | k, arg :: rest, hlength => by
    rw [placesOfArgs_cons, List.length_append] at hlength
    rw [substituteArgs, substituteArgs, substitute_append g es more k arg (by omega),
      substituteArgs_append_right g es more _ rest (by omega)]

end

/-! ### Filling substitutes -/

/-- At a symbol that names a type the next child is used, if there is one left. -/
theorem run_next_type (name : String) (kinds : List SymbolKind) (es : List Expr) (k : Nat) :
    (Filling.next name).run ⟨.nonterminal name :: kinds, (es.drop k).map .ok⟩ =
      .ok (es[k]?.getD (.sym name), ⟨kinds, (es.drop (k + 1)).map .ok⟩) := by
  by_cases hk : k < es.length
  · rw [List.drop_eq_getElem_cons hk, List.getElem?_eq_getElem hk]
    rfl
  · have hend := Nat.le_of_not_lt hk
    rw [List.drop_eq_nil_of_le hend, List.drop_eq_nil_of_le (Nat.le_succ_of_le hend),
      List.getElem?_eq_none hend]
    rfl

mutual

/-- Filling a body goes on behind its symbols and behind the children for its places. The children that
are left are those from the number of the first place on, so that this passes from an argument to the
next. -/
theorem run_fillPlaceholders_substitute (g : Grammar) (es : List Expr) :
    ∀ (kinds : List SymbolKind) (k : Nat) (body : Expr),
      (body.fillPlaceholders (fun _ => true) Filling.next).run
          ⟨body.symbols.map g.classify ++ kinds, (es.drop k).map .ok⟩ =
        .ok (g.substitute es k body, ⟨kinds, (es.drop (k + (g.places body).length)).map .ok⟩)
  | _, _, .lit _ => rfl
  | kinds, k, .sym name => by
    cases htype : g.hasType name with
    | true =>
      simp only [Expr.symbols, List.map_cons, List.map_nil, classify_type htype, places_type htype,
        substitute, htype, if_true]
      exact run_next_type name kinds es k
    | false =>
      simp only [Expr.symbols, List.map_cons, List.map_nil, places_symbol htype, substitute, htype,
        Bool.false_eq_true, if_false]
      cases hvalue : g.symbols.constant name with
      | some value =>
        rw [classify_constant htype hvalue]
        rfl
      | none =>
        rw [classify_variable htype hvalue]
        rfl
  | kinds, k, .call _ args => by
    rw [Expr.fillPlaceholders, StateT.run_bind, Expr.symbols,
      run_fillArgs_substitute g es kinds k args]
    rfl

/-- The same for a list of arguments. -/
theorem run_fillArgs_substitute (g : Grammar) (es : List Expr) :
    ∀ (kinds : List SymbolKind) (k : Nat) (args : List Expr),
      (Expr.fillArgs (fun _ => true) Filling.next args).run
          ⟨(Expr.symbolsOfArgs args).map g.classify ++ kinds, (es.drop k).map .ok⟩ =
        .ok (g.substituteArgs es k args,
          ⟨kinds, (es.drop (k + (g.placesOfArgs args).length)).map .ok⟩)
  | _, _, [] => rfl
  | kinds, k, arg :: rest => by
    rw [Expr.fillArgs, StateT.run_bind, Expr.symbolsOfArgs, List.map_append, List.append_assoc,
      run_fillPlaceholders_substitute g es _ k arg, ok_bind, StateT.run_bind,
      run_fillArgs_substitute g es kinds _ rest, placesOfArgs_cons, List.length_append, Nat.add_assoc]
    rfl

end

/-- A node stands for the body of its rule in which the expressions of its children are put. -/
theorem toExpression_eq_substitute (hg : Consistent g) (hr : g.ruleAt? r = some rule)
    (hordinary : rule.immediate = false) (hchildren : StandFor g children es) :
    g.toExpression (.apply r children) = .ok (g.substitute es 0 rule.body) := by
  have hrun := run_fillPlaceholders_substitute g es [] 0 rule.body
  rw [List.append_nil, List.drop_zero] at hrun
  rw [toExpression, symbolKinds_of_ruleAt? hr, ok_bind, body_of_ruleAt? hr, ok_bind,
    hchildren.expressionsOf, hg.kinds_eq r rule hr, hordinary, Filling.fill, StateT.run'_eq]
  change (fun x => x.1) <$> (rule.body.fillPlaceholders (fun _ => true) Filling.next).run
    ⟨rule.body.symbols.map g.classify, es.map .ok⟩ = _
  rw [hrun]
  rfl

/-! ### Trees that can be written -/

/-- The nodes of a tree apply ordinary rules of the grammar, whatever the children, or hold a literal,
and the domains of its holes have rules of the grammar only. -/
inductive Writable (g : Grammar) : Tree → Prop
  | apply {r : RuleId} {children : List Tree} (hlive : g.isRemoved r = .ok false)
      (hordinary : g.isImmediate r = .ok false) (hchildren : ∀ child ∈ children, Writable g child) :
      Writable g (.apply r children)
  | immediate (r : RuleId) (value : Value) : Writable g (.immediate r value)
  | hole {h : Hole} (hlive : ∀ r, h.domain.containsRule r = true → g.isRemoved r = .ok false) :
      Writable g (.hole h)

/-- A node that can be written applies an ordinary rule of the table. -/
theorem Writable.rule_of_apply (h : Writable g (.apply r children)) :
    ∃ rule, g.ruleAt? r = some rule ∧ rule.immediate = false ∧
      ∀ child ∈ children, Writable g child := by
  cases h with
  | apply hlive hordinary hchildren =>
    obtain ⟨rule, hr⟩ := isLive_iff.mp (isLive_of_isRemoved hlive)
    rw [isImmediate_of_ruleAt? hr] at hordinary
    exact ⟨rule, hr, Except.ok.inj hordinary, hchildren⟩

/-- The first rule of a set is the least one. -/
theorem firstRule?_eq_some_of_le {s : BitSet} (hr : s.containsRule r = true)
    (hleast : ∀ r', s.containsRule r' = true → r.index ≤ r'.index) : s.firstRule? = some r := by
  have hpairwise := s.rules_pairwise
  have hmem : r ∈ s.rules := BitSet.mem_rules.mpr hr
  rw [BitSet.firstRule?]
  cases hrules : s.rules with
  | nil =>
    rw [hrules] at hmem
    cases hmem
  | cons first rest =>
    rw [hrules] at hmem hpairwise
    have hfirst := hleast first (BitSet.mem_rules.mp (hrules ▸ List.mem_cons_self))
    rcases List.mem_cons.mp hmem with rfl | hlater
    · rfl
    · exact absurd ((List.pairwise_cons.mp hpairwise).1 r hlater) (Nat.not_lt.mpr hfirst)

/-- A hole with rules of the grammar only stands for the type of its least rule, or for nothing. -/
theorem Writable.toExpression_hole {h : Hole} (hwritable : Writable g (.hole h)) :
    (∃ r type, h.domain.firstRule? = some r ∧ g.returnType r = .ok type ∧
        g.toExpression (.hole h) = .ok (.sym type)) ∨
      (h.domain.firstRule? = none ∧ g.toExpression (.hole h) = .ok (.sym "nothing")) := by
  cases hwritable with
  | hole hlive =>
    rw [toExpression, nodeType]
    cases hfirst : h.domain.firstRule? with
    | none => exact .inr ⟨rfl, rfl⟩
    | some r =>
      obtain ⟨rule, hr⟩ := isLive_iff.mp
        (isLive_of_isRemoved (hlive r (BitSet.containsRule_of_firstRule? hfirst)))
      have htype : g.returnType r = .ok rule.type := returnType_eq_ok_iff.mpr ⟨rule, hr, rfl⟩
      refine .inl ⟨r, rule.type, rfl, htype, ?_⟩
      simp only [htype]
      rfl

/-- A tree that can be written stands for an expression. -/
theorem Writable.exists_expression (hg : Consistent g) (h : Writable g t) :
    ∃ e, g.toExpression t = .ok e := by
  induction h with
  | apply hlive hordinary hchildren ih =>
    obtain ⟨rule, hr, hordinary, -⟩ := (Writable.apply hlive hordinary hchildren).rule_of_apply
    obtain ⟨es, hes⟩ := Pairing.exists_right ih
    exact ⟨_, toExpression_eq_substitute hg hr hordinary hes⟩
  | immediate r value => exact ⟨.lit value, rfl⟩
  | hole hlive =>
    rcases (Writable.hole hlive).toExpression_hole with ⟨_, type, -, -, he⟩ | ⟨-, he⟩
    · exact ⟨.sym type, he⟩
    · exact ⟨.sym "nothing", he⟩

/-- A node of a tree that can be written stands for the body of its rule in which the expressions of its
children are put. -/
theorem Writable.toExpression_apply (hg : Consistent g) (h : Writable g (.apply r children)) :
    ∃ body es, g.body r = .ok body ∧ StandFor g children es ∧
      g.toExpression (.apply r children) = .ok (g.substitute es 0 body) := by
  obtain ⟨rule, hr, hordinary, hchildren⟩ := h.rule_of_apply
  obtain ⟨es, hes⟩ := Pairing.exists_right fun child hchild =>
    (hchildren child hchild).exists_expression hg
  exact ⟨rule.body, es, body_of_ruleAt? hr, hes, toExpression_eq_substitute hg hr hordinary hes⟩

/-- The children stand for the expressions by number. -/
theorem StandFor.getElem?_eq (h : StandFor g children es) (k : Nat) :
    children[k]?.map g.toExpression = es[k]?.map .ok := by
  rw [← List.getElem?_map, ← expressionsOf_eq_map, h.expressionsOf, List.getElem?_map]

/-- Writing a tree substitutes the expressions of the children into the bodies of the rules, all at
once. -/
structure WritesBySubstitution (g : Grammar) : Prop where
  /-- A node stands for the body of its rule in which the expressions of its children are put, by the
  numbers of the symbols that name types. -/
  apply : ∀ r children, Writable g (.apply r children) → ∃ body es, g.body r = .ok body ∧
    StandFor g children es ∧ g.toExpression (.apply r children) = .ok (g.substitute es 0 body)
  /-- These symbols are numbered in the order of all symbols of the body. -/
  numbered : ∀ body k name,
    (body.symbols.filter (· ∈ g.typeNames))[k]? = some name ↔ ∃ path, PlaceAt g body path k name
  /-- In the place of such a symbol stands the expression of the child with its number, as it is. -/
  child : ∀ r children body e path k name child e', Writable g (.apply r children) →
    g.body r = .ok body → g.toExpression (.apply r children) = .ok e → PlaceAt g body path k name →
    children[k]? = some child → g.toExpression child = .ok e' → e.at? path = some e'
  /-- A symbol without a child stays. -/
  missing : ∀ r children body e path k name, Writable g (.apply r children) →
    g.body r = .ok body → g.toExpression (.apply r children) = .ok e → PlaceAt g body path k name →
    children[k]? = none → e.at? path = some (.sym name)
  /-- Surplus children make no difference. -/
  surplus : ∀ r children more types, Writable g (.apply r (children ++ more)) →
    g.childTypes r = .ok types → types.length ≤ children.length →
    g.toExpression (.apply r (children ++ more)) = g.toExpression (.apply r children)
  /-- A literal stands for itself, whatever the rule. -/
  immediate : ∀ r value, g.toExpression (.immediate r value) = .ok (.lit value)
  /-- A hole stands for the type of its least rule. -/
  hole : ∀ h r, Writable g (.hole h) → h.domain.containsRule r = true →
    (∀ r', h.domain.containsRule r' = true → r.index ≤ r'.index) →
    ∃ type, g.returnType r = .ok type ∧ g.toExpression (.hole h) = .ok (.sym type)
  /-- A hole without a rule stands for nothing. -/
  nothing : ∀ h : Hole, (∀ r, h.domain.containsRule r = false) →
    g.toExpression (.hole h) = .ok (.sym "nothing")

/-- In a consistent grammar trees are written by substitution. -/
theorem Consistent.writesBySubstitution (hg : Consistent g) : WritesBySubstitution g where
  apply _ _ h := h.toExpression_apply hg
  numbered body k name := by
    have hplaces : (body.symbols.filter (· ∈ g.typeNames)) = g.places body := by
      simp only [mem_typeNames, Bool.decide_eq_true]
      rfl
    rw [hplaces]
    refine ⟨exists_placeAt g body k name, fun h => ?_⟩
    obtain ⟨path, hplace⟩ := h
    exact hplace.getElem?_places
  child r children body e path k name child e' h hbody he hplace hchild he' := by
    obtain ⟨body', es, hbody', hes, heq⟩ := h.toExpression_apply hg
    obtain rfl := Except.ok.inj (hbody.symm.trans hbody')
    obtain rfl := Except.ok.inj (he.symm.trans heq)
    have hstands := hes.getElem?_eq k
    rw [hchild, Option.map_some, he'] at hstands
    obtain ⟨found, hfound, hsame⟩ := Option.map_eq_some_iff.mp hstands.symm
    rw [hplace.at?_substitute 0, Nat.zero_add, hfound, Except.ok.inj hsame]
    rfl
  missing r children body e path k name h hbody he hplace hchild := by
    obtain ⟨body', es, hbody', hes, heq⟩ := h.toExpression_apply hg
    obtain rfl := Except.ok.inj (hbody.symm.trans hbody')
    obtain rfl := Except.ok.inj (he.symm.trans heq)
    have hstands := hes.getElem?_eq k
    rw [hchild, Option.map_none] at hstands
    rw [hplace.at?_substitute 0, Nat.zero_add, Option.map_eq_none_iff.mp hstands.symm]
    rfl
  surplus r children more types h htypes hlength := by
    obtain ⟨rule, hr, hordinary, hchildren⟩ := h.rule_of_apply
    obtain ⟨hfirst, hmore⟩ := List.forall_mem_append.mp hchildren
    obtain ⟨es, hes⟩ := Pairing.exists_right fun child hchild =>
      (hfirst child hchild).exists_expression hg
    obtain ⟨es', hes'⟩ := Pairing.exists_right fun child hchild =>
      (hmore child hchild).exists_expression hg
    rw [childTypes_of_ruleAt? hr, hg.childTypes_eq_places hr hordinary] at htypes
    have hplaces : 0 + (g.places rule.body).length ≤ es.length := by
      rw [Nat.zero_add, Except.ok.inj htypes, ← hes.length_eq]
      exact hlength
    rw [toExpression_eq_substitute hg hr hordinary (List.rel_append hes hes'),
      toExpression_eq_substitute hg hr hordinary hes, substitute_append g es es' 0 rule.body hplaces]
  immediate _ _ := rfl
  hole h r hwritable hr hleast := by
    rcases hwritable.toExpression_hole with ⟨r', type, hfirst, htype, he⟩ | ⟨hfirst, -⟩
    · obtain rfl := Option.some.inj ((firstRule?_eq_some_of_le hr hleast).symm.trans hfirst)
      exact ⟨type, htype, he⟩
    · rw [firstRule?_eq_some_of_le hr hleast] at hfirst
      cases hfirst
  nothing h hempty := by
    have hnone : h.domain.firstRule? = none := by
      refine Option.eq_none_iff_forall_ne_some.mpr fun r hr => ?_
      have hcontains := BitSet.containsRule_of_firstRule? hr
      rw [hempty r] at hcontains
      cases hcontains
    rw [toExpression, nodeType, hnone]
    rfl

/-- In every grammar that can come about, a tree with holes and with any numbers of children is written by
simultaneous substitution. -/
theorem Reachable.writes_by_substitution (h : Reachable g) : WritesBySubstitution g :=
  h.consistent.writesBySubstitution

/-- A literal, and a call with a constant, a variable and three names of types in it. -/
def mixedCall : Grammar :=
  (((empty.withSymbols (.ofList [("two", .int 2)])).addRule "M" (.lit (.int 1))).state.addRule "N"
    (.call "+" [.call "*" [.sym "N", .sym "two"], .call "f" [.sym "x", .sym "M", .sym "N"]])).state

/-- The first child is a hole and is written as the name of a type, which is not replaced again. The third
child is missing. -/
theorem mixedCall_writes_by_substitution : Reachable mixedCall ∧
    Writable mixedCall (.apply ⟨1⟩ [.unexpanded (.ofRules [⟨0⟩]), .apply ⟨0⟩ []]) ∧
    WritesBySubstitution mixedCall ∧
    mixedCall.toExpression (.apply ⟨1⟩ [.unexpanded (.ofRules [⟨0⟩]), .apply ⟨0⟩ []]) =
      .ok (.call "+" [.call "*" [.sym "M", .lit (.int 2)],
        .call "f" [.sym "x", .lit (.int 1), .sym "N"]]) := by
  have hreachable : Reachable mixedCall := ((Reachable.empty.withSymbols _).addRule _ _).addRule _ _
  have hlive : mixedCall.isRemoved ⟨0⟩ = .ok false := by cbv
  have hlive' : mixedCall.isRemoved ⟨1⟩ = .ok false := by cbv
  have hhole : Writable mixedCall (.unexpanded (.ofRules [⟨0⟩])) := by
    refine .hole fun r hr => ?_
    have hnumber : r.number = RuleId.number ⟨0⟩ := by
      simpa [BitSet.containsRule, BitSet.ofRules, BitSet.contains_ofList] using hr
    rwa [RuleId.number_inj.mp hnumber]
  have hleaf : Writable mixedCall (.apply ⟨0⟩ []) :=
    .apply hlive (by cbv) fun _ hmem => absurd hmem List.not_mem_nil
  have htree := Writable.apply hlive' (by cbv) (List.forall_mem_cons.mpr
    ⟨hhole, List.forall_mem_singleton.mpr hleaf⟩)
  exact ⟨hreachable, htree, hreachable.writes_by_substitution, by cbv⟩

end Grammar

end TypedGrammar
