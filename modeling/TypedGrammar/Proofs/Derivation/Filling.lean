import TypedGrammar.Derivation.Expression
import TypedGrammar.Proofs.Derivation.Complete

/-!
# The expression of a complete derivation

`Fills` relates the body of a rule and the expressions for its places, in order, to the expression
that comes out: a symbol that names a type takes the next expression, a constant becomes its literal,
and a variable stays. Filling a body by its resolved symbols computes this relation, so that the
expression of a node is known from the expressions of its children alone.
-/

namespace TypedGrammar.Grammar

mutual

/-- An expression is a body with expressions put into its places, in order. -/
inductive Fills (g : Grammar) : Expr → List Expr → Expr → Prop
  | lit (value : Value) : Fills g (.lit value) [] (.lit value)
  | place {name : String} (htype : g.hasType name = true) (e : Expr) : Fills g (.sym name) [e] e
  | constant {name : String} {value : Value} (htype : g.hasType name = false)
      (hvalue : g.symbols.constant name = some value) : Fills g (.sym name) [] (.lit value)
  | variable {name : String} (htype : g.hasType name = false)
      (hvalue : g.symbols.constant name = none) : Fills g (.sym name) [] (.sym name)
  | call (op : String) {args args' es : List Expr} (hargs : FillsArgs g args es args') :
      Fills g (.call op args) es (.call op args')

/-- Arguments are those of a body with expressions put into their places, in order. -/
inductive FillsArgs (g : Grammar) : List Expr → List Expr → List Expr → Prop
  | nil : FillsArgs g [] [] []
  | cons {arg arg' : Expr} {rest rest' first later : List Expr} (harg : Fills g arg first arg')
      (hrest : FillsArgs g rest later rest') :
      FillsArgs g (arg :: rest) (first ++ later) (arg' :: rest')

end

variable {g : Grammar} {r : RuleId} {rule : Rule} {type : String} {t : Tree}

/-- The names of types among the symbols of an expression, in order. -/
def places (g : Grammar) (e : Expr) : List String := e.symbols.filter fun name => g.hasType name

/-- The names of types among the symbols of a list of arguments, in order. -/
def placesOfArgs (g : Grammar) (args : List Expr) : List String :=
  (Expr.symbolsOfArgs args).filter fun name => g.hasType name

/-- A symbol that names a type is one place. -/
theorem places_type {name : String} (htype : g.hasType name = true) : g.places (.sym name) = [name] := by
  simp [places, Expr.symbols, htype]

/-- A symbol that names no type has no place. -/
theorem places_symbol {name : String} (htype : g.hasType name = false) : g.places (.sym name) = [] := by
  simp [places, Expr.symbols, htype]

/-- The places of arguments are those of the first and those of the others. -/
theorem placesOfArgs_cons (g : Grammar) (arg : Expr) (rest : List Expr) :
    g.placesOfArgs (arg :: rest) = g.places arg ++ g.placesOfArgs rest :=
  List.filter_append ..

/-- A rule asks for a child for each place of its body. -/
theorem Consistent.childTypes_eq_places (h : Consistent g) (hr : g.ruleAt? r = some rule)
    (hordinary : rule.immediate = false) : rule.childTypes = g.places rule.body :=
  h.childTypes_eq hr hordinary

/-! ### Bodies can be filled -/

mutual

/-- One expression for each place fills a body. -/
theorem exists_fills (g : Grammar) : ∀ (body : Expr) (es : List Expr),
    es.length = (g.places body).length → ∃ e, Fills g body es e
  | .lit value, es, hlength => by
    obtain rfl := List.eq_nil_of_length_eq_zero hlength
    exact ⟨_, .lit value⟩
  | .sym name, es, hlength => by
    cases htype : g.hasType name with
    | true =>
      rw [places_type htype] at hlength
      obtain ⟨e, rfl⟩ := List.length_eq_one_iff.mp hlength
      exact ⟨e, .place htype e⟩
    | false =>
      rw [places_symbol htype] at hlength
      obtain rfl := List.eq_nil_of_length_eq_zero hlength
      cases hvalue : g.symbols.constant name with
      | some value => exact ⟨_, .constant htype hvalue⟩
      | none => exact ⟨_, .variable htype hvalue⟩
  | .call op args, es, hlength => by
    obtain ⟨args', hargs⟩ := exists_fillsArgs g args es hlength
    exact ⟨_, .call op hargs⟩

/-- One expression for each place fills a list of arguments. -/
theorem exists_fillsArgs (g : Grammar) : ∀ (args : List Expr) (es : List Expr),
    es.length = (g.placesOfArgs args).length → ∃ args', FillsArgs g args es args'
  | [], es, hlength => by
    obtain rfl := List.eq_nil_of_length_eq_zero hlength
    exact ⟨_, .nil⟩
  | arg :: rest, es, hlength => by
    rw [placesOfArgs_cons, List.length_append] at hlength
    obtain ⟨arg', harg⟩ := exists_fills g arg (es.take (g.places arg).length) (by
      rw [List.length_take]
      omega)
    obtain ⟨rest', hrest⟩ := exists_fillsArgs g rest (es.drop (g.places arg).length) (by
      rw [List.length_drop]
      omega)
    have hargs := FillsArgs.cons harg hrest
    rw [List.take_append_drop] at hargs
    exact ⟨_, hargs⟩

end

mutual

/-- There is one expression for each place. -/
theorem Fills.length_eq {body e : Expr} {es : List Expr} :
    Fills g body es e → (g.places body).length = es.length
  | .lit _ => rfl
  | .place htype _ => by simp [places_type htype]
  | .constant htype _ => by simp [places_symbol htype]
  | .variable htype _ => by simp [places_symbol htype]
  | .call _ hargs => hargs.length_eq

/-- There is one expression for each place of the arguments. -/
theorem FillsArgs.length_eq {args args' es : List Expr} :
    FillsArgs g args es args' → (g.placesOfArgs args).length = es.length
  | .nil => rfl
  | .cons harg hrest => by
    rw [placesOfArgs_cons, List.length_append, List.length_append, harg.length_eq, hrest.length_eq]

end

/-- A bare place is filled by a single expression, which is what comes out. -/
theorem Fills.eq_singleton {name : String} {es : List Expr} {e : Expr}
    (htype : g.hasType name = true) : Fills g (.sym name) es e → es = [e]
  | .place _ _ => rfl
  | .constant hother _ => absurd htype (by simp [hother])
  | .variable hother _ => absurd htype (by simp [hother])

/-! ### Filling computes the relation -/

/-- A name of a type stands for the type. -/
theorem classify_type {name : String} (htype : g.hasType name = true) :
    g.classify name = .nonterminal name := by
  rw [classify, SymbolTable.classify, if_pos htype]

/-- A name of a constant stands for its value unless it is the name of a type. -/
theorem classify_constant {name : String} {value : Value} (htype : g.hasType name = false)
    (hvalue : g.symbols.constant name = some value) : g.classify name = .constant value := by
  have hget : g.symbols.get? name = some value := hvalue
  rw [classify, SymbolTable.classify, if_neg (by simp [htype]), hget]

/-- A name of neither is a variable. -/
theorem classify_variable {name : String} (htype : g.hasType name = false)
    (hvalue : g.symbols.constant name = none) : g.classify name = .variable := by
  have hget : g.symbols.get? name = none := hvalue
  rw [classify, SymbolTable.classify, if_neg (by simp [htype]), hget]

mutual

/-- Filling a body by its resolved symbols takes up the symbols of the body and the expressions for
its places, and leaves the rest. -/
theorem run_fillPlaceholders (g : Grammar) (kinds : List SymbolKind)
    (rest : List (Except Failure Expr)) : ∀ (body : Expr) (es : List Expr) (e : Expr),
    Fills g body es e →
      (body.fillPlaceholders (fun _ => true) Filling.next).run
          ⟨body.symbols.map g.classify ++ kinds, es.map .ok ++ rest⟩ = .ok (e, ⟨kinds, rest⟩)
  | .lit _, _, _, .lit _ => rfl
  | .sym _, _, _, .place htype _ => by
    simp only [Expr.symbols, List.map_cons, List.map_nil, classify_type htype]
    rfl
  | .sym _, _, _, .constant htype hvalue => by
    simp only [Expr.symbols, List.map_cons, List.map_nil, classify_constant htype hvalue]
    rfl
  | .sym _, _, _, .variable htype hvalue => by
    simp only [Expr.symbols, List.map_cons, List.map_nil, classify_variable htype hvalue]
    rfl
  | .call _ args, _, _, .call _ hargs => by
    rw [Expr.fillPlaceholders, StateT.run_bind, Expr.symbols,
      run_fillArgs g kinds rest args _ _ hargs]
    rfl

/-- Filling a list of arguments takes up their symbols and the expressions for their places. -/
theorem run_fillArgs (g : Grammar) (kinds : List SymbolKind) (rest : List (Except Failure Expr)) :
    ∀ (args es args' : List Expr), FillsArgs g args es args' →
      (Expr.fillArgs (fun _ => true) Filling.next args).run
          ⟨(Expr.symbolsOfArgs args).map g.classify ++ kinds, es.map .ok ++ rest⟩ =
        .ok (args', ⟨kinds, rest⟩)
  | [], _, _, .nil => rfl
  | arg :: others, _, _, .cons harg hothers => by
    rw [Expr.fillArgs, StateT.run_bind, Expr.symbolsOfArgs, List.map_append, List.append_assoc,
      List.map_append, List.append_assoc, run_fillPlaceholders g _ _ arg _ _ harg, ok_bind,
      StateT.run_bind, run_fillArgs g kinds rest others _ _ hothers]
    rfl

end

/-- The body of a rule, filled by its resolved symbols and by the expressions for its places. -/
theorem fill_of_fills {body e : Expr} {es : List Expr} (h : Fills g body es e) :
    Filling.fill ⟨body.symbols.map g.classify, es.map .ok⟩ body = .ok e := by
  have hrun := run_fillPlaceholders g [] [] body es e h
  rw [List.append_nil, List.append_nil] at hrun
  rw [Filling.fill, StateT.run'_eq, hrun]
  rfl

/-! ### Expressions of trees -/

/-- The expressions of trees are those of each of them. -/
theorem expressionsOf_eq_map (g : Grammar) (trees : List Tree) :
    g.expressionsOf trees = trees.map g.toExpression := by
  induction trees with
  | nil => rfl
  | cons t rest ih => rw [expressionsOf, ih, List.map_cons]

/-- The trees stand for the expressions, one by one. -/
def StandFor (g : Grammar) (trees : List Tree) (es : List Expr) : Prop :=
  List.Forall₂ (fun t e => g.toExpression t = .ok e) trees es

/-- Trees that stand for expressions have these expressions. -/
theorem StandFor.expressionsOf {trees : List Tree} {es : List Expr} (h : StandFor g trees es) :
    g.expressionsOf trees = es.map .ok := by
  rw [expressionsOf_eq_map]
  induction h with
  | nil => rfl
  | cons he _ ih => rw [List.map_cons, List.map_cons, he, ih]

/-- A node stands for the body of its rule, filled by what its children stand for. -/
theorem toExpression_apply (hg : Consistent g) (hr : g.ruleAt? r = some rule)
    (hordinary : rule.immediate = false) {children : List Tree} {es : List Expr} {e : Expr}
    (hchildren : StandFor g children es) (hfills : Fills g rule.body es e) :
    g.toExpression (.apply r children) = .ok e := by
  rw [toExpression, symbolKinds_of_ruleAt? hr, ok_bind, body_of_ruleAt? hr, ok_bind,
    hchildren.expressionsOf, hg.kinds_eq r rule hr, hordinary]
  exact fill_of_fills hfills

/-- A node that applies a rule to complete derivations stands for an expression, and this is the body
of its rule filled by what its children stand for. -/
theorem exists_filled {children : List Tree} (hg : Consistent g) (hr : g.ruleAt? r = some rule)
    (hordinary : rule.immediate = false) (hlength : rule.childTypes.length = children.length)
    (hchildren : ∀ child ∈ children, ∃ e, g.toExpression child = .ok e) :
    ∃ es e, StandFor g children es ∧ Fills g rule.body es e ∧
      g.toExpression (.apply r children) = .ok e := by
  obtain ⟨es, hes⟩ := Pairing.exists_right hchildren
  obtain ⟨e, he⟩ := exists_fills g rule.body es (by
    rw [← hes.length_eq, ← hlength, hg.childTypes_eq_places hr hordinary])
  exact ⟨es, e, hes, he, toExpression_apply hg hr hordinary hes he⟩

/-- A complete derivation stands for an expression. -/
theorem Complete.exists_expression (h : Complete g type t) (hg : Consistent g) :
    ∃ e, g.toExpression t = .ok e := by
  refine h.induct (fun r rule children hr hordinary hchildren ih => ?_)
    fun r rule value _ _ => ⟨.lit value, rfl⟩
  obtain ⟨es, e, -, -, he⟩ := exists_filled hg hr hordinary hchildren.length_eq fun child hchild => by
    obtain ⟨-, -, hexists⟩ := Pairing.exists_left_of_mem ih hchild
    exact hexists
  exact ⟨e, he⟩

/-- Induction over what the complete derivations of types stand for: the body of a rule filled by what
the types of its places stand for, and any literal for an immediate rule. -/
theorem Complete.induct_expression {motive : String → Expr → Prop} (hg : Consistent g)
    (apply : ∀ r rule es e, g.ruleAt? r = some rule → rule.immediate = false →
      Fills g rule.body es e → List.Forall₂ motive (g.places rule.body) es → motive rule.type e)
    (immediate : ∀ r rule value, g.ruleAt? r = some rule → rule.immediate = true →
      motive rule.type (.lit value))
    (h : Complete g type t) {e : Expr} (he : g.toExpression t = .ok e) : motive type e := by
  refine h.induct (motive := fun type t => ∀ e, g.toExpression t = .ok e → motive type e)
    (fun r rule children hr hordinary hchildren ih e he => ?_)
    (fun r rule value hr himmediate e he => ?_) e he
  · obtain ⟨es, e', hes, hfills, he'⟩ :=
      exists_filled hg hr hordinary hchildren.length_eq fun child hchild => by
        obtain ⟨_, -, hcomplete⟩ := Pairing.exists_left_of_mem hchildren hchild
        exact hcomplete.exists_expression hg
    obtain rfl : e' = e := Except.ok.inj (he'.symm.trans he)
    refine apply r rule es e' hr hordinary hfills ?_
    rw [← hg.childTypes_eq_places hr hordinary]
    exact Pairing.trans ih hes fun _ _ _ hmotive hstands => hmotive _ hstands
  · obtain rfl := Except.ok.inj he
    exact immediate r rule value hr himmediate

end TypedGrammar.Grammar
