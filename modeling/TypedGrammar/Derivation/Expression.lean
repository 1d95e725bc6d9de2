import TypedGrammar.Derivation.Typing

/-!
# The expression of a tree

A tree stands for the body of its rule in which every placeholder is replaced by the expression of
the child in that position, and every named constant by its literal. A placeholder without a child
stays, surplus children do not count, and a hole is written as the name of its type.
-/

namespace TypedGrammar

/-- What is left to be put into a body: the resolutions of its further symbols, and the expressions
of the further children. -/
structure Filling where
  kinds : List SymbolKind
  children : List (Except Failure Expr)

namespace Filling

/-- The expression in place of the next symbol of a body. -/
def next (name : String) : StateT Filling (Except Failure) Expr := do
  match ← get with
  | ⟨.nonterminal _ :: kinds, child :: children⟩ =>
    set (Filling.mk kinds children)
    child
  | ⟨.nonterminal _ :: kinds, []⟩ =>
    set (Filling.mk kinds [])
    return .sym name
  | ⟨.constant value :: kinds, children⟩ =>
    set (Filling.mk kinds children)
    return .lit value
  | ⟨.variable :: kinds, children⟩ =>
    set (Filling.mk kinds children)
    return .sym name
  | ⟨[], _⟩ => return .sym name

/-- A body with every symbol replaced. -/
def fill (filling : Filling) (body : Expr) : Except Failure Expr :=
  (body.fillPlaceholders (fun _ => true) next).run' filling

end Filling

namespace Grammar

mutual

/-- The expression that a tree stands for. -/
def toExpression (g : Grammar) : Tree → Except Failure Expr
  | .apply rule children => do
    let kinds ← g.symbolKinds rule
    let body ← g.body rule
    Filling.fill ⟨kinds, g.expressionsOf children⟩ body
  | .immediate _ value => .ok (.lit value)
  | .hole h => do return .sym ((← g.nodeType (.hole h)).getD "nothing")

/-- The expressions that several trees stand for. -/
def expressionsOf (g : Grammar) : List Tree → List (Except Failure Expr)
  | [] => []
  | t :: rest => g.toExpression t :: g.expressionsOf rest

end

end Grammar

end TypedGrammar
