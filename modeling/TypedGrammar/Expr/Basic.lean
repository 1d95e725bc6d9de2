import TypedGrammar.Value

/-!
# Expressions

The body of a rule, and the meaning of a derivation tree, is an expression: a literal, a bare symbol,
or an operator applied to arguments. The symbols of an expression are those in argument position,
from left to right; operators are not among them.

`fillPlaceholders` visits the symbols in the same order and puts an expression in place of each one
that a test picks out. The replacement is computed in a monad, so that it can keep a state or fail.
-/

namespace TypedGrammar

/-- An expression. -/
inductive Expr where
  /-- A literal constant. -/
  | lit (value : Value)
  /-- A bare symbol. -/
  | sym (name : String)
  /-- An operator applied to arguments. -/
  | call (op : String) (args : List Expr)

namespace Expr

instance : Inhabited Expr := ⟨.sym ""⟩

mutual

/-- Equality of expressions can be decided. -/
def decEq : (a b : Expr) → Decidable (a = b)
  | .lit v, .lit w => if h : v = w then isTrue (h ▸ rfl) else isFalse (fun e => h (by injection e))
  | .sym n, .sym m => if h : n = m then isTrue (h ▸ rfl) else isFalse (fun e => h (by injection e))
  | .call op as, .call op' bs =>
    if h : op = op' then
      match decEqList as bs with
      | isTrue h' => isTrue (h ▸ h' ▸ rfl)
      | isFalse h' => isFalse (fun e => h' (by injection e))
    else isFalse (fun e => h (by injection e))
  | .lit _, .sym _ => isFalse nofun
  | .lit _, .call _ _ => isFalse nofun
  | .sym _, .lit _ => isFalse nofun
  | .sym _, .call _ _ => isFalse nofun
  | .call _ _, .lit _ => isFalse nofun
  | .call _ _, .sym _ => isFalse nofun

/-- Equality of argument lists can be decided. -/
def decEqList : (as bs : List Expr) → Decidable (as = bs)
  | [], [] => isTrue rfl
  | [], _ :: _ => isFalse nofun
  | _ :: _, [] => isFalse nofun
  | a :: as, b :: bs =>
    match decEq a b with
    | isTrue h =>
      match decEqList as bs with
      | isTrue h' => isTrue (h ▸ h' ▸ rfl)
      | isFalse h' => isFalse (fun e => h' (by injection e))
    | isFalse h => isFalse (fun e => h (by injection e))

end

instance : DecidableEq Expr := decEq

/-- The name of an expression that is a bare symbol. -/
def asSymbol? : Expr → Option String
  | .sym name => some name
  | _ => none

mutual

/-- The symbols in argument position, from left to right. -/
def symbols : Expr → List String
  | .lit _ => []
  | .sym name => [name]
  | .call _ args => symbolsOfArgs args

/-- The symbols of a list of arguments, from left to right. -/
def symbolsOfArgs : List Expr → List String
  | [] => []
  | arg :: rest => symbols arg ++ symbolsOfArgs rest

end

section Fill

variable {m : Type → Type} [Monad m] (isPlaceholder : String → Bool) (fill : String → m Expr)

mutual

/-- Put an expression in place of every placeholder symbol, from left to right. -/
def fillPlaceholders : Expr → m Expr
  | .lit value => pure (.lit value)
  | .sym name => if isPlaceholder name then fill name else pure (.sym name)
  | .call op args => do
    let filled ← fillArgs args
    pure (.call op filled)

/-- Put an expression in place of every placeholder symbol of a list of arguments. -/
def fillArgs : List Expr → m (List Expr)
  | [] => pure []
  | arg :: rest => do
    let first ← fillPlaceholders arg
    let others ← fillArgs rest
    pure (first :: others)

end

end Fill

mutual

/-- The height: one for a literal or a symbol, and one more than the highest argument for a call. -/
def height : Expr → Nat
  | .lit _ => 1
  | .sym _ => 1
  | .call _ args => 1 + heightOfArgs args

/-- The height of the highest argument; zero if there is none. -/
def heightOfArgs : List Expr → Nat
  | [] => 0
  | arg :: rest => max (height arg) (heightOfArgs rest)

end

end Expr

end TypedGrammar
