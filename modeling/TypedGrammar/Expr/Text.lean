import TypedGrammar.Expr.Basic

/-!
# The text of an expression

An infix operator with two arguments stands between them; any other call is written as the operator
followed by its arguments in parentheses. An argument of an infix call that is itself an infix call
gets parentheses, so that the grouping can be read off the text.
-/

namespace TypedGrammar.Expr

/-- The operators that stand between their arguments. -/
def infixOperators : List String :=
  ["+", "-", "*", "/", "%", "^", "==", "!=", "<", ">", "<=", ">=", "&&", "||"]

/-- Is a call of the operator with so many arguments written infix? -/
def writtenInfix (op : String) (arity : Nat) : Bool := arity = 2 && infixOperators.contains op

/-- Is the expression a call that is written infix? -/
def isInfixCall : Expr → Bool
  | .call op args => writtenInfix op args.length
  | _ => false

/-- The text of an argument of an infix call. -/
def operandText (isInfix : Bool) (text : String) : String :=
  if isInfix then "(" ++ text ++ ")" else text

mutual

/-- The text of an expression. -/
def text : Expr → String
  | .lit value => value.text
  | .sym name => name
  | .call op args =>
    if writtenInfix op args.length then (" " ++ op ++ " ").intercalate (operandTexts args)
    else op ++ "(" ++ ", ".intercalate (argumentTexts args) ++ ")"

/-- The texts of the arguments of an infix call. -/
def operandTexts : List Expr → List String
  | [] => []
  | arg :: rest => operandText (isInfixCall arg) (text arg) :: operandTexts rest

/-- The texts of the arguments of any other call. -/
def argumentTexts : List Expr → List String
  | [] => []
  | arg :: rest => text arg :: argumentTexts rest

end

end TypedGrammar.Expr
