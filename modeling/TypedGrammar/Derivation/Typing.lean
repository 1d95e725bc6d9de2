import TypedGrammar.Grammar.Basic
import TypedGrammar.Tree.Walk

/-!
# Types of nodes and typed replacement

A grammar gives a type to the node of a tree, and its rules say which types their children have.
`replace` and `replaceRoot` put one tree in the place of another only if the types agree. They look
at the root of the new tree alone; a hole without candidates has no type and fits everywhere.
-/

namespace TypedGrammar.Grammar

/-- The type of a node. A hole has the type of its first candidate, and none without candidates. -/
def nodeType (g : Grammar) : Tree → Except Failure (Option String)
  | .apply rule _ => do return some (← g.returnType rule)
  | .immediate rule _ => do return some (← g.returnType rule)
  | .hole h =>
    match h.domain.firstRule? with
    | some rule => do return some (← g.returnType rule)
    | none => .ok none

/-- The type that the rule of the parent asks for at a path. The root has no parent. -/
def expectedType (g : Grammar) (t : Tree) (path : Path) : Except Failure (Option String) :=
  match path.getLast? with
  | none => .ok none
  | some index => do
    t.checkPath path
    match (← t.nodeAt path.dropLast).bind Tree.rule? with
    | none => report (.invalidPath path .throughHole)
    | some rule =>
      match (← g.childTypes rule)[index - 1]? with
      | some type => pure (some type)
      | none => report (.invalidPath path .pastArity)

/-- Report two types that are both known and differ. -/
def checkTypes (path : Path) : Option String → Option String → Except Failure Unit
  | some expected, some found =>
    if expected = found then .ok () else report (.typeMismatch path expected found)
  | _, _ => .ok ()

/-- Put a subtree in place of the node at a path if it has the type asked for there. The answer is
the node that was there. -/
def replace (g : Grammar) (t : Tree) (path : Path) (subtree : Tree) : Edit Tree Tree :=
  if path.isEmpty then .refused t .emptyPath
  else
    let check : Except Failure Unit := do
      let expected ← g.expectedType t path
      let found ← g.nodeType subtree
      checkTypes path expected found
    match check with
    | .ok () => t.swap path subtree
    | .error failure => .failed t failure

/-- Put another tree in place of the whole if it has the same type. The answer is the former tree. -/
def replaceRoot (g : Grammar) (t root : Tree) : Edit Tree Tree :=
  let check : Except Failure Unit := do
    let expected ← g.nodeType t
    let found ← g.nodeType root
    checkTypes [] expected found
  match check with
  | .ok () => .done root t
  | .error failure => .failed t failure

end TypedGrammar.Grammar
