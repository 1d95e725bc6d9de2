import TypedGrammar.Demo.CommandLine
import TypedGrammar.Demo.Run
import TypedGrammar.Derivation.Count
import TypedGrammar.Derivation.Dot
import TypedGrammar.Derivation.Expression
import TypedGrammar.Derivation.Parse
import TypedGrammar.Derivation.Score
import TypedGrammar.Derivation.Witness
import TypedGrammar.Grammar.Edit
import TypedGrammar.Grammar.Listing

/-!
# The arithmetic demonstration

Builds a small grammar of sums and products, counts its derivations by depth, and parses one
expression, optionally with probabilities and with a drawing of the parsed tree.
-/

namespace TypedGrammar.Demo.Arithmetic

/-- The options of the demonstration. -/
structure Options where
  /-- The greatest depth of the derivations that are counted. -/
  depth : Nat
  /-- Do leaves get a higher probability than sums and products? -/
  probabilistic : Bool
  /-- The file for the drawing. -/
  dot : Option String

/-- The options that a command line gives; the depth is 3 unless it is given. -/
def Options.ofArguments (a : Arguments) : Options :=
  ⟨a.number.getD 3, a.has "--probabilistic", a.value? "--dot"⟩

/-- Read a command line. -/
def Options.read? (args : List String) : Option Options :=
  (readArguments ⟨["--probabilistic"], ["--dot"]⟩ .empty args).map ofArguments

/-- The options on one line. -/
def Options.text (o : Options) : String :=
  let file := match o.dot with
    | some name => "Some(" ++ Text.quoted name ++ ")"
    | none => "None"
  "Cli \x7b depth: " ++ toString o.depth ++ ", probabilistic: " ++
    Value.truthText o.probabilistic ++ ", dot: " ++ file ++ " \x7d"

/-- An operator with two operands. -/
def binary (op : String) : Expr := .call op [.sym "Real", .sym "Real"]

/-- The bodies without placeholders. -/
def leaves : List Expr := [.lit (.int 1), .lit (.int 2), .sym "x"]

/-- The bodies with placeholders. -/
def branches : List Expr := [binary "+", binary "*"]

/-- Add rules of one probability. -/
def addWeighted (p : Float) (g : Grammar) : List Expr → Except Failure Grammar
  | [] => .ok g
  | body :: rest => do addWeighted p (← (g.addRuleWithProbability p "Real" body).settled) rest

/-- The grammar of sums and products. -/
def grammar (probabilistic : Bool) : Except Failure Grammar := do
  if probabilistic then
    let g ← addWeighted 2.0 .empty leaves
    let g ← addWeighted 1.0 g branches
    g.normalize.settled
  else
    let g ← (Grammar.empty.addRules "Real" leaves).settled
    (g.addRules "Real" branches).settled

/-- The expression that is parsed. -/
def sample : Expr := .call "+" [.lit (.int 1), .call "*" [.sym "x", .lit (.int 2)]]

/-- The line with the number of derivations of at most some depth. -/
def countLine (g : Grammar) (depth : Nat) : Except Failure String := do
  return "depth " ++ toString depth ++ ": " ++ toString (← g.countDerivations "Real" depth) ++
    " programs"

/-- The line with one derivation of at most some depth, if there is one. -/
def witnessLines (g : Grammar) (depth : Nat) : Except Failure (List String) := do
  match ← g.oneDerivation "Real" depth with
  | some t => return ["first program: " ++ t.text ++ " = " ++ (← g.toExpression t).text]
  | none => return []

/-- The line about a parsed expression. -/
def parseLine (e : Expr) (t : Tree) (p : LogProbability) : String :=
  e.text ++ " parses as " ++ t.text ++ " (size " ++ toString t.size ++ ", depth " ++
    toString t.depth ++ "), log p = " ++ Decimal.fixedText 3 p.value ++
    if p.isExact then "" else " (uniform estimate)"

/-- Write the drawing of a tree to a file and say so. -/
def drawActions (g : Grammar) (t : Tree) : Option String → Except Failure (List Action)
  | none => .ok []
  | some name => do
    return [.write name (← g.dotLines .standard t), .print (.plain ("Wrote " ++ name))]

/-- The demonstration with given options. -/
def actions (o : Options) : Except Failure (List Action) := do
  let g ← grammar o.probabilistic
  let counts ← (List.range' 1 o.depth).mapM (countLine g)
  let witness ← witnessLines g o.depth
  let t ← g.fromExpression sample "Real"
  let score := g.treeLogProbability t
  let p ← score.result
  let drawing ← drawActions g t o.dot
  let opening := ["args = " ++ o.text, "g = " ++ g.summary] ++ (← g.listingLines) ++ counts ++ witness
  let lines := opening.map OutputLine.plain ++ score.notices.map (fun n => .warning n.text) ++
    [.plain (parseLine sample t p)]
  return lines.map Action.print ++ drawing

/-- The demonstration for a command line. -/
def plan (args : List String) : Plan :=
  match Options.read? args with
  | some o => .ofResult (actions o)
  | none => .refuse

end TypedGrammar.Demo.Arithmetic
