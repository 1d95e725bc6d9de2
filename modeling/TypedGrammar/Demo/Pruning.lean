import TypedGrammar.Demo.CommandLine
import TypedGrammar.Demo.Run
import TypedGrammar.Derivation.Expression
import TypedGrammar.Derivation.Search
import TypedGrammar.Grammar.Edit
import TypedGrammar.Grammar.Listing

/-!
# The pruning demonstration

Lists the small derivations of an arithmetic grammar, first freely and then under three constraints.
-/

namespace TypedGrammar.Demo.Pruning

/-- The options of the demonstration. -/
structure Options where
  /-- The greatest number of nodes of a derivation. -/
  size : Nat
  /-- Is every derivation written out? -/
  verbose : Bool

/-- Read a command line; the size is 5 unless it is given. -/
def Options.read? (args : List String) : Option Options :=
  (readArguments ⟨["--verbose"], []⟩ .empty args).map fun a => ⟨a.number.getD 5, a.has "--verbose"⟩

/-- The options on one line. -/
def Options.text (o : Options) : String :=
  "Cli \x7b size: " ++ toString o.size ++ ", verbose: " ++ Value.truthText o.verbose ++ " \x7d"

/-- The bodies of the grammar: three leaves, a sum, a product and a negation. -/
def bodies : List Expr :=
  let real : Expr := .sym "Real"
  [.lit (.int 0), .lit (.int 1), .sym "x", .call "+" [real, real], .call "*" [real, real],
    .call "neg" [real]]

/-- The grammar without constraints. -/
def grammar : Except Failure Grammar := (Grammar.empty.addRules "Real" bodies).settled

/-- The constraints: no double negation, no zero directly below a product, and products only
somewhere below a sum. -/
def constraints : List Constraint :=
  [.forbidden [⟨5⟩, ⟨5⟩], .forbidden [⟨4⟩, ⟨0⟩], .comesAfter ⟨4⟩ [⟨3⟩]]

/-- Register constraints one after the other. -/
def addConstraints (g : Grammar) : List Constraint → Except Failure Grammar
  | [] => .ok g
  | c :: rest => do addConstraints (← (g.addConstraint c).settled) rest

/-- The lines about the derivations of a grammar; the last one has their number. -/
def programLines (g : Grammar) (o : Options) (label : String) :
    Except Failure (List OutputLine) := do
  let programs ← g.enumerate (← g.rootHole "Real") o.size
  let texts ← if o.verbose then programs.mapM g.toExpression else pure []
  return texts.map (fun e => .plain ("  " ++ e.text)) ++
    [.timed (toString programs.length ++ " programs " ++ label ++ " constraints in ")]

/-- The demonstration with given options. -/
def actions (o : Options) : Except Failure (List Action) := do
  let g ← grammar
  let free ← programLines g o "without"
  let g ← addConstraints g constraints
  let pruned ← programLines g o "with"
  let listing := (← g.listingLines).map OutputLine.plain
  return ([OutputLine.plain ("args = " ++ o.text)] ++ free ++ listing ++ pruned).map Action.print

/-- The demonstration for a command line. -/
def plan (args : List String) : Plan :=
  match Options.read? args with
  | some o => .ofResult (actions o)
  | none => .refuse

end TypedGrammar.Demo.Pruning
