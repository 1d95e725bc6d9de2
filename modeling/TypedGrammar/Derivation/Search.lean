import TypedGrammar.Derivation.Commit
import TypedGrammar.Tree.Holes

/-!
# Searching derivations

`enumerate` lists the trees without holes that grow out of a tree and stay within a size. It expands
the leftmost hole by each of its legal rules in turn. Every expansion either makes the tree larger or
takes a hole away, so the room that is left together with the number of holes bounds the search.

`derive` fills holes from left to right by a list of choices.
-/

namespace TypedGrammar.Grammar

/-- Expand the hole at a path by each rule of a list and go on with each tree that this gives. -/
def expandEach (g : Grammar) (go : Tree → Except Failure (List Tree)) (t : Tree) (path : Path) :
    List RuleId → Except Failure (List Tree)
  | [] => .ok []
  | r :: rest =>
    match g.expand t path r with
    | ⟨t', .ok (), _⟩ => do
      let found ← go t'
      let others ← expandEach g go t path rest
      return found ++ others
    | ⟨_, .error failure, _⟩ => .error failure

/-- The finished trees of at most some size that grow out of a tree, with fuel for nested expansions.
`enumerate` starts with enough of it, so that what is answered without any does not matter. -/
def enumerateFrom (g : Grammar) (bound : Nat) : Nat → Tree → Except Failure (List Tree)
  | 0, _ => .ok []
  | fuel + 1, t =>
    if bound < t.size then .ok []
    else
      match t.firstHole? with
      | none => .ok [t]
      | some path => do
        let legal ← g.legalDomain t path
        g.expandEach (enumerateFrom g bound fuel) t path legal.rules

/-- The finished trees of at most some size that grow out of a tree. -/
def enumerate (g : Grammar) (t : Tree) (bound : Nat) : Except Failure (List Tree) :=
  g.enumerateFrom bound (bound + t.holeCount + 1 - t.size) t

/-- One step of a derivation by choices. -/
structure Choice where
  /-- The hole that was filled. -/
  path : Path
  /-- The rules that could fill it. -/
  legal : BitSet
  /-- The rule that was taken, if there was one to take. -/
  rule : Option RuleId

/-- Fill the hole at a path by a rule, with a literal if the rule asks for one. -/
def commitRule (g : Grammar) (t : Tree) (path : Path) (r : RuleId) (literal : Value) :
    Edit Tree Unit :=
  match g.isImmediate r with
  | .error failure => .failed t failure
  | .ok true => g.fillImmediate t path r literal
  | .ok false => g.expand t path r

/-- Fill the leftmost hole for each choice in turn: a choice counts round the legal rules. An
immediately evaluated rule gets the choice itself as its literal. The work ends where there is no
hole, or no legal rule for it. -/
def derive (g : Grammar) (t : Tree) : List Nat → Edit Tree (List Choice)
  | [] => .done t []
  | choice :: rest =>
    match t.firstHole? with
    | none => .done t []
    | some path =>
      match g.legalDomain t path with
      | .error failure => .failed t failure
      | .ok legal =>
        match legal.rules[choice % legal.rules.length]? with
        | none => .done t [⟨path, legal, none⟩]
        | some r =>
          match g.commitRule t path r (.int (Int64.ofNat choice)) with
          | ⟨t', .ok (), _⟩ => (derive g t' rest).map (⟨path, legal, some r⟩ :: ·)
          | ⟨t', .error failure, _⟩ => .failed t' failure

end TypedGrammar.Grammar
