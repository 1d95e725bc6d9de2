import TypedGrammar.Grammar.Basic
import TypedGrammar.Tree.Basic

/-!
# Drawing trees

A tree is drawn as a graph in the DOT language. Nodes are numbered in pre-order. Each node has a
statement of its own, and each node but the root a statement of the edge from its parent behind it.
-/

namespace TypedGrammar

/-- How a tree is drawn. -/
structure DotStyle where
  /-- The shape of nodes that apply a rule or hold a literal. -/
  nodeShape : String
  /-- The shape of holes. -/
  holeShape : String
  /-- The line style of holes that nobody has looked at. -/
  unexpandedStyle : String
  /-- The line style of holes that were narrowed. -/
  constrainedStyle : String
  /-- Are rules labelled with their type and body? -/
  showBodies : Bool
  /-- Are edges labelled with the index of the child? -/
  edgeLabels : Bool

/-- Boxes with full rules, ellipses for holes, and plain edges. -/
def DotStyle.standard : DotStyle := ⟨"box", "ellipse", "dashed", "dotted", true, false⟩

namespace Dot

/-- A node that is still to be drawn, with the number of its parent and the index of the child. -/
structure Pending where
  node : Tree
  parent : Option (Nat × Nat)

/-- The children of the node with a number, from left to right. -/
def childrenOf (id : Nat) (t : Tree) : List Pending :=
  (t.children.zipIdx 1).map fun (child, index) => ⟨child, some (id, index)⟩

/-- The characters of a text with one of them replaced by several. -/
def replaceChar (c : Char) (replacement text : List Char) : List Char :=
  text.flatMap fun d => if d = c then replacement else [d]

/-- A text as it is written in a label: with a backslash before every backslash, and then before every
quote. -/
def escape (label : String) : String :=
  String.ofList (replaceChar '\"' ['\\', '\"'] (replaceChar '\\' ['\\', '\\'] label.toList))

/-- The attribute that labels a statement. -/
def labelled (label : String) : String := "label=\"" ++ label ++ "\""

/-- The label of a node that applies a rule. -/
def ruleLabel (g : Grammar) (style : DotStyle) (r : RuleId) : Except Failure String :=
  if style.showBodies then do
    let rule ← g.live r
    return r.text ++ ": " ++ rule.type ++ " = " ++ rule.body.text
  else .ok r.text

/-- The attributes of a node. -/
def attributes (g : Grammar) (style : DotStyle) : Tree → Except Failure String
  | .apply rule _ => do return labelled (escape (← ruleLabel g style rule))
  | .immediate rule value => .ok (labelled (escape (rule.text ++ " = " ++ value.text)))
  | .hole h =>
    let line := match h.kind with
      | .unexpanded => style.unexpandedStyle
      | .constrained => style.constrainedStyle
    .ok ("shape=" ++ style.holeShape ++ ", style=" ++ line ++ ", " ++
      labelled ("?" ++ h.domain.text))

/-- The name of a node. -/
def nodeName (id : Nat) : String := "n" ++ toString id

/-- The statement of the edge from a parent to the child with an index. -/
def edgeLine (style : DotStyle) (parent index id : Nat) : String :=
  let label := if style.edgeLabels then " [" ++ labelled (toString index) ++ "]" else ""
  nodeName parent ++ " -- " ++ nodeName id ++ label ++ ";"

/-- The statements of the node with a number: its own, and that of the edge from its parent. -/
def statements (g : Grammar) (style : DotStyle) (id : Nat) (p : Pending) :
    Except Failure (List String) := do
  let own := nodeName id ++ " [" ++ (← attributes g style p.node) ++ "];"
  match p.parent with
  | none => return [own]
  | some (parent, index) => return [own, edgeLine style parent index id]

/-- The statements of the nodes of a stack and of those below them, numbered on from a number. The
children of a node go onto the stack from right to left, so that the first one is drawn next. -/
def draw (g : Grammar) (style : DotStyle) (next : Nat) (stack : List Pending) :
    Except Failure (List String) :=
  match stack with
  | [] => .ok []
  | p :: stack => do
    let first ← statements g style next p
    let others ← draw g style (next + 1) (childrenOf next p.node ++ stack)
    return first ++ others
termination_by Tree.totalSize (stack.map Pending.node)
decreasing_by
  have hchildren : (childrenOf next p.node).map Pending.node = p.node.children := by
    rw [childrenOf, List.map_map]
    exact List.zipIdx_map_fst 1 p.node.children
  simp only [List.map_append, hchildren, List.map_cons, Tree.totalSize_append, Tree.totalSize,
    Tree.size_eq]
  omega

end Dot

namespace Grammar

/-- The lines of the drawing of a tree. -/
def dotLines (g : Grammar) (style : DotStyle) (t : Tree) : Except Failure (List String) := do
  let body ← Dot.draw g style 0 [⟨t, none⟩]
  return ["graph \x7b", "node [shape=" ++ style.nodeShape ++ "];"] ++ body ++ ["\x7d"]

/-- The drawing of a tree, each line with its end. -/
def toDot (g : Grammar) (style : DotStyle) (t : Tree) : Except Failure String := do
  return String.join ((← g.dotLines style t).map (· ++ "\n"))

end Grammar

end TypedGrammar
