import Mathlib
import TypedGrammar.Proofs.Derivation.ReadingDrawings
import TypedGrammar.Proofs.Grammar.Reachable
import TypedGrammar.Proofs.Grammar.RuleTable
import TypedGrammar.Proofs.Tree.Preorder

/-!
# The drawing of a tree

The stack of the drawing holds nodes of the tree, each with the number of its parent. The nodes at and
below those of the stack are, in this order, the nodes of the tree in pre-order from the number on that
comes next. Hence the number that a node is given is its place in pre-order, and the number that was put
beside each of its children is the right one whenever the child is drawn. The statements can be read
again, which gives back the nodes with their labels and the edges.
-/

namespace TypedGrammar

/-- The number of the node at a path, counted from 0 in pre-order. -/
def Tree.numberAt (t : Tree) (path : Path) : Nat := t.positions.idxOf path

/-- Each node has its place in pre-order as its number. -/
theorem Tree.map_numberAt (t : Tree) : t.positions.map t.numberAt = List.range t.size := by
  refine List.ext_getElem (by simp [t.length_positions]) fun i hi _ => ?_
  rw [List.getElem_map, List.getElem_range]
  exact t.nodup_positions.idxOf_getElem i (by simpa using hi)

namespace Dot

variable {g : Grammar} {style : DotStyle} {t node : Tree} {attributes : Path → String}

/-- The label of a node: a rule with its type and its body or without them, or a rule with the literal
that it gave. A hole has other attributes than a label. -/
inductive LabelOf (g : Grammar) (style : DotStyle) : Tree → Option String → Prop where
  | body {r : RuleId} {rule : Rule} {children : List Tree} (shown : style.showBodies = true)
      (found : g.ruleAt? r = some rule) :
      LabelOf g style (.apply r children) (some (r.text ++ ": " ++ rule.type ++ " = " ++ rule.body.text))
  | number {r : RuleId} {children : List Tree} (hidden : style.showBodies = false) :
      LabelOf g style (.apply r children) (some r.text)
  | immediate {r : RuleId} {value : Value} :
      LabelOf g style (.immediate r value) (some (r.text ++ " = " ++ value.text))
  | hole {h : Hole} : LabelOf g style (.hole h) none

/-- A node has attributes if its rule is in the table, and its label can be read off them. -/
theorem exists_attributes (style : DotStyle) (hlive : ∀ r, node.rule? = some r → g.isLive r = true) :
    ∃ text, Dot.attributes g style node = .ok text ∧
      LabelOf g style node (readLabel? (text.toList ++ "];".toList)) := by
  cases node with
  | apply r children =>
    cases hshown : style.showBodies with
    | false =>
      refine ⟨labelled (escape r.text), by simp [Dot.attributes, ruleLabel, hshown], ?_⟩
      rw [readLabel?_labelled (toList_escape _)]
      exact .number hshown
    | true =>
      obtain ⟨rule, hrule⟩ := Grammar.isLive_iff.mp (hlive r rfl)
      refine ⟨labelled (escape (r.text ++ ": " ++ rule.type ++ " = " ++ rule.body.text)), ?_, ?_⟩
      · simp [Dot.attributes, ruleLabel, hshown, Grammar.live_eq_ok_iff.mpr hrule]
      · rw [readLabel?_labelled (toList_escape _)]
        exact .body hshown hrule
  | immediate r value =>
    refine ⟨_, rfl, ?_⟩
    rw [readLabel?_labelled (toList_escape _)]
    exact .immediate
  | hole h =>
    refine ⟨_, rfl, ?_⟩
    have hnone : ∀ rest, readLabel? ("shape=".toList ++ rest) = none := fun _ => rfl
    simp only [String.toList_append, List.append_assoc, hnone]
    exact .hole

/-- The edge to the node at a path from its parent, which the root does not have. -/
def edgeAt? (style : DotStyle) (t : Tree) (path : Path) : Option Edge :=
  path.getLast?.map fun index => ⟨t.numberAt path.dropLast, t.numberAt path,
    if style.edgeLabels then some (toString index) else none⟩

/-- The statements for the node at a path: its own, and behind it that of the edge, if any. -/
def linesAt (style : DotStyle) (t : Tree) (attributes : Path → String) (path : Path) : List String :=
  nodeLine (t.numberAt path) (attributes path) ::
    (path.getLast?.map fun index =>
      edgeLine style (t.numberAt path.dropLast) index (t.numberAt path)).toList

/-- The node at a path as it lies on the stack. -/
def pendingAt (t : Tree) (e : Path × Tree) : Pending :=
  ⟨e.2, e.1.getLast?.map fun index => (t.numberAt e.1.dropLast, index)⟩

/-- The children of a node wait to be drawn under the number of the node. -/
theorem map_pendingAt_childrenAt (t : Tree) (path : Path) (node : Tree) :
    (node.childrenAt path).map (pendingAt t) = childrenOf (t.numberAt path) node := by
  rw [Tree.childrenAt, childrenOf, List.map_map]
  refine List.map_congr_left fun entry _ => ?_
  simp [pendingAt]

/-- The statements of a node that waits are the lines of its position. -/
theorem statements_pendingAt {path : Path} (h : Dot.attributes g style node = .ok (attributes path)) :
    statements g style (t.numberAt path) (pendingAt t (path, node)) =
      .ok (linesAt style t attributes path) := by
  rw [statements, pendingAt, h, linesAt]
  cases path.getLast? <;> rfl

/-- The statements that are drawn for the nodes on the stack and for those below them, if these are the
nodes of the tree from a number on. -/
theorem draw_entries
    (hattributes : ∀ path node, t.subtree? path = some node →
      Dot.attributes g style node = .ok (attributes path))
    (remaining : List Path) (next : Nat) (entries : List (Path × Tree))
    (hdrop : t.positions.drop next = remaining)
    (hstack : entries.flatMap (fun e => e.2.positionsAt e.1) = remaining)
    (hentries : ∀ e ∈ entries, t.subtree? e.1 = some e.2) :
    draw g style next (entries.map (pendingAt t)) =
      .ok (remaining.flatMap (linesAt style t attributes)) := by
  induction remaining generalizing next entries with
  | nil =>
    cases entries with
    | nil => rw [List.map_nil, draw, List.flatMap_nil]
    | cons e more =>
      rw [List.flatMap_cons, Tree.positionsAt_eq] at hstack
      cases hstack
  | cons path rest ih =>
    cases entries with
    | nil => cases hstack
    | cons e more =>
      obtain ⟨here, node⟩ := e
      have hnodes : here :: (node.childrenAt here ++ more).flatMap (fun e => e.2.positionsAt e.1) =
          path :: rest := by
        rw [List.flatMap_append, ← List.cons_append, ← Tree.positionsAt_eq]
        exact hstack
      obtain ⟨rfl, hbelow⟩ := List.cons.inj hnodes
      obtain ⟨hnode, hmore⟩ := List.forall_mem_cons.mp hentries
      have hlt : next < t.positions.length :=
        Nat.lt_of_not_le fun hle => List.cons_ne_nil here rest
          (hdrop.symm.trans (List.drop_eq_nil_of_le hle))
      obtain ⟨hhere, hrest⟩ := List.cons.inj ((List.drop_eq_getElem_cons hlt).symm.trans hdrop)
      have hnumber : t.numberAt here = next := by
        rw [← hhere]
        exact t.nodup_positions.idxOf_getElem next hlt
      have hchildren : ∀ e ∈ node.childrenAt here ++ more, t.subtree? e.1 = some e.2 := by
        intro e he
        rcases List.mem_append.mp he with hchild | hlater
        · exact Tree.subtree?_of_mem_childrenAt hnode hchild
        · exact hmore e hlater
      have hdraw := ih (next + 1) (node.childrenAt here ++ more) hrest hbelow hchildren
      rw [List.map_append, map_pendingAt_childrenAt, hnumber] at hdraw
      rw [List.map_cons, draw, ← hnumber, statements_pendingAt (hattributes here node hnode), hnumber]
      simp only [ok_bind]
      rw [show (pendingAt t (here, node)).node = node from rfl, hdraw, List.flatMap_cons]
      rfl

/-- The lines between the head and the closing brace draw a tree. -/
structure Draws (g : Grammar) (style : DotStyle) (t : Tree) (body : List String) : Prop where
  /-- The nodes are numbered in pre-order. -/
  numbered : t.positions.map t.numberAt = List.range t.size
  /-- In this order there is a statement for each node, and behind it one for the edge from its parent,
  unless the node is the root. -/
  statements : ∃ attributes : Path → String,
    (∀ path node, t.subtree? path = some node → Dot.attributes g style node = .ok (attributes path)) ∧
    body = t.positions.flatMap (linesAt style t attributes)
  /-- The nodes can be read again, each with its number and its label. -/
  nodes : List.Forall₂ (fun path (found : Nat × Option String) => found.1 = t.numberAt path ∧
    ∃ node, t.subtree? path = some node ∧ LabelOf g style node found.2)
    t.positions (body.filterMap readNode?)
  /-- The edges can be read again, each with the numbers of both nodes and with the index of the child,
  if edges are labelled. -/
  edges : body.filterMap readEdge? = t.positions.filterMap (edgeAt? style t)
  /-- There are as many statements for nodes as nodes, -/
  node_count : (body.filterMap readNode?).length = t.size
  /-- and one less for edges. -/
  edge_count : (body.filterMap readEdge?).length + 1 = t.size

/-- In the lines of a position one node is read, with the number of the position and its label. -/
theorem filterMap_readNode?_linesAt (path : Path) :
    (linesAt style t attributes path).filterMap readNode? =
      [(t.numberAt path, readLabel? ((attributes path).toList ++ "];".toList))] := by
  rw [linesAt, List.filterMap_cons, readNode?_nodeLine]
  cases path.getLast? with
  | none => rfl
  | some index => simp [readNode?_edgeLine]

/-- In the lines of a position the edge from the parent is read, if there is one. -/
theorem filterMap_readEdge?_linesAt (path : Path) :
    (linesAt style t attributes path).filterMap readEdge? = (edgeAt? style t path).toList := by
  rw [linesAt, List.filterMap_cons, readEdge?_nodeLine, edgeAt?]
  cases path.getLast? with
  | none => rfl
  | some index => simp [readEdge?_edgeLine]

/-- In the body of a drawing a node is read for each position, in preorder. -/
theorem filterMap_readNode?_body :
    (t.positions.flatMap (linesAt style t attributes)).filterMap readNode? = t.positions.map
      fun path => (t.numberAt path, readLabel? ((attributes path).toList ++ "];".toList)) := by
  rw [List.filterMap_flatMap, List.map_eq_flatMap]
  exact List.flatMap_congr fun path _ => filterMap_readNode?_linesAt path

/-- In the body of a drawing an edge is read for each position but the root. -/
theorem filterMap_readEdge?_body :
    (t.positions.flatMap (linesAt style t attributes)).filterMap readEdge? =
      t.positions.filterMap (edgeAt? style t) := by
  rw [List.filterMap_flatMap, List.filterMap_eq_flatMap_toList]
  exact List.flatMap_congr fun path _ => filterMap_readEdge?_linesAt path

/-- Every node but the root has an edge. -/
theorem length_filterMap_edgeAt? :
    (t.positions.filterMap (edgeAt? style t)).length + 1 = t.size := by
  have hedge : ∀ path ∈ Tree.positionsFrom 1 t.children, (edgeAt? style t path).isSome := by
    intro path hpath
    obtain ⟨i, -, rest, -, -, rfl⟩ := Tree.mem_positionsFrom.mp hpath
    rw [edgeAt?, Option.isSome_map, List.getLast?_isSome]
    exact List.cons_ne_nil _ _
  have hroot : t.positions.filterMap (edgeAt? style t) =
      (Tree.positionsFrom 1 t.children).filterMap (edgeAt? style t) := by
    rw [Tree.positions_eq]
    rfl
  rw [hroot, List.filterMap_length_eq_length.mpr hedge, Tree.length_positionsFrom, Tree.size_eq,
    Nat.add_comm]

/-- The body of the drawing of a tree draws the tree. -/
theorem draws_of_attributes
    (hattributes : ∀ path node, t.subtree? path = some node →
      Dot.attributes g style node = .ok (attributes path) ∧
        LabelOf g style node (readLabel? ((attributes path).toList ++ "];".toList))) :
    Draws g style t (t.positions.flatMap (linesAt style t attributes)) where
  numbered := t.map_numberAt
  statements := ⟨attributes, fun path node h => (hattributes path node h).1, rfl⟩
  nodes := by
    rw [filterMap_readNode?_body, List.forall₂_map_right_iff, List.forall₂_same]
    intro path hpath
    obtain ⟨node, hnode⟩ := Tree.mem_positions.mp hpath
    exact ⟨rfl, node, hnode, (hattributes path node hnode).2⟩
  edges := filterMap_readEdge?_body
  node_count := by rw [filterMap_readNode?_body, List.length_map, Tree.length_positions]
  edge_count := by rw [filterMap_readEdge?_body, length_filterMap_edgeAt?]

end Dot

namespace Grammar

/-- Drawing a tree of rules of the table succeeds in every style, and what it draws is the tree. -/
theorem toDot_draws {g : Grammar} {t : Tree} (style : DotStyle)
    (hlive : ∀ r ∈ t.preorderRules, g.isLive r = true) :
    ∃ body, Dot.Draws g style t body ∧ g.toDot style t = .ok (String.join
      ((["graph \x7b", "node [shape=" ++ style.nodeShape ++ "];"] ++ body ++ ["\x7d"]).map
        (· ++ "\n"))) := by
  have hattributes : ∀ path, ∃ text, ∀ node, t.subtree? path = some node →
      Dot.attributes g style node = .ok text ∧
        Dot.LabelOf g style node (Dot.readLabel? (text.toList ++ "];".toList)) := by
    intro path
    cases hnode : t.subtree? path with
    | none => exact ⟨"", nofun⟩
    | some node =>
      have hrule : ∀ r, node.rule? = some r → g.isLive r = true := fun r hr =>
        hlive r ((Tree.mem_preorderRules t).mpr ⟨path, by rw [Tree.ruleAtPath?, hnode]; exact hr⟩)
      obtain ⟨text, htext, hlabel⟩ := Dot.exists_attributes style hrule
      exact ⟨text, fun found hfound => Option.some.inj hfound ▸ ⟨htext, hlabel⟩⟩
  choose attributes hattributes using hattributes
  refine ⟨_, Dot.draws_of_attributes hattributes, ?_⟩
  have hdraw := Dot.draw_entries (fun path node h => (hattributes path node h).1) t.positions 0 [([], t)]
    rfl (by simp [Tree.positionsAt]) (List.forall_mem_singleton.mpr rfl)
  rw [toDot, dotLines]
  have hstart : [([], t)].map (Dot.pendingAt t) = [⟨t, none⟩] := rfl
  rw [← hstart, hdraw]
  rfl

/-- A greeting with quotes around it, and pairs of greetings. -/
def greetings : Grammar :=
  (empty.addRules "S" [.lit (.str "\"hi\""), .call "pair" [.sym "S", .sym "S"]]).state

/-- A pair with one greeting that is still open. -/
def halfPair : Tree := .apply ⟨1⟩ [.apply ⟨0⟩ [], .unexpanded (.ofRules [⟨0⟩, ⟨1⟩])]

/-- The quotes of the greeting do not end its label. -/
theorem greetings_toDot_draws : Reachable greetings ∧
    (∀ r ∈ halfPair.preorderRules, greetings.isLive r = true) ∧
    ∃ body, Dot.Draws greetings .standard halfPair body ∧
      greetings.toDot .standard halfPair = .ok (String.join
        ((["graph \x7b", "node [shape=box];"] ++ body ++ ["\x7d"]).map (· ++ "\n"))) := by
  have hreachable : Reachable greetings := Reachable.empty.addRules _ _
  have hgreeting : greetings.isLive ⟨0⟩ = true := by cbv
  have hpair : greetings.isLive ⟨1⟩ = true := by cbv
  have hlive : ∀ r ∈ halfPair.preorderRules, greetings.isLive r = true :=
    List.forall_mem_cons.mpr ⟨hpair, List.forall_mem_singleton.mpr hgreeting⟩
  exact ⟨hreachable, hlive, toDot_draws .standard hlive⟩

end Grammar

end TypedGrammar
