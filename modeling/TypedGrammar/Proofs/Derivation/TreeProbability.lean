import TypedGrammar.Derivation.Score
import TypedGrammar.Proofs.Derivation.Compacting
import TypedGrammar.Proofs.Tree.HoleOrder

/-!
# When a tree has a probability

The sum over the rules of a tree goes through its nodes in pre-order. A filled node and a hole that has
one candidate add the log-probability of a rule; without stored probabilities this leaves a notice and
makes the sum an estimate. A narrowed hole that is still open ends the sum. When the values are forgotten,
what a part of the tree does to the sum depends on its list of nodes alone, and the lists of two parts are
put one behind the other.
-/

namespace TypedGrammar

/-! ### The nodes of a tree -/

/-- Was the hole narrowed without leaving exactly one rule? -/
def Hole.isAmbiguous (h : Hole) : Bool := h.kind = .constrained && h.determined?.isNone

/-- A hole is open when it has several candidates, or none, or just the bit that stands for no rule. -/
theorem Hole.determined?_eq_none_iff {h : Hole} : h.determined? = none ↔
    1 < h.domain.size ∨ h.domain.size = 0 ∨ h.domain.members = [0] := by
  rw [determined?, BitSet.isSingleton, BitSet.firstRule?, BitSet.rules, BitSet.size_eq_length_members]
  rcases h.domain.members with _ | ⟨i, _ | ⟨j, rest⟩⟩
  · simp
  · cases i <;> simp [RuleId.ofNumber?]
  · simp

namespace Tree

mutual

/-- The nodes of a tree, each before its children and these from left to right. -/
def nodes : Tree → List Tree
  | apply r children => apply r children :: nodesOfAll children
  | immediate r value => [immediate r value]
  | hole h => [hole h]

/-- The nodes of several trees, from left to right. -/
def nodesOfAll : List Tree → List Tree
  | [] => []
  | t :: rest => nodes t ++ nodesOfAll rest

end

/-- The rule that a node adds to the sum: its own one, or the only candidate of a hole. -/
def contributed? : Tree → Option RuleId
  | apply r _ => some r
  | immediate r _ => some r
  | hole h => h.determined?

/-- The hole that a node is, if it makes the sum ambiguous. -/
def ambiguous? (t : Tree) : Option Hole := t.hole?.filter Hole.isAmbiguous

/-- The rules that the nodes of a list add to the sum, up to the first one that makes it ambiguous. -/
def contributions (nodes : List Tree) : List RuleId :=
  (nodes.takeWhile (·.ambiguous?.isNone)).filterMap contributed?

variable {t : Tree} {left right : List Tree} {path : Path} {hole : Hole}

/-- Behind a node that makes the sum ambiguous nothing is added. -/
theorem contributions_append_of_some (h : left.findSome? ambiguous? = some hole) :
    contributions (left ++ right) = contributions left := by
  obtain ⟨before, node, behind, rfl, hnode, hbefore⟩ := List.findSome?_eq_some_iff.mp h
  have hpass : ∀ x ∈ before, x.ambiguous?.isNone = true := by
    intro x hx
    rw [hbefore x hx]
    rfl
  have hstop (others : List Tree) : (before ++ node :: others).takeWhile (·.ambiguous?.isNone) =
      before := by
    rw [List.takeWhile_append_of_pos hpass, List.takeWhile_cons_of_neg (by simp [hnode]),
      List.append_nil]
  rw [contributions, contributions, List.append_assoc, List.cons_append, hstop, hstop]

/-- Otherwise the nodes behind add theirs. -/
theorem contributions_append_of_none (h : left.findSome? ambiguous? = none) :
    contributions (left ++ right) = contributions left ++ contributions right := by
  have hpass : ∀ x ∈ left, x.ambiguous?.isNone = true := by
    intro x hx
    rw [List.findSome?_eq_none_iff.mp h x hx]
    rfl
  rw [contributions, contributions, contributions, List.takeWhile_append_of_pos hpass,
    List.takeWhile_eq_self_iff.mpr hpass, List.filterMap_append]

/-- A node that adds a rule makes no sum ambiguous. -/
theorem ambiguous?_of_contributed {r : RuleId} (h : t.contributed? = some r) : t.ambiguous? = none := by
  cases t with
  | apply rule children => rfl
  | immediate rule value => rfl
  | hole x =>
    have hdetermined : x.determined? = some r := h
    simp [ambiguous?, hole?, Hole.isAmbiguous, hdetermined]

/-! ### The first ambiguous hole -/

/-- The hole at a path, if it makes the sum ambiguous. -/
def ambiguousAt? (t : Tree) (path : Path) : Option Hole := (t.subtree? path).bind ambiguous?

mutual

/-- In pre-order the first hole that makes the sum ambiguous is the leftmost one. -/
theorem findSome?_nodes : ∀ t : Tree,
    t.nodes.findSome? ambiguous? = t.holePositions.findSome? t.ambiguousAt?
  | apply r children => findSome?_nodesOfAll r [] children
  | immediate _ _ => rfl
  | hole _ => rfl

/-- The first ambiguous node of some trees is the first ambiguous hole among their positions. -/
theorem findSome?_nodesOfAll (r : RuleId) (left : List Tree) : ∀ trees : List Tree,
    (nodesOfAll trees).findSome? ambiguous? =
      (holePositionsFrom (left.length + 1) trees).findSome? (apply r (left ++ trees)).ambiguousAt?
  | [] => rfl
  | t :: rest => by
    have hchild : (apply r (left ++ t :: rest)).child? (left.length + 1) = some t :=
      (⟨r, left, rest⟩ : Frame).child?_plug t
    have hbelow : (apply r (left ++ t :: rest)).ambiguousAt? ∘ ((left.length + 1) :: ·) =
        t.ambiguousAt? := by
      funext path
      rw [Function.comp_apply, ambiguousAt?, subtree?, hchild]
      rfl
    have hrest := findSome?_nodesOfAll r (left ++ [t]) rest
    rw [List.length_append, List.length_singleton, List.append_assoc, List.singleton_append] at hrest
    rw [nodesOfAll, holePositionsFrom, List.findSome?_append, List.findSome?_append,
      findSome?_nodes t, List.findSome?_map, hbelow, hrest]

end

/-- A sum to which no rule was added, and which is not ambiguous, is that of a hole which nobody has looked
at. -/
theorem contributions_nodes_eq_nil_iff (h : t.nodes.findSome? ambiguous? = none) :
    contributions t.nodes = [] ↔ ∃ x, t = .hole x ∧ x.kind = .unexpanded ∧ x.determined? = none := by
  have hpass := List.findSome?_eq_none_iff.mp h
  cases t with
  | apply r children => exact iff_of_false nofun nofun
  | immediate r value => exact iff_of_false nofun nofun
  | hole x =>
    have hroot : (Tree.hole x).ambiguous? = none := hpass _ List.mem_cons_self
    have hrules : contributions (Tree.hole x).nodes = x.determined?.toList := by
      rw [contributions, nodes, List.takeWhile_cons_of_pos (by rw [hroot]; rfl), List.takeWhile_nil]
      cases hdetermined : x.determined? <;> simp [contributed?, hdetermined]
    rw [hrules, Option.toList_eq_nil_iff]
    constructor
    · intro hnone
      refine ⟨x, rfl, ?_, hnone⟩
      cases hkind : x.kind with
      | unexpanded => rfl
      | constrained => simp [ambiguous?, hole?, Hole.isAmbiguous, hkind, hnone] at hroot
    · rintro ⟨y, hy, -, hnone⟩
      obtain rfl := Tree.hole.inj hy
      exact hnone

/-- At a path there is a hole that makes the sum ambiguous: it was narrowed, and no rule is determined
for it. -/
def AmbiguousAt (t : Tree) (path : Path) (h : Hole) : Prop :=
  t.nodeAt path = .ok (some (.hole h)) ∧ h.kind = .constrained ∧ h.determined? = none

/-- Of all such holes it is the leftmost one. -/
def FirstAmbiguousAt (t : Tree) (path : Path) (h : Hole) : Prop :=
  t.AmbiguousAt path h ∧ ∃ before behind, t.holePaths = before ++ path :: behind ∧
    ∀ other ∈ before, ∀ h', ¬ t.AmbiguousAt other h'

/-- What is found at a path is an ambiguous hole that stands there. -/
theorem ambiguousAt?_eq_some_iff : t.ambiguousAt? path = some hole ↔ t.AmbiguousAt path hole := by
  rw [ambiguousAt?, AmbiguousAt, nodeAt_eq_some_iff, Option.bind_eq_some_iff]
  constructor
  · rintro ⟨node, hnode, hambiguous⟩
    obtain ⟨hhole, hopen⟩ := Option.filter_eq_some_iff.mp hambiguous
    cases node with
    | hole h =>
      obtain rfl : h = hole := Option.some.inj hhole
      simpa [Hole.isAmbiguous, hnode] using hopen
    | apply r children => cases hhole
    | immediate r value => cases hhole
  · rintro ⟨hnode, hkind, hopen⟩
    exact ⟨_, hnode, Option.filter_eq_some_iff.mpr ⟨rfl, by simp [Hole.isAmbiguous, hkind, hopen]⟩⟩

/-- Nothing is found at a path where no ambiguous hole stands. -/
theorem ambiguousAt?_eq_none_iff : t.ambiguousAt? path = none ↔ ∀ h, ¬ t.AmbiguousAt path h := by
  simp only [Option.eq_none_iff_forall_ne_some, ne_eq, ambiguousAt?_eq_some_iff]

/-- The first node in pre-order that makes the sum ambiguous is the leftmost hole that does. -/
theorem findSome?_nodes_eq_some_iff :
    t.nodes.findSome? ambiguous? = some hole ↔ ∃ path, t.FirstAmbiguousAt path hole := by
  simp only [findSome?_nodes, ← holePaths_eq, List.findSome?_eq_some_iff, ambiguousAt?_eq_some_iff,
    ambiguousAt?_eq_none_iff, FirstAmbiguousAt]
  constructor
  · rintro ⟨before, path, behind, hholes, hpath, hbefore⟩
    exact ⟨path, hpath, before, behind, hholes, hbefore⟩
  · rintro ⟨path, hpath, before, behind, hholes, hbefore⟩
    exact ⟨before, path, behind, hholes, hpath, hbefore⟩

/-- No node makes the sum ambiguous when no hole does. -/
theorem findSome?_nodes_eq_none_iff :
    t.nodes.findSome? ambiguous? = none ↔ ¬ ∃ path h, t.AmbiguousAt path h := by
  rw [findSome?_nodes, List.findSome?_eq_none_iff]
  simp only [ambiguousAt?_eq_none_iff, not_exists]
  constructor
  · intro hnone path h hambiguous
    have hpath : path ∈ t.holePositions :=
      mem_holePositions.mpr ⟨h, nodeAt_eq_some_iff.mp hambiguous.1⟩
    exact hnone path hpath h hambiguous
  · exact fun hnone path _ => hnone path

/-- Where a hole makes the sum ambiguous, there is a leftmost one. -/
theorem exists_firstAmbiguousAt_iff :
    (∃ path h, t.FirstAmbiguousAt path h) ↔ ∃ path h, t.AmbiguousAt path h := by
  constructor
  · rintro ⟨path, h, hfirst⟩
    exact ⟨path, h, hfirst.1⟩
  · intro hambiguous
    cases hnodes : t.nodes.findSome? ambiguous? with
    | none => exact absurd hambiguous (findSome?_nodes_eq_none_iff.mp hnodes)
    | some h =>
      obtain ⟨path, hfirst⟩ := findSome?_nodes_eq_some_iff.mp hnodes
      exact ⟨path, h, hfirst⟩

end Tree

/-! ### Sums without their values -/

namespace Logged

/-- What is left of a log-probability when its value is forgotten: the notices, and the tag or the
failure. -/
def tag (x : Logged LogProbability) : Logged Bool := ⟨x.notices, x.result.map LogProbability.isExact⟩

/-- A sum fails as it does without its value. -/
theorem result_eq_error_iff {x : Logged LogProbability} {failure : Failure} :
    x.result = .error failure ↔ x.tag.result = .error failure := by
  obtain ⟨notices, failure' | v⟩ := x
  · exact ⟨congrArg (Except.map LogProbability.isExact), fun h => congrArg _ (Except.error.inj h)⟩
  · exact iff_of_false nofun nofun

/-- A tag that is computed is the tag of the value. -/
theorem exists_of_tag {x : Logged LogProbability} {exact : Bool} (h : x.tag.result = .ok exact) :
    ∃ v, x.result = .ok v ∧ v.isExact = exact := by
  obtain ⟨notices, failure | v⟩ := x
  · cases h
  · exact ⟨v, rfl, Except.ok.inj h⟩

/-- Two steps of which the second looks at the tag only. -/
theorem tag_bind {next : LogProbability → Logged LogProbability} (next' : Bool → Logged Bool)
    (h : ∀ v, (next v).tag = next' v.isExact) (x : Logged LogProbability) :
    (x >>= next).tag = x.tag >>= next' := by
  obtain ⟨notices, failure | v⟩ := x
  · rfl
  · change Logged.mk (notices ++ (next v).tag.notices) (next v).tag.result =
      ⟨notices ++ (next' v.isExact).notices, (next' v.isExact).result⟩
    rw [h]

end Logged

/-- A sum is exact when both parts are. -/
theorem LogProbability.isExact_add (a b : LogProbability) :
    (a + b).isExact = (a.isExact && b.isExact) := by
  cases a <;> cases b <;> rfl

namespace Grammar

variable {g : Grammar} {t : Tree} {r : RuleId}

/-- The notices that the log-probabilities of some rules leave. -/
def assumed (g : Grammar) (rules : List RuleId) : List Notice :=
  if g.isProbabilistic then [] else rules.map .uniformAssumed

/-- Without rules nothing is assumed. -/
theorem assumed_nil (g : Grammar) : g.assumed [] = [] := by simp [assumed]

/-- What is assumed for some rules and then for others is assumed for all of them in order. -/
theorem assumed_append (g : Grammar) (rules rules' : List RuleId) :
    g.assumed (rules ++ rules') = g.assumed rules ++ g.assumed rules' := by
  unfold assumed
  split
  · rfl
  · exact List.map_append

/-- What the nodes of a list do to a sum, which was exact before or was not. -/
def tagged (g : Grammar) (exact : Bool) (nodes : List Tree) : Logged Bool where
  notices := g.assumed (Tree.contributions nodes)
  result :=
    match nodes.findSome? Tree.ambiguous? with
    | some h => report (.ambiguousProbability h.domain)
    | none => .ok (exact && (g.isProbabilistic || (Tree.contributions nodes).isEmpty))

/-- The sum is ambiguous because of the first node that makes it so. -/
theorem result_tagged_eq_report_iff {exact : Bool} {nodes : List Tree} {domain : BitSet} :
    (g.tagged exact nodes).result = report (.ambiguousProbability domain) ↔
      ∃ h, nodes.findSome? Tree.ambiguous? = some h ∧ h.domain = domain := by
  rw [tagged]
  cases nodes.findSome? Tree.ambiguous? <;> simp [report]

/-- The nodes behind some others go on with the tag that these leave. -/
theorem tagged_append (g : Grammar) (exact exact' : Bool) (left right : List Tree) :
    (g.tagged exact left >>= fun tag => g.tagged (exact' && tag) right) =
      g.tagged (exact' && exact) (left ++ right) := by
  simp only [tagged, List.findSome?_append]
  cases hleft : left.findSome? Tree.ambiguous? with
  | some h =>
    rw [Tree.contributions_append_of_some hleft]
    rfl
  | none =>
    simp only [Tree.contributions_append_of_none hleft, Option.none_or]
    rw [assumed_append]
    have hempty : (Tree.contributions left ++ Tree.contributions right).isEmpty =
        ((Tree.contributions left).isEmpty && (Tree.contributions right).isEmpty) := by
      cases Tree.contributions left <;> rfl
    change Logged.mk _ _ = _
    congr 1
    cases right.findSome? Tree.ambiguous? with
    | some h => rfl
    | none => cases g.isProbabilistic <;> simp [Bool.and_assoc, hempty]

/-- What a single rule does to a sum. -/
theorem Indexed.tag_logProbability (hg : Indexed g) (hr : g.isLive r = true) :
    (g.logProbability r).tag = ⟨g.assumed [r], .ok g.isProbabilistic⟩ := by
  obtain ⟨rule, hrule⟩ := isLive_iff.mp hr
  have htype : g.returnType r = .ok rule.type := returnType_eq_ok_iff.mpr ⟨rule, hrule, rfl⟩
  rw [logProbability, htype, assumed, isProbabilistic]
  cases hws : g.weights with
  | none => rfl
  | some ws =>
    have hlt : r.index < ws.size := hg.weights_size ws hws ▸ index_lt_of_ruleAt? hrule
    have hweight : weightAt ws r = .ok ws[r.index] :=
      weightAt_eq_ok_iff.mpr (Array.getElem?_eq_getElem hlt)
    dsimp only
    rw [hweight]
    rfl

/-- A node that adds a rule does to a sum what the rule does. -/
theorem tagged_of_contributed (g : Grammar) {node : Tree} (h : node.contributed? = some r) :
    g.tagged true [node] = ⟨g.assumed [r], .ok g.isProbabilistic⟩ := by
  have hpass := Tree.ambiguous?_of_contributed h
  have hrules : Tree.contributions [node] = [r] := by simp [Tree.contributions, hpass, h]
  have hnone : [node].findSome? Tree.ambiguous? = none := by simp [hpass]
  rw [tagged, hrules, hnone]
  simp

/-- Without its value the contribution of a hole is known from the hole. -/
theorem Indexed.tag_holeLogProbability (hg : Indexed g) (hole : Hole)
    (h : ∀ r, hole.determined? = some r → g.isLive r = true) :
    (g.holeLogProbability hole).tag = g.tagged true [.hole hole] := by
  rw [holeLogProbability]
  cases hdetermined : hole.determined? with
  | some r =>
    have hadded : (Tree.hole hole).contributed? = some r := hdetermined
    rw [hg.tag_logProbability (h r hdetermined), tagged_of_contributed g hadded]
  | none =>
    cases hkind : hole.kind with
    | unexpanded =>
      have hpass : (Tree.hole hole).ambiguous? = none := by
        simp [Tree.ambiguous?, Tree.hole?, Hole.isAmbiguous, hkind]
      have hrules : Tree.contributions [.hole hole] = [] := by
        simp [Tree.contributions, hpass, Tree.contributed?, hdetermined]
      have hnone : [Tree.hole hole].findSome? Tree.ambiguous? = none := by simp [hpass]
      rw [tagged, hrules, hnone, assumed_nil]
      simp
      rfl
    | constrained =>
      have hstop : (Tree.hole hole).ambiguous? = some hole := by
        simp [Tree.ambiguous?, Tree.hole?, Hole.isAmbiguous, hkind, hdetermined]
      have hrules : Tree.contributions [.hole hole] = [] := by simp [Tree.contributions, hstop]
      have hsome : [Tree.hole hole].findSome? Tree.ambiguous? = some hole := by simp [hstop]
      rw [tagged, hrules, hsome, assumed_nil]
      rfl

mutual

/-- Without its values the sum over a tree is known from the nodes. -/
theorem Indexed.tag_treeLogProbability (hg : Indexed g) : ∀ t : Tree,
    (∀ node ∈ t.nodes, ∀ r, node.contributed? = some r → g.isLive r = true) →
    (g.treeLogProbability t).tag = g.tagged true t.nodes
  | .apply r children, h => by
    have hroot := h (.apply r children) List.mem_cons_self r rfl
    have hbelow (sum : LogProbability) := hg.tag_addLogProbabilities sum children fun node hnode =>
      h node (List.mem_cons_of_mem _ hnode)
    have hnodes := g.tagged_append true true [.apply r children] (Tree.nodesOfAll children)
    rw [tagged_of_contributed g rfl] at hnodes
    rw [treeLogProbability, Logged.tag_bind (g.tagged · (Tree.nodesOfAll children)) hbelow,
      hg.tag_logProbability hroot, Tree.nodes]
    exact hnodes
  | .immediate r value, h => by
    have hroot := h (.immediate r value) List.mem_cons_self r rfl
    rw [treeLogProbability, hg.tag_logProbability hroot, Tree.nodes, tagged_of_contributed g rfl]
  | .hole hole, h => hg.tag_holeLogProbability hole (h (.hole hole) List.mem_cons_self)

/-- Adding up over some trees tags the sum by their nodes in order. -/
theorem Indexed.tag_addLogProbabilities (hg : Indexed g) (sum : LogProbability) : ∀ trees : List Tree,
    (∀ node ∈ Tree.nodesOfAll trees, ∀ r, node.contributed? = some r → g.isLive r = true) →
    (g.addLogProbabilities sum trees).tag = g.tagged sum.isExact (Tree.nodesOfAll trees)
  | [], _ => by
    rw [addLogProbabilities, Tree.nodesOfAll, tagged, Tree.contributions, List.takeWhile_nil,
      List.filterMap_nil, assumed_nil]
    simp
    rfl
  | t :: rest, h => by
    obtain ⟨hfirst, hrest⟩ := List.forall_mem_append.mp h
    have hbehind (v : LogProbability) : (g.addLogProbabilities (sum + v) rest).tag =
        g.tagged (sum.isExact && v.isExact) (Tree.nodesOfAll rest) := by
      rw [hg.tag_addLogProbabilities (sum + v) rest hrest, LogProbability.isExact_add]
    rw [addLogProbabilities,
      Logged.tag_bind (fun tag => g.tagged (sum.isExact && tag) (Tree.nodesOfAll rest)) hbehind,
      hg.tag_treeLogProbability t hfirst, Tree.nodesOfAll, tagged_append, Bool.and_true]

end

/-! ### When there is a probability -/

/-- When a tree has a probability, how it is tagged, and which notices it leaves. -/
structure TagsProbability (g : Grammar) (t : Tree) : Prop where
  /-- There is none exactly when some hole was narrowed and is open. -/
  ambiguous_iff : (∃ domain,
    (g.treeLogProbability t).result = report (.ambiguousProbability domain)) ↔
      ∃ path h, t.AmbiguousAt path h
  /-- The failure names the domain of the leftmost such hole. -/
  domain_iff : ∀ domain,
    (g.treeLogProbability t).result = report (.ambiguousProbability domain) ↔
      ∃ path h, t.FirstAmbiguousAt path h ∧ h.domain = domain
  /-- Otherwise there is one. It is exact if the grammar stores probabilities, and else for nothing but a
  hole that nobody has looked at and that is open. -/
  exact_iff : (¬ ∃ path h, t.AmbiguousAt path h) → ∃ v, (g.treeLogProbability t).result = .ok v ∧
    (v.isExact = true ↔ g.isProbabilistic = true ∨
      ∃ h, t = .hole h ∧ h.kind = .unexpanded ∧ h.determined? = none)
  /-- A grammar without probabilities leaves a notice for each rule that is added, up to the leftmost hole
  that was narrowed and is open. -/
  plain_notices : g.isProbabilistic = false →
    (g.treeLogProbability t).notices = (Tree.contributions t.nodes).map .uniformAssumed
  /-- A grammar with probabilities leaves none. -/
  probabilistic_notices : g.isProbabilistic = true → (g.treeLogProbability t).notices = []
  /-- A hole is open when it has several candidates, or none, or just the bit that stands for no rule. -/
  open_iff : ∀ h : Hole, h.determined? = none ↔
    1 < h.domain.size ∨ h.domain.size = 0 ∨ h.domain.members = [0]

/-- The probability of a tree depends on whether the grammar stores probabilities and on the first hole
that was narrowed and is open, as long as the rules that are added are in the table. -/
theorem Reachable.tags_probability (h : Reachable g)
    (hlive : ∀ node ∈ t.nodes, ∀ r, node.contributed? = some r → g.isLive r = true) :
    TagsProbability g t := by
  have htag := h.consistent.tag_treeLogProbability t hlive
  have hnotices : (g.treeLogProbability t).notices = g.assumed (Tree.contributions t.nodes) :=
    congrArg Logged.notices htag
  have hdomain (domain : BitSet) :
      (g.treeLogProbability t).result = report (.ambiguousProbability domain) ↔
        ∃ path x, t.FirstAmbiguousAt path x ∧ x.domain = domain := by
    rw [report, Logged.result_eq_error_iff, htag]
    refine result_tagged_eq_report_iff.trans ?_
    simp only [Tree.findSome?_nodes_eq_some_iff]
    constructor
    · rintro ⟨x, ⟨path, hfirst⟩, hx⟩
      exact ⟨path, x, hfirst, hx⟩
    · rintro ⟨path, x, hfirst, hx⟩
      exact ⟨x, ⟨path, hfirst⟩, hx⟩
  exact {
    ambiguous_iff := by
      rw [← Tree.exists_firstAmbiguousAt_iff]
      simp only [hdomain]
      constructor
      · rintro ⟨-, path, x, hfirst, -⟩
        exact ⟨path, x, hfirst⟩
      · rintro ⟨path, x, hfirst⟩
        exact ⟨x.domain, path, x, hfirst, rfl⟩
    domain_iff := hdomain
    exact_iff := fun hnone => by
      have hnodes := Tree.findSome?_nodes_eq_none_iff.mpr hnone
      obtain ⟨v, hv, hexact⟩ : ∃ v, (g.treeLogProbability t).result = .ok v ∧
          v.isExact = (true && (g.isProbabilistic || (Tree.contributions t.nodes).isEmpty)) :=
        Logged.exists_of_tag (by rw [htag, tagged, hnodes])
      refine ⟨v, hv, ?_⟩
      rw [hexact, Bool.true_and, Bool.or_eq_true, List.isEmpty_iff,
        Tree.contributions_nodes_eq_nil_iff hnodes]
    plain_notices := fun hplain => by rw [hnotices, assumed, hplain]; rfl
    probabilistic_notices := fun hprobabilistic => by rw [hnotices, assumed, hprobabilistic]; rfl
    open_iff := fun _ => Hole.determined?_eq_none_iff }

/-- The left side of a comparison is settled, and the right side may be a one or a sum. The sum counts
the comparison and its left side, and is ambiguous because of its right side. -/
theorem comparisons_tags_probability :
    let settled : Tree := .hole ⟨.ofRules [⟨0⟩], .constrained⟩
    let t : Tree := .apply ⟨2⟩ [settled, .hole ⟨.ofRules [⟨0⟩, ⟨1⟩], .constrained⟩]
    Reachable comparisons ∧
      (∀ node ∈ t.nodes, ∀ r, node.contributed? = some r → comparisons.isLive r = true) ∧
      TagsProbability comparisons t ∧
      (comparisons.treeLogProbability t).result =
        report (.ambiguousProbability (.ofRules [⟨0⟩, ⟨1⟩])) ∧
      (comparisons.treeLogProbability t).notices = [.uniformAssumed ⟨2⟩, .uniformAssumed ⟨0⟩] := by
  intro settled t
  have hreachable : Reachable comparisons := (Reachable.empty.addRules _ _).addRule _ _
  have hone : comparisons.isLive ⟨0⟩ = true := by cbv
  have hcomparison : comparisons.isLive ⟨2⟩ = true := by cbv
  have hlive : ∀ node ∈ t.nodes, ∀ r, node.contributed? = some r → comparisons.isLive r = true := by
    have hnodes : ∀ r ∈ t.nodes.filterMap Tree.contributed?, comparisons.isLive r = true := by
      have hrules : t.nodes.filterMap Tree.contributed? = [⟨2⟩, ⟨0⟩] := by cbv
      rw [hrules]
      exact List.forall_mem_cons.mpr ⟨hcomparison, List.forall_mem_singleton.mpr hone⟩
    exact fun node hnode r hr => hnodes r (List.mem_filterMap.mpr ⟨node, hnode, hr⟩)
  have htags := hreachable.tags_probability hlive
  refine ⟨hreachable, hlive, htags, ?_, ?_⟩
  · have hholes : t.holePaths = [[1], [2]] := Tree.holePaths_eq t
    refine (htags.domain_iff _).mpr ⟨[2], _, ⟨⟨rfl, rfl, by cbv⟩, [[1]], [], hholes, ?_⟩, rfl⟩
    intro other hother x hambiguous
    obtain rfl := List.mem_singleton.mp hother
    have hsettled : Hole.determined? ⟨.ofRules [⟨0⟩], .constrained⟩ = some ⟨0⟩ := by cbv
    have hleft : t.nodeAt [1] = .ok (some settled) := rfl
    obtain ⟨hnode, -, hopen⟩ := hambiguous
    rw [hleft] at hnode
    obtain rfl := Tree.hole.inj (Option.some.inj (Except.ok.inj hnode))
    rw [hsettled] at hopen
    cases hopen
  · rw [htags.plain_notices (by cbv)]
    cbv

end Grammar

end TypedGrammar
