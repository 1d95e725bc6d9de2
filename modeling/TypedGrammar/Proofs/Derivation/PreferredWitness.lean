import TypedGrammar.Derivation.Witness
import TypedGrammar.Proofs.Derivation.Derivability

/-!
# The derivation of bounded depth that is preferred

The search for a derivation of at most some depth tries the ordinary rules of a type from the lowest on,
and takes the first one for whose children it finds derivations. The types for which it finds none are
kept as dead ends, together with the levels that were left. A dead end stays on when the search gives up
the rule below which it came up; still it is none for a type that has a derivation within these levels. So
the search finds a derivation whenever there is one by ordinary rules, and every node of it applies the
lowest rule that can stand there.
-/

namespace TypedGrammar.Grammar

variable {g : Grammar} {depth below : Nat} {type : String} {types : List String} {r : RuleId}
  {rule : Rule} {rules : List RuleId} {dead : DeadEnds} {t : Tree} {children : List Tree}

/-- The rule is not evaluated immediately. -/
def Ordinary (g : Grammar) (r : RuleId) : Prop := g.isImmediate r = .ok false

/-- The rule can be at the root of a derivation of the type by ordinary rules with some levels below. -/
structure Viable (g : Grammar) (below : Nat) (type : String) (r : RuleId) : Prop where
  returnType_eq : g.returnType r = .ok type
  ordinary : g.Ordinary r
  children : ∃ types, g.childTypes r = .ok types ∧
    ∀ child ∈ types, g.DerivableBy g.Ordinary below child

/-- Every node applies the lowest rule that can stand there, given the levels that are left below it. -/
def LowestThroughout (g : Grammar) (depth : Nat) (t : Tree) : Prop :=
  ∀ path node, t.subtree? path = some node → ∃ r type, node.rule? = some r ∧
    g.Viable (depth - path.length - 1) type r ∧
    ∀ r', g.Viable (depth - path.length - 1) type r' → r.number ≤ r'.number

/-- No dead end is one for a type that has a derivation by ordinary rules within its levels. -/
def SoundDeadEnds (g : Grammar) (dead : DeadEnds) : Prop :=
  ∀ type depth, (type, depth) ∈ dead → ¬ g.DerivableBy g.Ordinary depth type

/-- What a search for a type has to answer: the preferred derivation by ordinary rules, or nothing if
there is none. -/
def IsWitness (g : Grammar) (depth : Nat) (type : String) : Option Tree → Prop
  | some t => g.DerivedBy g.Ordinary depth type t ∧ g.LowestThroughout depth t
  | none => ¬ g.DerivableBy g.Ordinary depth type

/-- What a search for children has to answer: the preferred derivation of each type, or nothing if some
type has none. -/
def AreWitnesses (g : Grammar) (depth : Nat) (types : List String) : Option (List Tree) → Prop
  | some children => List.Forall₂ (fun type child => g.IsWitness depth type (some child)) types children
  | none => ∃ type ∈ types, ¬ g.DerivableBy g.Ordinary depth type

/-- What a search through some rules has to answer: a node of the first one that can be at the root, with
preferred children, or nothing if there is none. -/
def IsFirstNode (g : Grammar) (depth : Nat) (type : String) (rules : List RuleId) : Option Tree → Prop
  | some t => ∃ before r after rule children, rules = before ++ r :: after ∧ t = .apply r children ∧
      (∀ s ∈ before, ¬ g.Viable depth type s) ∧ g.ruleAt? r = some rule ∧ rule.immediate = false ∧
      g.AreWitnesses depth rule.childTypes (some children)
  | none => ∀ r ∈ rules, ¬ g.Viable depth type r

/-- The search ends with an answer of a certain kind, and leaves sound dead ends behind. -/
def Concludes {α : Type} (g : Grammar) (answer : Option α → Prop)
    (search : Except Failure (Option α × DeadEnds)) : Prop :=
  ∃ found dead, search = .ok (found, dead) ∧ answer found ∧ g.SoundDeadEnds dead

/-- At first there are no dead ends. -/
theorem soundDeadEnds_nil : g.SoundDeadEnds [] := nofun

/-! ### Rules that can stand somewhere -/

/-- A rule of the table is ordinary when it is not evaluated immediately. -/
theorem ordinary_iff (hr : g.ruleAt? r = some rule) : g.Ordinary r ↔ rule.immediate = false := by
  rw [Ordinary, isImmediate_of_ruleAt? hr, Except.ok.injEq]

/-- A rule is viable at a type when it is an ordinary rule of the type and each of its children has a
derivation. -/
theorem viable_iff (hr : g.ruleAt? r = some rule) : g.Viable below type r ↔
    rule.type = type ∧ rule.immediate = false ∧
      ∀ child ∈ rule.childTypes, g.DerivableBy g.Ordinary below child := by
  constructor
  · rintro ⟨htype, hordinary, types, htypes, hchildren⟩
    obtain ⟨rule', hr', rfl⟩ := returnType_eq_ok_iff.mp htype
    obtain rfl := Option.some.inj (hr.symm.trans hr')
    obtain rfl := Except.ok.inj ((childTypes_of_ruleAt? hr).symm.trans htypes)
    exact ⟨rfl, (ordinary_iff hr).mp hordinary, hchildren⟩
  · rintro ⟨htype, hordinary, hchildren⟩
    exact ⟨returnType_eq_ok_iff.mpr ⟨rule, hr, htype⟩, (ordinary_iff hr).mpr hordinary,
      rule.childTypes, childTypes_of_ruleAt? hr, hchildren⟩

/-- A type has a derivation by ordinary rules exactly when some rule can be at its root. -/
theorem Consistent.derivableBy_ordinary_iff (hg : Consistent g) :
    g.DerivableBy g.Ordinary (depth + 1) type ↔ ∃ r, g.Viable depth type r := by
  rw [hg.derivableBy_succ_iff]
  constructor
  · rintro ⟨r, rule, hr, htype, hordinary, hchildren⟩
    exact ⟨r, (viable_iff hr).mpr ⟨htype, (ordinary_iff hr).mp hordinary, hchildren⟩⟩
  · rintro ⟨r, hviable⟩
    obtain ⟨rule, hr, htype⟩ := returnType_eq_ok_iff.mp hviable.returnType_eq
    obtain ⟨-, -, hchildren⟩ := (viable_iff hr).mp hviable
    exact ⟨r, rule, hr, htype, hviable.ordinary, hchildren⟩

/-- A rule that can stand somewhere is listed for its type. -/
theorem Viable.mem_rulesOrNone (h : g.Viable below type r) (hg : Indexed g) :
    r ∈ g.rulesOrNone type := by
  obtain ⟨rule, hr, htype⟩ := returnType_eq_ok_iff.mp h.returnType_eq
  exact hg.mem_listed_iff.mpr ⟨rule, hr, htype⟩

/-- A node with the lowest rule at its root and with preferred children is preferred. -/
theorem LowestThroughout.apply (hviable : g.Viable depth type r)
    (hlowest : ∀ r', g.Viable depth type r' → r.number ≤ r'.number)
    (hchildren : ∀ child ∈ children, g.LowestThroughout depth child) :
    g.LowestThroughout (depth + 1) (.apply r children) := by
  intro path node hnode
  cases path with
  | nil =>
    obtain rfl := Option.some.inj hnode
    exact ⟨r, type, rfl, hviable, hlowest⟩
  | cons i rest =>
    obtain ⟨child, hchild, hrest⟩ := Option.bind_eq_some_iff.mp hnode
    rw [List.length_cons, Nat.add_sub_add_right]
    exact hchildren child (Tree.mem_children_iff.mpr ⟨i, hchild⟩) rest node hrest

/-! ### One level of the search -/

/-- A rule that cannot be at the root may be passed over. -/
theorem IsFirstNode.cons {found : Option Tree} (h : g.IsFirstNode depth type rules found)
    (hnot : ¬ g.Viable depth type r) : g.IsFirstNode depth type (r :: rules) found := by
  cases found with
  | none => exact List.forall_mem_cons.mpr ⟨hnot, h⟩
  | some t =>
    obtain ⟨before, s, after, rule, children, rfl, ht, hbefore, hfirst⟩ := h
    exact ⟨r :: before, s, after, rule, children, rfl, ht, List.forall_mem_cons.mpr ⟨hnot, hbefore⟩, hfirst⟩

section Step

variable {find : String → DeadEnds → Except Failure (Option Tree × DeadEnds)}
  (hfind : ∀ type dead, g.SoundDeadEnds dead → g.Concludes (g.IsWitness depth type) (find type dead))

include hfind

/-- Looking for children finds witnesses for all types or shows that some type has none, and its dead ends
stay sound. -/
theorem findChildren_concludes (hdead : g.SoundDeadEnds dead) (types : List String) :
    g.Concludes (g.AreWitnesses depth types) (findChildren find dead types) := by
  induction types generalizing dead with
  | nil => exact ⟨some [], dead, rfl, .nil, hdead⟩
  | cons type rest ih =>
    obtain ⟨found, dead', hfound, hwitness, hdead'⟩ := hfind type dead hdead
    rw [findChildren, hfound, ok_bind]
    cases found with
    | none => exact ⟨none, dead', rfl, ⟨type, List.mem_cons_self, hwitness⟩, hdead'⟩
    | some t =>
      obtain ⟨others, dead'', hothers, hwitnesses, hdead''⟩ := ih hdead'
      dsimp only
      rw [hothers, ok_bind]
      cases others with
      | none =>
        obtain ⟨missing, hmem, hmissing⟩ := hwitnesses
        exact ⟨none, dead'', rfl, ⟨missing, List.mem_cons_of_mem _ hmem, hmissing⟩, hdead''⟩
      | some children => exact ⟨some (t :: children), dead'', rfl, .cons hwitness hwitnesses, hdead''⟩

/-- Looking for a node finds the first viable rule of a list or shows that there is none, and its dead ends
stay sound. A rule that is given up leaves its dead ends behind for the search among the others. -/
theorem findRuleNode_concludes (hdead : g.SoundDeadEnds dead)
    (hrules : ∀ r ∈ rules, ∃ rule, g.ruleAt? r = some rule ∧ rule.type = type) :
    g.Concludes (g.IsFirstNode depth type rules) (findRuleNode g find dead rules) := by
  induction rules generalizing dead with
  | nil => exact ⟨none, dead, rfl, List.forall_mem_nil _, hdead⟩
  | cons r rest ih =>
    obtain ⟨⟨rule, hr, htype⟩, hrest⟩ := List.forall_mem_cons.mp hrules
    have hpassed : ∀ dead', g.SoundDeadEnds dead' → ¬ g.Viable depth type r →
        g.Concludes (g.IsFirstNode depth type (r :: rest)) (findRuleNode g find dead' rest) := by
      intro dead' hdead' hnot
      obtain ⟨found, dead'', hfound, hfirst, hdead''⟩ := ih hdead' hrest
      exact ⟨found, dead'', hfound, hfirst.cons hnot, hdead''⟩
    rw [findRuleNode, isImmediate_of_ruleAt? hr, ok_bind]
    cases himmediate : rule.immediate with
    | true =>
      refine hpassed dead hdead fun hviable => ?_
      obtain ⟨-, hordinary, -⟩ := (viable_iff hr).mp hviable
      rw [himmediate] at hordinary
      cases hordinary
    | false =>
      obtain ⟨found, dead', hfound, hwitnesses, hdead'⟩ := findChildren_concludes hfind hdead rule.childTypes
      rw [if_neg Bool.false_ne_true, childTypes_of_ruleAt? hr, ok_bind, hfound, ok_bind]
      cases found with
      | some children =>
        exact ⟨_, dead', rfl, ⟨[], r, rest, rule, children, rfl, rfl, List.forall_mem_nil _, hr, himmediate,
          hwitnesses⟩, hdead'⟩
      | none =>
        refine hpassed dead' hdead' fun hviable => ?_
        obtain ⟨missing, hmem, hmissing⟩ := hwitnesses
        obtain ⟨-, -, hchildren⟩ := (viable_iff hr).mp hviable
        exact hmissing (hchildren missing hmem)

end Step

/-! ### The whole search -/

/-- The first rule of a type that can be at the root is the lowest one, so its node is preferred. -/
theorem IsFirstNode.isWitness {found : Option Tree} (hg : Consistent g)
    (h : g.IsFirstNode depth type (g.rulesOrNone type) found) : g.IsWitness (depth + 1) type found := by
  cases found with
  | none =>
    intro hderivable
    obtain ⟨r, hviable⟩ := hg.derivableBy_ordinary_iff.mp hderivable
    exact h r (hviable.mem_rulesOrNone hg.toIndexed) hviable
  | some t =>
    obtain ⟨before, r, after, rule, children, hsplit, rfl, hbefore, hr, hordinary, hwitnesses⟩ := h
    obtain ⟨_, hr', rfl⟩ := hg.mem_listed_iff.mp (show r ∈ g.rulesOrNone type by simp [hsplit])
    obtain rfl := Option.some.inj (hr.symm.trans hr')
    have hderived : List.Forall₂ (g.DerivedBy g.Ordinary depth) rule.childTypes children :=
      List.Forall₂.imp (fun _ _ => And.left) hwitnesses
    have hviable : g.Viable depth rule.type r := by
      refine (viable_iff hr).mpr ⟨rfl, hordinary, fun child hchild => ?_⟩
      obtain ⟨t, -, ht⟩ := Pairing.exists_right_of_mem hderived hchild
      exact ⟨t, ht⟩
    have hlowest : ∀ s, g.Viable depth rule.type s → r.number ≤ s.number := by
      intro s hs
      have hascending : (before ++ r :: after).Pairwise (· < ·) := hsplit ▸ hg.lists.ascending rule.type
      have hmem := hsplit ▸ hs.mem_rulesOrNone hg.toIndexed
      rcases List.mem_append.mp hmem with hmem | hmem
      · exact absurd hs (hbefore s hmem)
      · rcases List.mem_cons.mp hmem with rfl | hmem
        · exact Nat.le_refl _
        · have hlt := List.rel_of_pairwise_cons (List.pairwise_append.mp hascending).2.1 hmem
          exact Nat.succ_le_succ (Nat.le_of_lt hlt)
    refine ⟨.of_children hr hordinary hviable.ordinary hderived, .apply hviable hlowest ?_⟩
    intro child hchild
    obtain ⟨_, -, -, hchild⟩ := Pairing.exists_left_of_mem hwitnesses hchild
    exact hchild

/-- With sound dead ends the search for a type answers as it has to and leaves sound ones behind. -/
theorem Consistent.findType_concludes (hg : Consistent g) (depth : Nat) (type : String)
    (hdead : g.SoundDeadEnds dead) : g.Concludes (g.IsWitness depth type) (g.findType depth type dead) := by
  induction depth generalizing type dead with
  | zero => exact ⟨none, dead, rfl, not_derivableBy_zero, hdead⟩
  | succ depth ih =>
    rw [findType]
    by_cases hmem : (type, depth + 1) ∈ dead
    · rw [if_pos (List.contains_iff_mem.mpr hmem)]
      exact ⟨none, dead, rfl, hdead type (depth + 1) hmem, hdead⟩
    · rw [if_neg (mt List.contains_iff_mem.mp hmem)]
      have hrules : ∀ r ∈ g.rulesOrNone type, ∃ rule, g.ruleAt? r = some rule ∧ rule.type = type :=
        fun r hr => hg.mem_listed_iff.mp hr
      obtain ⟨found, dead', hfound, hfirst, hdead'⟩ :=
        findRuleNode_concludes (fun type _ => ih type) hdead hrules
      have hwitness := hfirst.isWitness hg
      rw [hfound, ok_bind]
      cases found with
      | some t => exact ⟨some t, dead', rfl, hwitness, hdead'⟩
      | none =>
        refine ⟨none, (type, depth + 1) :: dead', rfl, hwitness, fun type' depth' hmem' => ?_⟩
        rcases List.mem_cons.mp hmem' with hsame | hmem'
        · obtain ⟨rfl, rfl⟩ := Prod.mk.inj hsame
          exact hwitness
        · exact hdead' type' depth' hmem'

/-- For a type of the grammar there is always an answer, and it is the one that there has to be. -/
theorem Consistent.oneDerivation_isWitness (hg : Consistent g) (htype : g.hasType type = true)
    (depth : Nat) : ∃ found, g.oneDerivation type depth = .ok found ∧ g.IsWitness depth type found := by
  obtain ⟨found, dead, hfound, hwitness, -⟩ := hg.findType_concludes depth type soundDeadEnds_nil
  refine ⟨found, ?_, hwitness⟩
  rw [oneDerivation, if_pos htype, hfound]
  rfl

/-- Nothing is found exactly when there is no derivation by ordinary rules. -/
theorem Consistent.oneDerivation_eq_none_iff (hg : Consistent g) (htype : g.hasType type = true) :
    g.oneDerivation type depth = .ok none ↔ ¬ g.DerivableBy g.Ordinary depth type := by
  obtain ⟨found, hfound, hwitness⟩ := hg.oneDerivation_isWitness htype depth
  rw [hfound, Except.ok.injEq]
  cases found with
  | none => exact iff_of_true rfl hwitness
  | some t => exact iff_of_false nofun (not_not_intro ⟨t, hwitness.1⟩)

/-- In a grammar that can come about, the search for a derivation of at most some depth finds one by
ordinary rules with the lowest rule that is possible at every node, or nothing if there is no such
derivation. Without immediate rules it finds one exactly when the number of derivations is not zero. With
any dead ends that are sound the answer is as good, and the dead ends that are left are sound again. -/
theorem Reachable.oneDerivation_preferred (h : Reachable g) (htype : g.hasType type = true) (depth : Nat) :
    ((∃ t, g.oneDerivation type depth = .ok (some t) ∧ g.DerivedBy g.Ordinary depth type t ∧
          g.LowestThroughout depth t) ∨
        (g.oneDerivation type depth = .ok none ∧ ¬ g.DerivableBy g.Ordinary depth type)) ∧
      ((∀ r, g.isImmediate r ≠ .ok true) → ((∃ t, g.oneDerivation type depth = .ok (some t)) ↔
        ∃ n, g.countDerivations type depth = .ok n ∧ 0 < n)) ∧
      ∀ type depth dead, g.SoundDeadEnds dead →
        g.Concludes (g.IsWitness depth type) (g.findType depth type dead) := by
  have hg := h.consistent
  obtain ⟨found, hfound, hwitness⟩ := hg.oneDerivation_isWitness htype depth
  refine ⟨?_, fun hordinary => ?_, fun type depth _ => hg.findType_concludes depth type⟩
  · cases found with
    | some t => exact .inl ⟨t, hfound, hwitness⟩
    | none => exact .inr ⟨hfound, hwitness⟩
  · have hall : g.DerivableBy (fun _ => True) depth type ↔ g.DerivableBy g.Ordinary depth type :=
      hg.derivableBy_congr (fun r rule hr =>
        iff_of_true trivial ((ordinary_iff hr).mpr (ordinary_of_isImmediate_ne hordinary hr))) depth type
    simp only [hg.countDerivations_eq htype, Except.ok.injEq, exists_eq_left', hfound,
      hg.derivationCount_pos_iff, hall]
    cases found with
    | some t => exact iff_of_true ⟨t, rfl⟩ ⟨t, hwitness.1⟩
    | none => exact iff_of_false nofun hwitness

/-- Numbers that are rolled, or lists of lists without end paired with a number, or successors of a number,
or zero. -/
def detours : Grammar :=
  (((empty.addImmediateRule "N" (.call "roll" [])).state.addRule "L" (.call "l" [.sym "L"])).state.addRules
    "N" [.call "p" [.sym "L", .sym "N"], .call "q" [.sym "N"], .lit (.int 0)]).state

/-- The endless lists are dead ends, so the lowest rule that is possible above the last level is the one
for successors. -/
theorem detours_oneDerivation_preferred :
    Reachable detours ∧ detours.hasType "N" = true ∧
    detours.oneDerivation "N" 3 = .ok (some (.apply ⟨3⟩ [.apply ⟨3⟩ [.apply ⟨4⟩ []]])) ∧
    detours.DerivedBy detours.Ordinary 3 "N" (.apply ⟨3⟩ [.apply ⟨3⟩ [.apply ⟨4⟩ []]]) ∧
    detours.LowestThroughout 3 (.apply ⟨3⟩ [.apply ⟨3⟩ [.apply ⟨4⟩ []]]) := by
  have hreachable : Reachable detours := ((Reachable.empty.addImmediateRule _ _).addRule _ _).addRules _ _
  have htype : detours.hasType "N" = true := by cbv
  have hfound : detours.oneDerivation "N" 3 =
      .ok (some (.apply ⟨3⟩ [.apply ⟨3⟩ [.apply ⟨4⟩ []]])) := by cbv
  obtain ⟨⟨t, ht, hderived, hlowest⟩ | ⟨hnone, -⟩, -, -⟩ := hreachable.oneDerivation_preferred htype 3
  · obtain rfl := Option.some.inj (Except.ok.inj (hfound.symm.trans ht))
    exact ⟨hreachable, htype, hfound, hderived, hlowest⟩
  · cases Except.ok.inj (hfound.symm.trans hnone)

end TypedGrammar.Grammar
