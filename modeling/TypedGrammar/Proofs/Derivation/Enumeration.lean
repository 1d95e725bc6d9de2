import TypedGrammar.Proofs.Derivation.SearchFuel

/-!
# Enumerating derivations

The search expands the leftmost hole by each of its candidates. The room that is left together with the
number of holes shrinks with each step, so the search settles: more fuel does not change what it lists.
By induction over that measure it lists the finished trees that refine the one it started from, each of
them once, since every tree has one rule in the place of the hole. The expansions have less room or fewer
holes than the tree, which is why the searches from them settle before the search from the tree does.
-/

namespace TypedGrammar.Grammar

variable {g : Grammar} {bound n : Nat} {t t' s : Tree} {path : Path} {type : String}
  {found : List Tree}

/-- With at least some fuel the search gives the list. -/
def Settles (g : Grammar) (bound n : Nat) (t : Tree) (found : List Tree) : Prop :=
  ∀ fuel, n ≤ fuel → g.enumerateFrom bound fuel t = .ok found

/-- The list has the trees that a property picks out, each of them once. -/
structure ListsExactly (found : List Tree) (right : Tree → Prop) : Prop where
  nodup : found.Nodup
  mem_iff : ∀ s, s ∈ found ↔ right s

/-! ### One step -/

/-- The search below each rule of a list settles if the search below each expansion does, and lists
what these list, provided that no tree is right for two rules. -/
theorem expandEach_settles {rules : List RuleId} {right : RuleId → Tree → Prop}
    (hrules : rules.Nodup)
    (hstep : ∀ r ∈ rules, ∃ t' found, g.expand t path r = .done t' () ∧ Settles g bound n t' found ∧
      ListsExactly found (right r))
    (hdisjoint : ∀ r r' s, right r s → right r' s → r = r') :
    ∃ found, (∀ fuel, n ≤ fuel →
        g.expandEach (g.enumerateFrom bound fuel) t path rules = .ok found) ∧
      ListsExactly found fun s => ∃ r ∈ rules, right r s := by
  induction rules with
  | nil => exact ⟨[], fun _ _ => rfl, .nil, by simp⟩
  | cons r rest ih =>
    obtain ⟨hr, hrest⟩ := List.nodup_cons.mp hrules
    obtain ⟨t', first, hexpand, hsettles, hfirst⟩ := hstep r List.mem_cons_self
    obtain ⟨later, hlater, hlists⟩ := ih hrest fun x hx => hstep x (List.mem_cons_of_mem _ hx)
    refine ⟨first ++ later, fun fuel hfuel => ?_, ?_, fun s => ?_⟩
    · rw [expandEach, hexpand]
      simp only [Edit.done, hsettles fuel hfuel, hlater fuel hfuel, ok_bind]
      rfl
    · refine List.nodup_append.mpr ⟨hfirst.nodup, hlists.nodup, fun a ha b hb => ?_⟩
      intro hsame
      subst hsame
      obtain ⟨r', hr', hright'⟩ := (hlists.mem_iff a).mp hb
      exact hr (hdisjoint r r' a ((hfirst.mem_iff a).mp ha) hright' ▸ hr')
    · rw [List.mem_append, hfirst.mem_iff, hlists.mem_iff]
      simp only [List.exists_mem_cons_iff]

/-- The search gives nothing for a tree that is too large, whatever the fuel. -/
theorem settles_of_too_large (hlarge : bound < t.size) : Settles g bound n t [] := by
  intro fuel _
  cases fuel with
  | zero => rfl
  | succ fuel => rw [enumerateFrom, if_pos hlarge]

/-- The search gives a finished tree within the bound back. -/
theorem settles_of_finished (hsmall : ¬ bound < t.size) (hnone : t.firstHole? = none) :
    Settles g bound (n + 1) t [t] := by
  intro fuel hfuel
  obtain ⟨rest, rfl⟩ := Nat.exists_eq_add_of_le' hfuel
  rw [← Nat.add_assoc, enumerateFrom, if_neg hsmall, hnone]

/-- A tree that is too large has no refinement within the bound. -/
theorem lists_of_too_large (hlarge : bound < t.size) :
    ListsExactly [] fun s => Refines g t s ∧ s.size ≤ bound where
  nodup := .nil
  mem_iff s := by
    refine ⟨fun hs => absurd hs List.not_mem_nil, fun ⟨hrefines, hsize⟩ => ?_⟩
    have hgrows := hrefines.size_le
    omega

/-- A finished tree within the bound is the one refinement of itself. -/
theorem lists_of_finished (hfree : t.containsHole = false) (hsmall : t.size ≤ bound) :
    ListsExactly [t] fun s => Refines g t s ∧ s.size ≤ bound where
  nodup := List.pairwise_singleton _ t
  mem_iff s := by
    rw [List.mem_singleton]
    constructor
    · intro hsame
      subst hsame
      exact ⟨refines_self s hfree, hsmall⟩
    · exact fun hs => hs.1.eq_of_containsHole_eq_false hfree

section Step

variable {ctx : Context} {hole : Hole} {node : Tree} {r r' : RuleId}

/-- The search from a tree that is not too large settles on what expanding its leftmost hole by each
candidate gives. -/
theorem settles_of_expandEach (hfree : g.constraints = [])
    (hsmall : ¬ bound < (ctx.plug (.hole hole)).size)
    (hfirst : (ctx.plug (.hole hole)).firstHole? = some ctx.path)
    (hfound : ∀ fuel, n ≤ fuel → g.expandEach (g.enumerateFrom bound fuel) (ctx.plug (.hole hole))
      ctx.path hole.domain.rules = .ok found) :
    Settles g bound (n + 1) (ctx.plug (.hole hole)) found := by
  intro fuel hfuel
  obtain ⟨rest, rfl⟩ := Nat.exists_eq_add_of_le' hfuel
  have hrest := hfound (rest + n) (Nat.le_add_left n rest)
  rw [← Nat.add_assoc, enumerateFrom, if_neg hsmall, hfirst]
  simp only [legalDomain_plug hfree, ok_bind, hrest]

/-- The tree is to be listed below the expansion of the place by a rule. -/
def Below (g : Grammar) (bound : Nat) (ctx : Context) (r : RuleId) (s : Tree) : Prop :=
  (∃ node, g.expansion r = .ok node ∧ Refines g (ctx.plug node) s) ∧ s.size ≤ bound

/-- To be listed below an expansion is what refines the tree with its node and stays within the bound. -/
theorem below_iff (hnode : g.expansion r = .ok node) :
    Below g bound ctx r s ↔ Refines g (ctx.plug node) s ∧ s.size ≤ bound := by
  simp only [Below, hnode, Except.ok.injEq, exists_eq_left']

/-- No tree is to be listed below two rules. -/
theorem Below.rule_unique (h : Below g bound ctx r s) (h' : Below g bound ctx r' s) : r = r' := by
  obtain ⟨⟨node, hnode, hrefines⟩, -⟩ := h
  obtain ⟨⟨node', hnode', hrefines'⟩, -⟩ := h'
  have hroot := hrefines.rule_at_path (rule?_of_expansion hnode)
  rw [hrefines'.rule_at_path (rule?_of_expansion hnode')] at hroot
  exact (Option.some.inj hroot).symm

/-- What is to be listed for a tree is what is to be listed below one of the candidates of a hole. -/
theorem Consistent.exists_below_iff (hg : Consistent g)
    (hexpandable : Expandable g (ctx.plug (.hole hole))) :
    (∃ r ∈ hole.domain.rules, Below g bound ctx r s) ↔
      Refines g (ctx.plug (.hole hole)) s ∧ s.size ≤ bound := by
  rw [hg.refines_plug_hole_iff hexpandable]
  simp only [BitSet.mem_rules]
  constructor
  · intro hexists
    obtain ⟨r, hr, ⟨node, hnode, hrefines⟩, hsize⟩ := hexists
    exact ⟨⟨node, ⟨r, hr, hnode⟩, hrefines⟩, hsize⟩
  · intro hexists
    obtain ⟨⟨node, ⟨r, hr, hnode⟩, hrefines⟩, hsize⟩ := hexists
    exact ⟨r, hr, ⟨node, hnode, hrefines⟩, hsize⟩

end Step

/-! ### The whole search -/

/-- The search from a tree whose holes can be expanded settles on the finished trees that refine it
and stay within the bound. -/
theorem Consistent.enumerateFrom_settles (hg : Consistent g) (hfree : g.constraints = [])
    (hordinary : ∀ r rule, g.ruleAt? r = some rule → rule.immediate = false) (n : Nat) (t : Tree)
    (hexpandable : Expandable g t) (hroom : bound + t.holeCount + 1 ≤ n + t.size) :
    ∃ found, Settles g bound n t found ∧
      ListsExactly found fun s => Refines g t s ∧ s.size ≤ bound := by
  induction n generalizing t with
  | zero =>
    have hlarge : bound < t.size := by omega
    exact ⟨[], settles_of_too_large hlarge, lists_of_too_large hlarge⟩
  | succ n ih =>
    by_cases hlarge : bound < t.size
    · exact ⟨[], settles_of_too_large hlarge, lists_of_too_large hlarge⟩
    · rcases t.firstHole?_eq with ⟨hfinished, hnone⟩ | ⟨ctx, hole, rfl, -, hfirst⟩
      · exact ⟨[t], settles_of_finished hlarge hnone,
          lists_of_finished hfinished (Nat.not_lt.mp hlarge)⟩
      · have hstep : ∀ r ∈ hole.domain.rules, ∃ t' found,
            g.expand (ctx.plug (.hole hole)) ctx.path r = .done t' () ∧
            Settles g bound n t' found ∧ ListsExactly found (Below g bound ctx r) := by
          intro r hr
          have hcandidate := BitSet.mem_rules.mp hr
          obtain ⟨rule, hrule, himmediate⟩ := hexpandable.rule_of_candidate hcandidate
          obtain ⟨node, hnode⟩ := hg.exists_expansion hrule himmediate
          have hexpand := expand_plug hexpandable hcandidate hnode
          have hroom' := room_of_expand (congrArg Edit.result hexpand) hroom
          rw [hexpand] at hroom'
          obtain ⟨found, hsettles, hlists⟩ := ih (ctx.plug node)
            (hexpandable.replug (hg.expandable_expansion hordinary hnode)) hroom'
          exact ⟨ctx.plug node, found, hexpand, hsettles, hlists.nodup, fun s =>
            (hlists.mem_iff s).trans (below_iff hnode).symm⟩
        obtain ⟨found, hfound, hlists⟩ :=
          expandEach_settles hole.domain.rules_nodup hstep fun _ _ _ h h' => h.rule_unique h'
        exact ⟨found, settles_of_expandEach hfree hlarge hfirst hfound, hlists.nodup, fun s =>
          (hlists.mem_iff s).trans (hg.exists_below_iff hexpandable)⟩

/-- In a grammar without constraints and without immediate rules the search from the hole of a type
ends without a failure, and it lists exactly the complete derivations of the type within the bound,
each of them once. Fuel beyond the bound changes nothing: the calls of the search come to an end, and
whatever satisfies its recursion gives the same list. -/
theorem Reachable.enumerate_exact (h : Reachable g) (hfree : g.constraints = [])
    (hordinary : ∀ r, g.isImmediate r ≠ .ok true) (htype : g.hasType type = true) (bound : Nat) :
    ∃ root found, g.rootHole type = .ok root ∧ g.enumerate root bound = .ok found ∧
      (∀ fuel, bound + 1 ≤ fuel → g.enumerateFrom bound fuel root = .ok found) ∧
      Acc (fun t' t => GoesOn g bound t t') root ∧
      (∀ search, enumerateBy g bound search = search → search root = .ok found) ∧
      found.Nodup ∧ ∀ t, t ∈ found ↔ Complete g type t ∧ t.size ≤ bound := by
  have hg := h.consistent
  have hrules : ∀ r rule, g.ruleAt? r = some rule → rule.immediate = false := fun r rule hr => by
    rw [← Bool.not_eq_true]
    intro himmediate
    exact hordinary r (himmediate ▸ isImmediate_of_ruleAt? hr)
  obtain ⟨domain, hdomain⟩ := exists_domain htype
  have hfresh : FreshHole g type (.unexpanded domain) := ⟨domain, hdomain, rfl⟩
  obtain ⟨found, hsettles, hlists⟩ := hg.enumerateFrom_settles hfree hrules (bound + 1)
    (.unexpanded domain) (hfresh.expandable hg hrules) (Nat.le_refl (bound + 1 + 1))
  have hfound : g.enumerate (.unexpanded domain) bound = .ok found :=
    hsettles (bound + 1) (Nat.le_refl _)
  refine ⟨.unexpanded domain, found, ?_, hfound, hsettles, (wellFounded_goesOn g bound).apply _,
    fun search hsearch => ?_, hlists.nodup, fun t => ?_⟩
  · rw [rootHole, hdomain]
    rfl
  · rw [eq_enumerate_iff.mp hsearch]
    exact hfound
  · rw [hlists.mem_iff, hfresh.refines_iff hg]

/-- Sums of ones. -/
def onesSums : Grammar :=
  (empty.addRules "N" [.lit (.int 1), .call "+" [.sym "N", .sym "N"]]).state

/-- There are two sums of ones of at most three nodes, and the search lists them once each. -/
theorem onesSums_enumerate_exact : Reachable onesSums ∧ onesSums.constraints = [] ∧
    (∀ r, onesSums.isImmediate r ≠ .ok true) ∧ onesSums.hasType "N" = true ∧
    ∃ root found, onesSums.rootHole "N" = .ok root ∧ onesSums.enumerate root 3 = .ok found ∧
      found = [.apply ⟨0⟩ [], .apply ⟨1⟩ [.apply ⟨0⟩ [], .apply ⟨0⟩ []]] ∧ found.Nodup ∧
      ∀ t, t ∈ found ↔ Complete onesSums "N" t ∧ t.size ≤ 3 := by
  have hreachable : Reachable onesSums := Reachable.empty.addRules _ _
  have hfree : onesSums.constraints = [] := by cbv
  have htype : onesSums.hasType "N" = true := by cbv
  have hone : onesSums.isImmediate ⟨0⟩ = .ok false := by cbv
  have hsum : onesSums.isImmediate ⟨1⟩ = .ok false := by cbv
  have hsize : onesSums.rows.size = 2 := by cbv
  have hordinary : ∀ r, onesSums.isImmediate r ≠ .ok true := by
    intro r himmediate
    rcases r with ⟨_ | _ | n⟩
    · rw [hone] at himmediate
      cases himmediate
    · rw [hsum] at himmediate
      cases himmediate
    · have hbehind : onesSums.rows[n + 2]? = none :=
        Array.getElem?_eq_none (by rw [hsize]; exact Nat.le_add_left 2 n)
      rw [isImmediate, row, hbehind] at himmediate
      cases himmediate
  obtain ⟨root, found, hroot, hfound, -, -, -, hnodup, hmem⟩ :=
    hreachable.enumerate_exact hfree hordinary htype 3
  refine ⟨hreachable, hfree, hordinary, htype, root, found, hroot, hfound, ?_, hnodup, hmem⟩
  have hsearch : (onesSums.rootHole "N" >>= fun root => onesSums.enumerate root 3) =
      .ok [.apply ⟨0⟩ [], .apply ⟨1⟩ [.apply ⟨0⟩ [], .apply ⟨0⟩ []]] := by cbv
  rw [hroot, ok_bind, hfound] at hsearch
  exact Except.ok.inj hsearch

end TypedGrammar.Grammar
