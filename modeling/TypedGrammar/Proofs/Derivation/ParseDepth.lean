import TypedGrammar.Proofs.Derivation.BoundedDepth
import TypedGrammar.Proofs.Derivation.ParseCompleteness

/-!
# How deeply a parse is nested

On one expression the types being tried are distinct types of the grammar, and they are forgotten only
when the search goes on with a part of the expression. So no more searches can be nested than there are
types, on each level of the expression, up to one search that is refused at once. This bounds the depth
of the trees that are found. It also makes the recursion of the search well-founded, and so the answer
is the one that the recursion determines, whatever fuel it was computed with.
-/

namespace TypedGrammar.Grammar

variable {g : Grammar} {fuel : Nat} {s : Search} {stack : List Search} {type : String} {e : Expr}
  {visiting : List String} {t : Tree}

/-- The search enters its type: the type has a rule and is not being tried yet. -/
def Entered (g : Grammar) (s : Search) : Prop := s.type ∉ s.visiting ∧ g.hasType s.type = true

/-! ### Stacks of searches -/

namespace EnoughFuel

/-- A stack of searches that call one another uses up one unit of fuel for each call. -/
theorem length_le_of_isChain (h : EnoughFuel g fuel s.visiting s.expr)
    (hchain : (s :: stack).IsChain (Calls g)) : stack.length ≤ fuel := by
  induction stack generalizing s fuel with
  | nil => exact Nat.zero_le fuel
  | cons s' rest ih =>
    obtain ⟨hcall, hrest⟩ := List.isChain_cons_cons.mp hchain
    obtain ⟨less, rfl, hless⟩ := h.call hcall
    exact Nat.succ_le_succ (ih hless hrest)

/-- If the last search enters its type as well, it uses up one unit more. -/
theorem length_le_of_entered (h : EnoughFuel g fuel s.visiting s.expr)
    (hchain : (s :: stack).IsChain (Calls g)) (hentered : ∀ s' ∈ s :: stack, Entered g s') :
    (s :: stack).length ≤ fuel := by
  induction stack generalizing s fuel with
  | nil =>
    obtain ⟨hfresh, htype⟩ := hentered s List.mem_cons_self
    obtain ⟨rest, rfl, -⟩ := h.enter hfresh htype
    exact Nat.succ_le_succ (Nat.zero_le rest)
  | cons s' rest ih =>
    obtain ⟨hcall, hrest⟩ := List.isChain_cons_cons.mp hchain
    obtain ⟨less, rfl, hless⟩ := h.call hcall
    exact Nat.succ_le_succ (ih hless hrest fun x hx => hentered x (List.mem_cons_of_mem _ hx))

/-- There is enough fuel for each search of such a stack. -/
theorem exists_of_mem_isChain (h : EnoughFuel g fuel s.visiting s.expr)
    (hchain : (s :: stack).IsChain (Calls g)) :
    ∀ s' ∈ s :: stack, ∃ fuel', EnoughFuel g fuel' s'.visiting s'.expr := by
  induction stack generalizing s fuel with
  | nil => exact List.forall_mem_singleton.mpr ⟨fuel, h⟩
  | cons s' rest ih =>
    obtain ⟨hcall, hrest⟩ := List.isChain_cons_cons.mp hchain
    obtain ⟨less, -, hless⟩ := h.call hcall
    exact List.forall_mem_cons.mpr ⟨⟨fuel, h⟩, ih hless hrest⟩

/-- Searches do not call one another without end. -/
theorem acc (h : EnoughFuel g fuel s.visiting s.expr) : Acc (fun s' s => Calls g s s') s := by
  induction fuel generalizing s with
  | zero =>
    refine ⟨s, fun s' hcall => ?_⟩
    obtain ⟨rest, hrest, -⟩ := h.call hcall
    cases hrest
  | succ fuel ih =>
    refine ⟨s, fun s' hcall => ?_⟩
    obtain ⟨rest, hrest, hless⟩ := h.call hcall
    obtain rfl := Nat.succ.inj hrest
    exact ih hless

end EnoughFuel

/-! ### The depth of a tree -/

/-- A tree that is found is no deeper than the fuel that was there to find it. -/
theorem depth_le_of_matchType (h : g.matchType fuel type e visiting = .ok (some t)) :
    t.depth ≤ fuel := by
  induction fuel generalizing type e visiting t with
  | zero => cases h
  | succ fuel ih =>
    obtain ⟨-, entry, -, hordinary | himmediate⟩ := of_searchBy h
    · obtain ⟨r, -, body, children, -, -, hmatch, rfl⟩ := of_matchOrdinary hordinary
      have hchildren : ∀ child ∈ children, child.depth ≤ fuel := by
        intro child hchild
        obtain ⟨s, -, hs⟩ := hmatch.exists_call child hchild
        exact ih hs
      have hmax := Tree.maxDepth_le_iff.mpr hchildren
      rw [Tree.depth]
      omega
    · obtain ⟨value, r, -, -, rfl⟩ := of_matchImmediate himmediate
      rw [Tree.depth]
      omega

/-! ### The bound -/

/-- Parsing an expression by a type nests searches within a bound. -/
structure NestsWithin (g : Grammar) (type : String) (e : Expr) (bound : Nat) : Prop where
  /-- A stack of searches that call one another goes beyond the bound by one search at most. -/
  stack_le : ∀ stack : List Search, (⟨type, e, []⟩ :: stack).IsChain (Calls g) →
    (⟨type, e, []⟩ :: stack : List Search).length ≤ bound + 1
  /-- A stack of searches that all enter their types stays within the bound. -/
  entered_le : ∀ stack : List Search, (⟨type, e, []⟩ :: stack).IsChain (Calls g) →
    (∀ s ∈ (⟨type, e, []⟩ :: stack : List Search), Entered g s) →
      (⟨type, e, []⟩ :: stack : List Search).length ≤ bound
  /-- The types that are being tried are distinct types of the grammar. -/
  visiting : ∀ stack : List Search, (⟨type, e, []⟩ :: stack).IsChain (Calls g) →
    ∀ s ∈ (⟨type, e, []⟩ :: stack : List Search),
      s.visiting.Nodup ∧ ∀ x ∈ s.visiting, g.hasType x = true
  /-- They become one more on the same expression, and none on a part of it. -/
  step : ∀ s s', Calls g s s' → (s'.expr = s.expr ∧ s'.visiting = s.type :: s.visiting) ∨
    (Relation.TransGen IsArgument s'.expr s.expr ∧ s'.visiting = [])
  /-- What a search answers depends on the searches that it calls, and on nothing else. -/
  calls : ∀ search search' s, (∀ s', Calls g s s' →
      search s'.type s'.expr s'.visiting = search' s'.type s'.expr s'.visiting) →
    searchBy g search s.type s.expr s.visiting = searchBy g search' s.type s.expr s.visiting
  /-- The searches do not call one another without end. -/
  terminates : Acc (fun s' s => Calls g s s') ⟨type, e, []⟩
  /-- The bound is fuel enough, and more fuel makes no difference. -/
  fuel : ∀ fuel, bound ≤ fuel → g.matchType fuel type e [] = g.matchType bound type e []
  /-- Whatever satisfies the recursion of the search gives the same answer. -/
  recursion : ∀ search, searchBy g search = search →
    search type e [] = g.matchType bound type e []
  /-- A tree that is found is no deeper than the bound. -/
  depth_le : ∀ t, g.fromExpression e type = .ok t → t.depth ≤ bound

/-- A parse nests no more searches than there are types, on each level of the expression. -/
theorem parse_nestsWithin (g : Grammar) (type : String) (e : Expr) :
    NestsWithin g type e (g.types.size * e.height) := by
  have henough : EnoughFuel g (g.types.size * e.height) [] e := .scratch (Nat.le_refl _)
  have hfuel : ∀ fuel, g.types.size * e.height ≤ fuel →
      g.matchType fuel type e [] = g.matchType (g.types.size * e.height) type e [] :=
    fun fuel hle => matchType_eq_of_enoughFuel (.scratch hle) henough
  exact {
    stack_le := fun stack hchain =>
      Nat.succ_le_succ (henough.length_le_of_isChain (s := ⟨type, e, []⟩) hchain)
    entered_le := fun stack hchain hentered =>
      henough.length_le_of_entered (s := ⟨type, e, []⟩) hchain hentered
    visiting := fun stack hchain s hs => by
      obtain ⟨fuel, hs⟩ := henough.exists_of_mem_isChain (s := ⟨type, e, []⟩) hchain s hs
      exact ⟨hs.nodup, hs.known⟩
    step := fun s s' hcall => hcall.step.2.2.2
    calls := fun search search' s hsame => searchBy_congr hsame
    terminates := henough.acc (s := ⟨type, e, []⟩)
    fuel := hfuel
    recursion := fun search hsearch => search_eq_matchType hsearch henough
    depth_le := fun t ht => by
      have hparse : g.parseFuel e = g.types.size * e.height + (e.height + 1) := by
        rw [parseFuel, Nat.add_mul]
        omega
      have hfound := fromExpression_eq_ok_iff.mp ht
      rw [hfuel _ (by omega)] at hfound
      exact depth_le_of_matchType hfound }

/-- A rule of the table that stands for another type makes a search call one for that type. -/
theorem Consistent.calls_place (hg : Consistent g) {r : RuleId} {rule : Rule} {name : String}
    (hfresh : rule.type ∉ visiting) (hr : g.ruleAt? r = some rule) (hordinary : rule.immediate = false)
    (hbody : rule.body = .sym name) (htype : g.hasType name = true) :
    Calls g ⟨rule.type, e, visiting⟩ ⟨name, e, rule.type :: visiting⟩ := by
  obtain ⟨entry, hentry⟩ := Option.isSome_iff_exists.mp (hg.hasType_of_ruleAt? hr)
  exact .intro hfresh hentry ((hg.rules_of_entry hentry r).mpr ⟨rule, hr, rfl⟩)
    (by rw [isImmediate_of_ruleAt? hr, hordinary]) (body_of_ruleAt? hr)
    (by rw [hbody]; exact .place htype e _)

/-- Searches run around the cycle once before one is refused, which is as far as the bound allows. -/
theorem unitCycle_nestsWithin :
    ([⟨"A", .lit (.int 1), []⟩, ⟨"B", .lit (.int 1), ["A"]⟩,
      ⟨"A", .lit (.int 1), ["B", "A"]⟩] : List Search).IsChain (Calls unitCycle) ∧
    NestsWithin unitCycle "A" (.lit (.int 1)) 2 := by
  have hg : Consistent unitCycle :=
    Reachable.consistent ((Reachable.empty.addRules _ _).addRule _ _)
  have hA : unitCycle.ruleAt? ⟨0⟩ = some ⟨"A", .sym "B", false, [.nonterminal "B"]⟩ := by cbv
  have hB : unitCycle.ruleAt? ⟨2⟩ = some ⟨"B", .sym "A", false, [.nonterminal "A"]⟩ := by cbv
  have hfirst : Calls unitCycle ⟨"A", .lit (.int 1), []⟩ ⟨"B", .lit (.int 1), ["A"]⟩ :=
    hg.calls_place List.not_mem_nil hA rfl rfl (by cbv)
  have hsecond : Calls unitCycle ⟨"B", .lit (.int 1), ["A"]⟩ ⟨"A", .lit (.int 1), ["B", "A"]⟩ :=
    hg.calls_place (by decide) hB rfl rfl (by cbv)
  have hbound : unitCycle.types.size * (Expr.lit (.int 1)).height = 2 := by cbv
  exact ⟨.cons_cons hfirst (.cons_cons hsecond (.singleton _)),
    hbound ▸ parse_nestsWithin unitCycle "A" (.lit (.int 1))⟩

end TypedGrammar.Grammar
