import TypedGrammar.Proofs.Derivation.PreferredWitness

/-!
# How many levels decide whether a type is productive

The types that are derivable within some levels become more with the levels, and which types one level
more adds depends on those alone. So once a level adds none there is nothing to come, and as long as each
level adds a type there are as many types as levels. Hence a type that is not derivable within as many
levels as there are types is not derivable at all.
-/

namespace TypedGrammar.Grammar

variable {g : Grammar} {allowed : RuleId → Prop} {depth : Nat} {type : String}

open Classical in
/-- The types that are derivable within some levels. -/
noncomputable def derivableTypes (g : Grammar) (allowed : RuleId → Prop) (depth : Nat) : Finset String :=
  {type ∈ g.typeNames.toFinset | g.DerivableBy allowed depth type}

/-- The derivable types of a depth are those with a derivation of this depth at most. -/
theorem Consistent.mem_derivableTypes_iff (hg : Consistent g) :
    type ∈ g.derivableTypes allowed depth ↔ g.DerivableBy allowed depth type := by
  simp only [derivableTypes, Finset.mem_filter, List.mem_toFinset, mem_typeNames]
  constructor
  · exact And.right
  · intro h
    obtain ⟨t, ht⟩ := h
    exact ⟨ht.complete.hasType hg, t, ht⟩

/-- There are no more derivable types than types. -/
theorem card_derivableTypes_le (g : Grammar) (allowed : RuleId → Prop) (depth : Nat) :
    (g.derivableTypes allowed depth).card ≤ g.typeNames.length := by
  classical
  exact (Finset.card_filter_le _ _).trans (List.toFinset_card_le _)

/-- With more levels more types are derivable. -/
theorem Consistent.monotone_derivableTypes (hg : Consistent g) (allowed : RuleId → Prop) :
    Monotone (g.derivableTypes allowed) := by
  intro depth more hle type htype
  rw [hg.mem_derivableTypes_iff] at htype ⊢
  exact htype.mono hle

/-- When more levels do not make for more types, the types are the same. -/
theorem Consistent.derivableTypes_eq_of_card_le (hg : Consistent g) {depth more : Nat} (hle : depth ≤ more)
    (hcard : (g.derivableTypes allowed more).card ≤ (g.derivableTypes allowed depth).card) :
    g.derivableTypes allowed depth = g.derivableTypes allowed more :=
  Finset.eq_of_subset_of_card_le (hg.monotone_derivableTypes allowed hle) hcard

/-- The types that are derivable within one level more are known from those that already are. -/
theorem Consistent.derivableTypes_succ_congr (hg : Consistent g) {depth more : Nat}
    (h : g.derivableTypes allowed depth = g.derivableTypes allowed more) :
    g.derivableTypes allowed (depth + 1) = g.derivableTypes allowed (more + 1) := by
  have hsame : ∀ type, g.DerivableBy allowed depth type ↔ g.DerivableBy allowed more type := by
    intro type
    rw [← hg.mem_derivableTypes_iff, h, hg.mem_derivableTypes_iff]
  ext type
  simp only [hg.mem_derivableTypes_iff, hg.derivableBy_succ_iff, hsame]

/-- Once a level adds no type, the next one adds none. -/
theorem Consistent.card_derivableTypes_stable (hg : Consistent g) {depth : Nat}
    (hcard : (g.derivableTypes allowed depth).card = (g.derivableTypes allowed (depth + 1)).card) :
    (g.derivableTypes allowed (depth + 1)).card = (g.derivableTypes allowed (depth + 2)).card := by
  have hsame := hg.derivableTypes_eq_of_card_le (Nat.le_succ depth) (Nat.le_of_eq hcard.symm)
  rw [hg.derivableTypes_succ_congr hsame]

/-- A type that is derivable is so within as many levels as there are types. -/
theorem Consistent.derivableBy_typeCount (hg : Consistent g) (h : g.DerivableBy allowed depth type) :
    g.DerivableBy allowed g.typeNames.length type := by
  rcases Nat.le_total depth g.typeNames.length with hle | hge
  · exact h.mono hle
  · have hcard := Nat.stabilises_of_monotone
      (fun _ _ hle => Finset.card_le_card (hg.monotone_derivableTypes allowed hle))
      (g.card_derivableTypes_le allowed) (fun _ => hg.card_derivableTypes_stable) hge
    rw [← hg.mem_derivableTypes_iff] at h ⊢
    rwa [hg.derivableTypes_eq_of_card_le hge (Nat.le_of_eq hcard)]

/-- A type is not derivable at all exactly when it is not derivable within as many levels as there are
types. -/
theorem Consistent.not_derivableBy_typeCount_iff (hg : Consistent g) :
    ¬ g.DerivableBy allowed g.typeNames.length type ↔ ∀ depth, ¬ g.DerivableBy allowed depth type :=
  ⟨fun h _ hderivable => h (hg.derivableBy_typeCount hderivable), fun h => h _⟩

/-- In a grammar that can come about, counting and looking for derivations have an answer for each depth.
A type that has a derivation has one of at most as many levels as there are types. So the number of its
derivations is zero for this depth exactly when it is for every depth, and likewise no derivation is found
for this depth exactly when none is found for any. -/
theorem Reachable.productive_at_typeCount (h : Reachable g) (htype : g.hasType type = true) :
    (∀ depth, (∃ n, g.countDerivations type depth = .ok n) ∧
        ∃ found, g.oneDerivation type depth = .ok found) ∧
      ((∃ depth n, g.countDerivations type depth = .ok n ∧ 0 < n) →
        ∃ n, g.countDerivations type g.typeNames.length = .ok n ∧ 0 < n) ∧
      (g.countDerivations type g.typeNames.length = .ok 0 ↔
        ∀ depth, g.countDerivations type depth = .ok 0) ∧
      (g.oneDerivation type g.typeNames.length = .ok none ↔
        ∀ depth, g.oneDerivation type depth = .ok none) := by
  have hg := h.consistent
  have hcount := hg.countDerivations_eq htype
  refine ⟨fun depth => ⟨⟨_, hcount depth⟩, ?_⟩, fun hexists => ?_, ?_, ?_⟩
  · obtain ⟨found, hfound, -⟩ := hg.oneDerivation_isWitness htype depth
    exact ⟨found, hfound⟩
  · obtain ⟨depth, n, hn, hpos⟩ := hexists
    obtain rfl := Except.ok.inj ((hcount depth).symm.trans hn)
    exact ⟨_, hcount _, hg.derivationCount_pos_iff.mpr
      (hg.derivableBy_typeCount (hg.derivationCount_pos_iff.mp hpos))⟩
  · have hzero : ∀ depth, g.countDerivations type depth = .ok 0 ↔
        ¬ g.DerivableBy (fun _ => True) depth type := by
      intro depth
      rw [hcount, Except.ok.injEq, ← hg.derivationCount_pos_iff, Nat.pos_iff_ne_zero, not_not]
    simp only [hzero]
    exact hg.not_derivableBy_typeCount_iff
  · simp only [hg.oneDerivation_eq_none_iff htype]
    exact hg.not_derivableBy_typeCount_iff

/-- A ladder of three types, and lists of lists without end. -/
def ladder : Grammar :=
  ((((empty.addRule "A" (.call "a" [.sym "B"])).state.addRule "B" (.call "b" [.sym "C"])).state.addRule "C"
    (.lit (.int 1))).state.addRule "L" (.call "l" [.sym "L"])).state

/-- The endless lists have no derivation of four levels, so they have none at all. The top of the ladder
has one of at most four levels, though none of two. -/
theorem ladder_productive_at_typeCount :
    Reachable ladder ∧ ladder.typeNames = ["A", "B", "C", "L"] ∧
    ladder.hasType "L" = true ∧ ladder.countDerivations "L" 4 = .ok 0 ∧
    (∀ depth, ladder.countDerivations "L" depth = .ok 0) ∧
    (∀ depth, ladder.oneDerivation "L" depth = .ok none) ∧
    ladder.hasType "A" = true ∧ ladder.countDerivations "A" 2 = .ok 0 ∧
    ladder.countDerivations "A" 9 = .ok 1 ∧ ∃ n, ladder.countDerivations "A" 4 = .ok n ∧ 0 < n := by
  have hreachable : Reachable ladder := (((Reachable.empty.addRule _ _).addRule _ _).addRule _ _).addRule _ _
  have htypes : ladder.typeNames = ["A", "B", "C", "L"] := by cbv
  have hlists : ladder.hasType "L" = true := by cbv
  have htop : ladder.hasType "A" = true := by cbv
  have hzero : ladder.countDerivations "L" 4 = .ok 0 := by cbv
  have hnone : ladder.oneDerivation "L" 4 = .ok none := by cbv
  have hnine : ladder.countDerivations "A" 9 = .ok 1 := by cbv
  obtain ⟨-, -, hcount, hone⟩ := hreachable.productive_at_typeCount hlists
  obtain ⟨-, hproductive, -, -⟩ := hreachable.productive_at_typeCount htop
  rw [htypes] at hcount hone hproductive
  exact ⟨hreachable, htypes, hlists, hzero, hcount.mp hzero, hone.mp hnone, htop, by cbv, hnine,
    hproductive ⟨9, 1, hnine, Nat.one_pos⟩⟩

end TypedGrammar.Grammar
