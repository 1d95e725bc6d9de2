import TypedGrammar.Proofs.Derivation.ParseMatching
import TypedGrammar.Proofs.Tree.FirstDifference

/-!
# The parse that is preferred

A search takes the first ordinary rule whose body matches, and an immediate rule only if there is none.
It does not come back to a choice once the places of a body are matched. Still the tree that it finds is
the first among all acyclic derivations that match the expression: where another one differs from it
first, the other one applies a rule that is less preferred.
-/

namespace TypedGrammar.Grammar

variable {g : Grammar} {r s : RuleId} {type : String} {e : Expr} {t u : Tree} {ts us : List Tree}

/-! ### Preferences -/

/-- An ordinary rule is preferred to an immediate one, and among rules of one kind the lower one is. -/
def Prefers (g : Grammar) (r s : RuleId) : Prop :=
  g.isImmediate r = .ok false ∧ g.isImmediate s = .ok true ∨
    g.isImmediate r = g.isImmediate s ∧ r < s

/-- No rule is preferred to itself. -/
theorem Prefers.ne (h : g.Prefers r s) : r ≠ s := by
  rintro rfl
  obtain ⟨hordinary, himmediate⟩ | ⟨-, hlt⟩ := h
  · rw [hordinary] at himmediate
    cases himmediate
  · exact Nat.lt_irrefl r.index hlt

/-- A tree is preferred to another when its rule is, where they differ first. -/
def PrefersTree (g : Grammar) (t u : Tree) : Prop :=
  ∃ path r s, t.DiffersFirst u path r s ∧ g.Prefers r s

/-- Trees are preferred to others when the first one that is not the same is. -/
def PrefersTrees (g : Grammar) (ts us : List Tree) : Prop :=
  ∃ left t u right right', ts = left ++ t :: right ∧ us = left ++ u :: right' ∧ g.PrefersTree t u

/-- A preferred rule at the root makes a tree preferred. -/
theorem Prefers.tree (h : g.Prefers r s) (ht : t.rule? = some r) (hu : u.rule? = some s) :
    g.PrefersTree t u :=
  ⟨[], r, s, .root ht hu h.ne, h⟩

/-- Preferring a tree means preferring the list that has only this tree. -/
theorem PrefersTree.single (h : g.PrefersTree t u) : g.PrefersTrees [t] [u] :=
  ⟨[], t, u, [], [], rfl, rfl, h⟩

namespace PrefersTrees

/-- Preferred children make a node of the same rule preferred. -/
theorem apply (h : g.PrefersTrees ts us) (x : RuleId) : g.PrefersTree (.apply x ts) (.apply x us) := by
  obtain ⟨left, t, u, right, right', rfl, rfl, path, r, s, hdiffers, hprefers⟩ := h
  exact ⟨_, r, s, hdiffers.child x left right right', hprefers⟩

/-- What comes behind makes no difference. -/
theorem append_right (h : g.PrefersTrees ts us) (later later' : List Tree) :
    g.PrefersTrees (ts ++ later) (us ++ later') := by
  obtain ⟨left, t, u, right, right', rfl, rfl, hprefers⟩ := h
  exact ⟨left, t, u, right ++ later, right' ++ later', by simp, by simp, hprefers⟩

/-- Behind the same trees the preference is the same. -/
theorem append_left (h : g.PrefersTrees ts us) (first : List Tree) :
    g.PrefersTrees (first ++ ts) (first ++ us) := by
  obtain ⟨left, t, u, right, right', rfl, rfl, hprefers⟩ := h
  exact ⟨first ++ left, t, u, right, right', by simp, by simp, hprefers⟩

end PrefersTrees

/-! ### The search finds a preferred tree -/

mutual

/-- With enough fuel a search finds a derivation that matches, or one that is preferred to it. -/
theorem Fits.search (hg : Consistent g) : ∀ {type : String} {e : Expr} {u : Tree},
    Fits g type e u → ∀ (fuel : Nat) (visiting : List String), EnoughFuel g fuel visiting e →
      Acyclic g u → (g.unitChain u).Disjoint visiting →
      ∃ t, g.matchType fuel type e visiting = .ok (some t) ∧ (t = u ∨ g.PrefersTree t u)
  | _, _, _, @Fits.apply _ r rule e us hr hordinary h, fuel, visiting, hfuel, hacyclic, havoids => by
    have hfresh : rule.type ∉ visiting := fun hmem => havoids (mem_unitChain hr) hmem
    obtain ⟨rest, rfl, hrest⟩ := hfuel.enter hfresh (hg.hasType_of_ruleAt? hr)
    have hplaces : g.isPlace rule.body = true →
        ∀ child ∈ us, (g.unitChain child).Disjoint (rule.type :: visiting) := by
      intro hbody
      obtain ⟨child, rfl⟩ := h.eq_singleton hbody
      have hchain := hacyclic [] _ rfl
      rw [unitChain_unit hr hbody] at hchain havoids
      exact List.forall_mem_singleton.mpr (List.disjoint_cons_right.mpr
        ⟨(List.nodup_cons.mp hchain).1, (List.disjoint_cons_left.mp havoids).2⟩)
    obtain ⟨ts, hts, hprefers⟩ := h.search hg rest (rule.type :: visiting) hrest
      (fun child hchild => hacyclic.of_mem hchild) hplaces
    obtain ⟨s, trees, hfound, hfirst⟩ := hg.matchType_first hfresh hr hordinary hts
    refine ⟨_, hfound, ?_⟩
    obtain ⟨rfl, rfl⟩ | ⟨hlt, hs⟩ := hfirst
    · rcases hprefers with rfl | hprefers
      · exact .inl rfl
      · exact .inr (hprefers.apply s)
    · have hkind : g.isImmediate s = g.isImmediate r := by
        rw [hs, isImmediate_of_ruleAt? hr, hordinary]
      exact .inr (Prefers.tree (.inr ⟨hkind, hlt⟩) rfl rfl)
  | _, _, _, @Fits.immediate _ r rule hr himmediate value, fuel, visiting, hfuel, _, havoids => by
    have hfresh : rule.type ∉ visiting := by
      rw [unitChain_immediate hr] at havoids
      exact List.singleton_disjoint.mp havoids
    obtain ⟨rest, rfl, -⟩ := hfuel.enter hfresh (hg.hasType_of_ruleAt? hr)
    have hkind : g.isImmediate r = .ok true := by rw [isImmediate_of_ruleAt? hr, himmediate]
    obtain ⟨s, trees, hfound, hs⟩ | ⟨s, hfound, hfirst⟩ :=
      hg.matchType_first_literal hfresh hr himmediate value
    · exact ⟨_, hfound, .inr (Prefers.tree (.inl ⟨hs, hkind⟩) rfl rfl)⟩
    · refine ⟨_, hfound, ?_⟩
      obtain rfl | ⟨hlt, hs⟩ := hfirst
      · exact .inl rfl
      · exact .inr (Prefers.tree (.inr ⟨hs.trans hkind.symm, hlt⟩) rfl rfl)

/-- Matching a body finds the trees that match its places, or some that are preferred to them. -/
theorem FitsBody.search (hg : Consistent g) : ∀ {body e : Expr} {us : List Tree},
    FitsBody g body e us → ∀ (fuel : Nat) (visiting : List String), EnoughFuel g fuel visiting e →
      (∀ u ∈ us, Acyclic g u) →
      (g.isPlace body = true → ∀ u ∈ us, (g.unitChain u).Disjoint visiting) →
      ∃ ts, MatchedBy g (g.matchType fuel) body e visiting ts ∧ (ts = us ∨ g.PrefersTrees ts us)
  | _, _, _, .lit value, _, visiting, _, _, _ => ⟨[], .lit value visiting, .inl rfl⟩
  | _, _, _, @FitsBody.place _ name e u htype h, fuel, visiting, hfuel, hacyclic, havoids => by
    obtain ⟨t, ht, hprefers⟩ := h.search hg fuel visiting hfuel (hacyclic u List.mem_cons_self)
      (havoids htype u List.mem_cons_self)
    refine ⟨[t], .place htype ht, ?_⟩
    rcases hprefers with rfl | hprefers
    · exact .inl rfl
    · exact .inr hprefers.single
  | _, _, _, .symbol htype, _, visiting, _, _, _ => ⟨[], .symbol htype visiting, .inl rfl⟩
  | _, _, _, .constant htype hvalue, _, visiting, _, _, _ =>
    ⟨[], .constant htype hvalue visiting, .inl rfl⟩
  | _, _, _, @FitsBody.call _ op args others us h, fuel, visiting, hfuel, hacyclic, _ => by
    have hlower : ∀ e ∈ others, EnoughFuel g fuel [] e := fun e he =>
      hfuel.descend (IsArgument.height_lt ⟨op, others, rfl, he⟩)
    obtain ⟨ts, hts, hprefers⟩ := h.search hg fuel hlower hacyclic
    exact ⟨ts, .call op hts visiting, hprefers⟩

/-- The same for the arguments of a call. -/
theorem FitsArgs.search (hg : Consistent g) : ∀ {args others : List Expr} {us : List Tree},
    FitsArgs g args others us → ∀ fuel : Nat, (∀ e ∈ others, EnoughFuel g fuel [] e) →
      (∀ u ∈ us, Acyclic g u) →
      ∃ ts, ArgsMatchedBy g (g.matchType fuel) args others ts ∧ (ts = us ∨ g.PrefersTrees ts us)
  | _, _, _, .nil, _, _, _ => ⟨[], .nil, .inl rfl⟩
  | _, _, _, @FitsArgs.cons _ arg e rest others us later harg hrest, fuel, hfuel, hacyclic => by
    obtain ⟨hfirst, hlater⟩ := List.forall_mem_append.mp hacyclic
    obtain ⟨ts, hts, hprefers⟩ := harg.search hg fuel [] (hfuel e List.mem_cons_self) hfirst
      fun _ _ _ => List.disjoint_nil_right _
    obtain ⟨ts', hts', hprefers'⟩ := hrest.search hg fuel
      (fun e' he' => hfuel e' (List.mem_cons_of_mem _ he')) hlater
    refine ⟨ts ++ ts', .cons hts hts', ?_⟩
    rcases hprefers with rfl | hprefers
    · rcases hprefers' with rfl | hprefers'
      · exact .inl rfl
      · exact .inr (hprefers'.append_left ts)
    · exact .inr (hprefers.append_right ts' later)

end

/-! ### The tree that parsing gives -/

/-- Among the acyclic derivations of the type that match the expression the tree is the most preferred. -/
structure MostPreferred (g : Grammar) (type : String) (e : Expr) (t : Tree) : Prop where
  /-- The tree is one of them. -/
  fits : Fits g type e t
  acyclic : Acyclic g t
  /-- Every other one applies a different rule somewhere. -/
  differs : ∀ u, Fits g type e u → Acyclic g u → u ≠ t → ∃ path r s, t.DiffersFirst u path r s
  /-- Where it does so first, the rule of the tree is preferred. -/
  prefers : ∀ u, Fits g type e u → Acyclic g u →
    ∀ path r s, t.DiffersFirst u path r s → g.Prefers r s

/-- The tree that parsing gives is the most preferred one. -/
theorem Reachable.fromExpression_mostPreferred (h : Reachable g)
    (ht : g.fromExpression e type = .ok t) : MostPreferred g type e t := by
  have hg := h.consistent
  have hfound := fromExpression_eq_ok_iff.mp ht
  have hpreferred : ∀ u, Fits g type e u → Acyclic g u → t = u ∨ g.PrefersTree t u := by
    intro u hu hacyclic
    obtain ⟨t', ht', hprefers⟩ := hu.search hg (g.parseFuel e) [] (.start (Nat.le_refl _)) hacyclic
      (List.disjoint_nil_right _)
    obtain rfl := Option.some.inj (Except.ok.inj (hfound.symm.trans ht'))
    exact hprefers
  exact {
    fits := hg.fits_of_matchType hfound
    acyclic := (hg.acyclic_of_matchType hfound).1
    differs := fun u hu hacyclic hne => by
      obtain rfl | ⟨path, r, s, hdiffers, -⟩ := hpreferred u hu hacyclic
      · exact absurd rfl hne
      · exact ⟨path, r, s, hdiffers⟩
    prefers := fun u hu hacyclic path r s hdiffers => by
      obtain rfl | ⟨path', r', s', hdiffers', hprefers⟩ := hpreferred u hu hacyclic
      · exact absurd (Option.some.inj (hdiffers.left.symm.trans hdiffers.right)) hdiffers.ne
      · obtain ⟨-, rfl, rfl⟩ := hdiffers.unique hdiffers'
        exact hprefers }

/-- Numbers that are the one, by way of another type, or drawn by the host. -/
def oneOrDrawn : Grammar :=
  (((empty.addRule "N" (.sym "M")).state.addRule "M" (.lit (.int 1))).state.addImmediateRule "N"
    (.call "rand" [])).state

/-- The one is not taken for a number that is drawn, which it could be as well. -/
theorem oneOrDrawn_mostPreferred :
    Reachable oneOrDrawn ∧
    oneOrDrawn.fromExpression (.lit (.int 1)) "N" = .ok (.apply ⟨0⟩ [.apply ⟨1⟩ []]) ∧
    MostPreferred oneOrDrawn "N" (.lit (.int 1)) (.apply ⟨0⟩ [.apply ⟨1⟩ []]) ∧
    Fits oneOrDrawn "N" (.lit (.int 1)) (.immediate ⟨2⟩ (.int 1)) ∧
    Acyclic oneOrDrawn (.immediate ⟨2⟩ (.int 1)) := by
  have hreachable : Reachable oneOrDrawn := ((Reachable.empty.addRule _ _).addRule _ _).addImmediateRule _ _
  have hparse : oneOrDrawn.fromExpression (.lit (.int 1)) "N" = .ok (.apply ⟨0⟩ [.apply ⟨1⟩ []]) := by
    cbv
  have hdrawn : oneOrDrawn.ruleAt? ⟨2⟩ = some ⟨"N", .call "rand" [], true, []⟩ := by cbv
  exact ⟨hreachable, hparse, hreachable.fromExpression_mostPreferred hparse,
    .immediate hdrawn rfl (.int 1), acyclic_immediate hdrawn (.int 1)⟩

end TypedGrammar.Grammar
