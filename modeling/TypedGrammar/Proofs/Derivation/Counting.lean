import Mathlib
import TypedGrammar.Derivation.Count
import TypedGrammar.Proofs.Grammar.Consistency

/-!
# The recurrence behind the numbers of derivations

The number of derivations of a type with some levels to go is the sum over its rules of the products
over the types of their children, with one level less. The search for this number keeps what it has
computed and leaves a product at the first zero. Every number kept is the one of the recurrence, so
looking it up and leaving early change nothing.
-/

namespace TypedGrammar.Grammar

variable {g : Grammar} {memo : CountMemo} {type : String} {types : List String}
  {rules : List RuleId} {r : RuleId} {rule : Rule}

/-- The types of the children of a rule; none for a gap. -/
def childTypesOf (g : Grammar) (r : RuleId) : List String :=
  ((g.ruleAt? r).map Rule.childTypes).getD []

/-- The sum over the rules of a type of the products over the types of their children. -/
def derivationCount (g : Grammar) : Nat → String → Nat
  | 0, _ => 0
  | depth + 1, type => ((g.rulesOrNone type).map fun r =>
      ((g.childTypesOf r).map (derivationCount g depth)).prod).sum

/-- A rule of the table is counted with the types of its children. -/
theorem childTypesOf_of_ruleAt? (h : g.ruleAt? r = some rule) :
    g.childTypesOf r = rule.childTypes := by
  rw [childTypesOf, h]
  rfl

/-- Every number that was kept is the one of the recurrence for its type and depth. -/
def Kept (g : Grammar) (memo : CountMemo) : Prop :=
  ∀ type depth n, memo.lookup (type, depth) = some n → n = g.derivationCount depth type

/-- Nothing was kept at first. -/
theorem kept_nil (g : Grammar) : Kept g [] := nofun

/-- The number of the recurrence may be kept. -/
theorem Kept.cons (h : Kept g memo) (type : String) (depth : Nat) :
    Kept g (((type, depth), g.derivationCount depth type) :: memo) := by
  intro type' depth' n hn
  rw [List.lookup_cons] at hn
  by_cases hkey : (type', depth') = (type, depth)
  · obtain ⟨rfl, rfl⟩ := Prod.mk.inj hkey
    simpa using hn.symm
  · have hother : ((type', depth') == (type, depth)) = false := beq_eq_false_iff_ne.mpr hkey
    rw [hother] at hn
    exact h type' depth' n hn

section Step

variable {count : String → CountMemo → Except Failure (Nat × CountMemo)} {f : String → Nat}

/-- A product that is left at the first zero is the whole product. -/
theorem countProduct_eq (hcount : ∀ type memo, Kept g memo →
      ∃ memo', count type memo = .ok (f type, memo') ∧ Kept g memo')
    (factor : Nat) (hmemo : Kept g memo) (types : List String) :
    ∃ memo', countProduct count factor memo types = .ok (factor * (types.map f).prod, memo') ∧
      Kept g memo' := by
  induction types generalizing factor memo with
  | nil => exact ⟨memo, by simp [countProduct], hmemo⟩
  | cons type rest ih =>
    obtain ⟨memo', htype, hmemo'⟩ := hcount type memo hmemo
    rw [countProduct, htype, ok_bind]
    by_cases hzero : factor * f type = 0
    · refine ⟨memo', ?_, hmemo'⟩
      simp [hzero, ← mul_assoc]
      rfl
    · obtain ⟨memo'', hrest, hmemo''⟩ := ih (factor * f type) hmemo'
      refine ⟨memo'', ?_, hmemo''⟩
      simp [hzero, hrest, mul_assoc]

/-- The sum over rules of the table of the products over the types of their children. -/
theorem countSum_eq (hcount : ∀ type memo, Kept g memo →
      ∃ memo', count type memo = .ok (f type, memo') ∧ Kept g memo')
    (hrules : ∀ r ∈ rules, ∃ rule, g.ruleAt? r = some rule) (hmemo : Kept g memo) :
    ∃ memo', countSum g count memo rules =
      .ok ((rules.map fun r => ((g.childTypesOf r).map f).prod).sum, memo') ∧ Kept g memo' := by
  induction rules generalizing memo with
  | nil => exact ⟨memo, rfl, hmemo⟩
  | cons r rest ih =>
    obtain ⟨rule, hrule⟩ := hrules r List.mem_cons_self
    obtain ⟨memo', hproduct, hmemo'⟩ := countProduct_eq hcount 1 hmemo rule.childTypes
    obtain ⟨memo'', hrest, hmemo''⟩ := ih (fun x hx => hrules x (List.mem_cons_of_mem _ hx)) hmemo'
    refine ⟨memo'', ?_, hmemo''⟩
    rw [countSum, childTypes_of_ruleAt? hrule, ok_bind, hproduct, ok_bind]
    simp only [hrest, ok_bind, one_mul, List.map_cons, List.sum_cons, childTypesOf_of_ruleAt? hrule]
    rfl

end Step

/-- With numbers of the recurrence kept, the search finds the number of the recurrence. -/
theorem Indexed.countType_eq (hg : Indexed g) (depth : Nat) (type : String) (hmemo : Kept g memo) :
    ∃ memo', g.countType depth type memo = .ok (g.derivationCount depth type, memo') ∧
      Kept g memo' := by
  induction depth generalizing type memo with
  | zero => exact ⟨memo, rfl, hmemo⟩
  | succ depth ih =>
    rw [countType]
    cases hlookup : memo.lookup (type, depth + 1) with
    | some n => exact ⟨memo, by rw [hmemo type (depth + 1) n hlookup], hmemo⟩
    | none =>
      have hrules : ∀ r ∈ g.rulesOrNone type, ∃ rule, g.ruleAt? r = some rule := by
        intro r hr
        obtain ⟨rule, hrule, -⟩ := hg.mem_listed_iff.mp hr
        exact ⟨rule, hrule⟩
      obtain ⟨memo', hsum, hmemo'⟩ := countSum_eq (fun type memo => ih type) hrules hmemo
      exact ⟨_, by rw [hsum]; rfl, hmemo'.cons type (depth + 1)⟩

/-- The number of derivations of a type of the grammar is the one of the recurrence. -/
theorem Indexed.countDerivations_eq (hg : Indexed g) (htype : g.hasType type = true) (depth : Nat) :
    g.countDerivations type depth = .ok (g.derivationCount depth type) := by
  obtain ⟨memo', hcount, -⟩ := hg.countType_eq depth type (kept_nil g)
  rw [countDerivations, if_pos htype, hcount]
  rfl

end TypedGrammar.Grammar
