import TypedGrammar.Grammar.Edit
import TypedGrammar.Proofs.Grammar.Consistency

/-!
# Searching for a rule

The search for a type and a body goes through the rules that the index lists for the type. In a
grammar with a fitting index it never fails, and it finds a rule exactly when some rule of the table
has the type and the body. So one grammar is contained in another when this one knows all its rules.
-/

namespace TypedGrammar.Grammar

variable {g other : Grammar} {r : RuleId} {rule : Rule} {type : String} {body : Expr}
  {rules : List RuleId}

/-- Some rule of the table has the type and the body. -/
def Knows (g : Grammar) (type : String) (body : Expr) : Prop :=
  ∃ r rule, g.ruleAt? r = some rule ∧ rule.type = type ∧ rule.body = body

/-- It can be decided whether a type and a body are known. -/
instance (g : Grammar) (type : String) (body : Expr) : Decidable (Knows g type body) :=
  decidable_of_iff (g.rows.toList.any fun row => row.any fun rule =>
      rule.type = type && rule.body = body) <| by
    simp only [Knows, ruleAt?_eq_some_iff, List.any_eq_true, Option.any_eq_true, Bool.and_eq_true,
      decide_eq_true_eq]
    constructor
    · rintro ⟨_, hmem, rule, rfl, hrule⟩
      obtain ⟨i, hi⟩ := List.mem_iff_getElem?.mp hmem
      exact ⟨⟨i⟩, rule, by simpa using hi, hrule⟩
    · rintro ⟨r, rule, hr, hrule⟩
      exact ⟨some rule, Array.mem_toList_iff.mpr (Array.mem_of_getElem? hr), rule, rfl, hrule⟩

/-- A type and a body are known when they are the answers for some rule. -/
theorem knows_iff : Knows g type body ↔ ∃ r, g.returnType r = .ok type ∧ g.body r = .ok body := by
  simp only [returnType_eq_ok_iff, body_eq_ok_iff]
  constructor
  · rintro ⟨r, rule, hr, htype, hbody⟩
    exact ⟨r, ⟨rule, hr, htype⟩, rule, hr, hbody⟩
  · rintro ⟨r, ⟨rule, hr, htype⟩, rule', hr', hbody⟩
    obtain rfl := Option.some.inj (hr.symm.trans hr')
    exact ⟨r, rule, hr, htype, hbody⟩

/-- A body that no rule has is not known for any type. -/
theorem not_knows_of_containsBody (h : g.containsBody body = false) (type : String) :
    ¬ Knows g type body := by
  rintro ⟨r, rule, hr, -, hbody⟩
  have hmem : some rule ∈ g.rows.toList :=
    Array.mem_toList_iff.mpr (Array.mem_of_getElem? (ruleAt?_eq_some_iff.mp hr))
  rw [containsBody, List.any_eq_false] at h
  exact h _ hmem (by simp [hbody])

/-- The search through rules of the table finds one with the body, or there is none among them. -/
theorem findBody?_cases (hrules : ∀ r ∈ rules, ∃ rule, g.ruleAt? r = some rule) (body : Expr) :
    (∃ r ∈ rules, ∃ rule, g.findBody? body rules = .ok (some r) ∧ g.ruleAt? r = some rule ∧
        rule.body = body) ∨
      (g.findBody? body rules = .ok none ∧
        ∀ r ∈ rules, ∀ rule, g.ruleAt? r = some rule → rule.body ≠ body) := by
  induction rules with
  | nil => exact .inr ⟨rfl, nofun⟩
  | cons r rest ih =>
    obtain ⟨rule, hr⟩ := hrules r List.mem_cons_self
    rw [findBody?, row_of_ruleAt? hr, ok_bind]
    by_cases hbody : rule.body = body
    · exact .inl ⟨r, List.mem_cons_self, rule, by simp [hbody]; rfl, hr, hbody⟩
    · simp only [hbody, if_false]
      rcases ih fun x hx => hrules x (List.mem_cons_of_mem _ hx) with
        ⟨found, hmem, hfound⟩ | ⟨hnone, habsent⟩
      · exact .inl ⟨found, List.mem_cons_of_mem _ hmem, hfound⟩
      · refine .inr ⟨hnone, List.forall_mem_cons.mpr ⟨fun found hfound => ?_, habsent⟩⟩
        obtain rfl := Option.some.inj (hr.symm.trans hfound)
        exact hbody

/-- The search for a type and a body finds a rule that has them, or no rule has them. -/
theorem Indexed.findRule?_cases (hg : Indexed g) (type : String) (body : Expr) :
    (∃ r rule, g.findRule? type body = .ok (some r) ∧ g.ruleAt? r = some rule ∧
        rule.type = type ∧ rule.body = body) ∨
      (g.findRule? type body = .ok none ∧ ¬ Knows g type body) := by
  rw [findRule?]
  cases hentry : g.types.get? type with
  | none =>
    refine .inr ⟨rfl, ?_⟩
    rintro ⟨r, rule, hr, rfl, -⟩
    have htype := hg.hasType_of_ruleAt? hr
    rw [hasType, NameMap.contains, hentry] at htype
    cases htype
  | some entry =>
    have hlisted := hg.rules_of_entry hentry
    have hrules : ∀ r ∈ entry.rules, ∃ rule, g.ruleAt? r = some rule := by
      intro r hr
      obtain ⟨rule, hrule, -⟩ := (hlisted r).mp hr
      exact ⟨rule, hrule⟩
    rcases findBody?_cases hrules body with ⟨r, hmem, rule, hfound, hr, hbody⟩ | ⟨hnone, habsent⟩
    · obtain ⟨rule', hr', htype⟩ := (hlisted r).mp hmem
      obtain rfl := Option.some.inj (hr.symm.trans hr')
      exact .inl ⟨r, rule, hfound, hr, htype, hbody⟩
    · refine .inr ⟨hnone, ?_⟩
      rintro ⟨r, rule, hr, htype, hbody⟩
      exact habsent r ((hlisted r).mpr ⟨rule, hr, htype⟩) rule hr hbody

/-- Looking for a type and body that are known finds a rule. -/
theorem Indexed.exists_findRule? (hg : Indexed g) {type : String} {body : Expr}
    (h : Knows g type body) : ∃ r, g.findRule? type body = .ok (some r) := by
  rcases hg.findRule?_cases type body with ⟨r, -, hfound, -⟩ | ⟨-, hnew⟩
  · exact ⟨r, hfound⟩
  · exact absurd h hnew

/-- Looking for a type and body that are not known finds nothing. -/
theorem Indexed.findRule?_of_not_knows (hg : Indexed g) {type : String} {body : Expr}
    (h : ¬ Knows g type body) : g.findRule? type body = .ok none := by
  rcases hg.findRule?_cases type body with ⟨r, rule, -, hr, htype, hbody⟩ | ⟨hnone, -⟩
  · exact absurd ⟨r, rule, hr, htype, hbody⟩ h
  · exact hnone

/-- Rules of the table are found in a grammar that knows what this one knows. -/
theorem Indexed.allFoundIn_eq_true (hother : Indexed other)
    (hknown : ∀ type body, Knows g type body → Knows other type body)
    (hrules : ∀ r ∈ rules, ∃ rule, g.ruleAt? r = some rule) :
    g.allFoundIn other rules = .ok true := by
  induction rules with
  | nil => rfl
  | cons r rest ih =>
    obtain ⟨rule, hr⟩ := hrules r List.mem_cons_self
    rw [allFoundIn, live_eq_ok_iff.mpr hr, ok_bind]
    rcases hother.findRule?_cases rule.type rule.body with ⟨found, -, hfound, -⟩ | ⟨-, hunknown⟩
    · rw [hfound]
      exact ih fun x hx => hrules x (List.mem_cons_of_mem _ hx)
    · exact absurd (hknown _ _ ⟨r, rule, hr, rfl, rfl⟩) hunknown

/-- A grammar is contained in one that knows all its rules. -/
theorem Indexed.containedIn_eq_true (hother : Indexed other)
    (hknown : ∀ type body, Knows g type body → Knows other type body) :
    g.containedIn other = .ok true :=
  hother.allFoundIn_eq_true hknown fun _ hr => exists_rule_of_mem_ruleIds hr

end TypedGrammar.Grammar
