import TypedGrammar.Grammar.Basic

/-!
# The rules of a table

`ruleAt?` is the view of a rule table that the proofs use: the rule at a position, unless the
position is a gap or lies behind the table. Each question about a rule is answered here through it.
-/

namespace TypedGrammar.Grammar

variable {g : Grammar} {r : RuleId} {rule : Rule}

/-- The rule at a position; none for a gap or a position behind the table. -/
def ruleAt? (g : Grammar) (r : RuleId) : Option Rule := g.rows[r.index]?.join

/-- The rule at a position is the one in that row. -/
theorem ruleAt?_eq_some_iff : g.ruleAt? r = some rule ↔ g.rows[r.index]? = some (some rule) :=
  Option.join_eq_some_iff

/-- The rules that were not taken out are those of the view. -/
theorem isLive_iff : g.isLive r = true ↔ ∃ rule, g.ruleAt? r = some rule :=
  Option.isSome_iff_exists

/-- The listed rules are rules of the view. -/
theorem exists_rule_of_mem_ruleIds (hr : r ∈ g.ruleIds) : ∃ rule, g.ruleAt? r = some rule :=
  isLive_iff.mp (List.mem_filter.mp hr).2

/-- The row of a rule holds the rule. -/
theorem row_of_ruleAt? (h : g.ruleAt? r = some rule) : g.row r = .ok (some rule) := by
  rw [row, ruleAt?_eq_some_iff.mp h]

/-- Exactly the positions of the table have a row. -/
theorem row_isOk_iff : (∃ row, g.row r = .ok row) ↔ r.index < g.size := by
  unfold row
  cases hrow : g.rows[r.index]? with
  | none =>
    have hout := Array.getElem?_eq_none_iff.mp hrow
    exact ⟨nofun, fun hin => absurd hin (Nat.not_lt.mpr hout)⟩
  | some row => exact ⟨fun _ => (Array.getElem?_eq_some_iff.mp hrow).1, fun _ => ⟨row, rfl⟩⟩

/-- A row of the table is the rule that it holds, if it is no gap. -/
theorem row_of_lt (hr : r.index < g.size) : g.row r = .ok (g.ruleAt? r) := by
  rw [row, ruleAt?, Array.getElem?_eq_getElem hr]
  rfl

/-- A rule of the table stands before its end. -/
theorem index_lt_of_ruleAt? (h : g.ruleAt? r = some rule) : r.index < g.size :=
  (Array.getElem?_eq_some_iff.mp (ruleAt?_eq_some_iff.mp h)).1

/-- A table with a position has rows. -/
theorem isEmpty_eq_false_of_lt (hr : r.index < g.size) : g.isEmpty = false := by
  rw [isEmpty, Array.isEmpty_eq_false_iff_exists_mem]
  exact ⟨g.rows[r.index], Array.getElem_mem hr⟩

/-- The rules that a caller may ask for are those of the view. -/
theorem live_eq_ok_iff : g.live r = .ok rule ↔ g.ruleAt? r = some rule := by
  rw [ruleAt?_eq_some_iff]
  unfold live row
  rcases hrow : g.rows[r.index]? with _ | _ | found
  · exact ⟨nofun, nofun⟩
  · exact ⟨nofun, nofun⟩
  · constructor
    · intro h
      cases h
      rfl
    · intro h
      cases h
      rfl

/-- A row that holds a rule is the row of this rule. -/
theorem ruleAt?_of_row (h : g.row r = .ok (some rule)) : g.ruleAt? r = some rule := by
  apply live_eq_ok_iff.mp
  rw [live, h]
  rfl

/-- The rule at a position answers with its body. -/
theorem body_of_ruleAt? (h : g.ruleAt? r = some rule) : g.body r = .ok rule.body := by
  rw [body, live_eq_ok_iff.mpr h]
  rfl

/-- The rule at a position answers with what its symbols stand for. -/
theorem symbolKinds_of_ruleAt? (h : g.ruleAt? r = some rule) :
    g.symbolKinds r = .ok rule.kinds := by
  rw [symbolKinds, row_of_ruleAt? h]
  rfl

/-- The rule at a position answers with the types of its children. -/
theorem childTypes_of_ruleAt? (h : g.ruleAt? r = some rule) :
    g.childTypes r = .ok rule.childTypes := by
  rw [childTypes, row_of_ruleAt? h]
  rfl

/-- The rule at a position answers whether it is immediate. -/
theorem isImmediate_of_ruleAt? (h : g.ruleAt? r = some rule) :
    g.isImmediate r = .ok rule.immediate := by
  rw [isImmediate, row_of_ruleAt? h]
  rfl

/-- The rules that are evaluated immediately are those of the view that say so. -/
theorem isImmediate_eq_ok_true_iff :
    g.isImmediate r = .ok true ↔ ∃ rule, g.ruleAt? r = some rule ∧ rule.immediate = true := by
  rw [isImmediate, row, ruleAt?]
  rcases g.rows[r.index]? with _ | _ | rule
  · exact ⟨nofun, nofun⟩
  · exact ⟨nofun, nofun⟩
  · simp [pure, Except.pure]

/-- In a grammar without immediate rules every rule of the view is ordinary. -/
theorem ordinary_of_isImmediate_ne (hordinary : ∀ r, g.isImmediate r ≠ .ok true)
    (h : g.ruleAt? r = some rule) : rule.immediate = false := by
  rw [← Bool.not_eq_true]
  intro himmediate
  exact hordinary r (isImmediate_eq_ok_true_iff.mpr ⟨rule, h, himmediate⟩)

/-- Where there is a rule none was taken out. -/
theorem isRemoved_of_ruleAt? (h : g.ruleAt? r = some rule) : g.isRemoved r = .ok false := by
  rw [isRemoved, row_of_ruleAt? h]
  rfl

/-- The gaps of a table are the rules that were taken out. -/
theorem isRemoved_eq_ok_true_iff :
    g.isRemoved r = .ok true ↔ r.index < g.size ∧ g.ruleAt? r = none := by
  constructor
  · intro h
    obtain ⟨row, hrow, hnone⟩ := bind_eq_ok.mp h
    have hr := row_isOk_iff.mp ⟨row, hrow⟩
    rw [row_of_lt hr] at hrow
    obtain rfl := Except.ok.inj hrow
    exact ⟨hr, Option.isNone_iff_eq_none.mp (Except.ok.inj hnone)⟩
  · intro h
    rw [isRemoved, row_of_lt h.1, h.2]
    rfl

/-- A rule that is in the table and was not taken out is one of the view. -/
theorem isLive_of_isRemoved (h : g.isRemoved r = .ok false) : g.isLive r = true := by
  obtain ⟨row, hrow, hsome⟩ := bind_eq_ok.mp h
  rw [row_of_lt (row_isOk_iff.mp ⟨row, hrow⟩)] at hrow
  obtain rfl := Except.ok.inj hrow
  exact Option.isNone_eq_false_iff.mp (Except.ok.inj hsome)

/-- The body of a rule is known exactly for the rules of the view. -/
theorem body_eq_ok_iff {body : Expr} :
    g.body r = .ok body ↔ ∃ rule, g.ruleAt? r = some rule ∧ rule.body = body := by
  rw [Grammar.body, bind_eq_ok]
  constructor
  · intro hexists
    obtain ⟨rule, hlive, hbody⟩ := hexists
    exact ⟨rule, live_eq_ok_iff.mp hlive, Except.ok.inj hbody⟩
  · intro hexists
    obtain ⟨rule, hrule, rfl⟩ := hexists
    exact ⟨rule, live_eq_ok_iff.mpr hrule, rfl⟩

/-- The type of a rule is known exactly for the rules of the view. -/
theorem returnType_eq_ok_iff {type : String} :
    g.returnType r = .ok type ↔ ∃ rule, g.ruleAt? r = some rule ∧ rule.type = type := by
  rw [returnType, bind_eq_ok]
  constructor
  · intro hexists
    obtain ⟨rule, hlive, htype⟩ := hexists
    exact ⟨rule, live_eq_ok_iff.mp hlive, Except.ok.inj htype⟩
  · intro hexists
    obtain ⟨rule, hrule, rfl⟩ := hexists
    exact ⟨rule, live_eq_ok_iff.mpr hrule, rfl⟩

end TypedGrammar.Grammar
