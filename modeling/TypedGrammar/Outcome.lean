import TypedGrammar.Failure

/-!
# Outcomes

What an operation gives back. A question answers with a value or a failure, and may leave notices on
the way (`Logged`); notices stay when the question fails after them. A change gives the new state as
well (`Edit`), also when it fails, since a failing change may have done part of its work.
-/

namespace TypedGrammar

/-- Something worth telling that is no failure. -/
inductive Notice where
  /-- The grammar has no probabilities, so a uniform one was assumed for the rule. -/
  | uniformAssumed (rule : RuleId)
  /-- A constraint mentions the rule that was taken out. -/
  | removedRuleReferenced (rule : RuleId)
  /-- The probabilities of the rules of a type cannot be made to sum to one. -/
  | zeroTotal (type : String)

/-- The text of a notice. -/
def Notice.text : Notice → String
  | uniformAssumed rule =>
    "Grammar is not probabilistic, assuming uniform probability for rule " ++ rule.text
  | removedRuleReferenced rule =>
    "Removed rule " ++ rule.text ++ " is still referenced by a constraint"
  | zeroTotal type => "normalize: rules of " ++ type ++ " have zero total probability"

/-- A sequence of two steps succeeds exactly when both do. -/
theorem bind_eq_ok {α β : Type} {x : Except Failure α} {f : α → Except Failure β} {b : β} :
    (x >>= f) = .ok b ↔ ∃ a, x = .ok a ∧ f a = .ok b := by
  cases x with
  | error failure => exact ⟨nofun, nofun⟩
  | ok a =>
    constructor
    · intro h
      exact ⟨a, rfl, h⟩
    · rintro ⟨_, h, hf⟩
      cases h
      exact hf

/-- A sequence of two steps fails as the first one that fails does. -/
theorem bind_eq_error {α β : Type} {x : Except Failure α} {f : α → Except Failure β}
    {failure : Failure} :
    (x >>= f) = .error failure ↔ x = .error failure ∨ ∃ a, x = .ok a ∧ f a = .error failure := by
  cases x with
  | error first =>
    constructor
    · intro h
      cases h
      exact .inl rfl
    · rintro (h | ⟨_, h, _⟩)
      · cases h
        rfl
      · cases h
  | ok a =>
    constructor
    · intro h
      exact .inr ⟨a, rfl, h⟩
    · rintro (h | ⟨_, h, hf⟩)
      · cases h
      · cases h
        exact hf

/-- A step that succeeded hands its value to the next one. -/
@[simp] theorem ok_bind {α β : Type} (a : α) (f : α → Except Failure β) :
    ((.ok a : Except Failure α) >>= f) = f a := rfl

/-- Steps that succeed at every entry of a list succeed on the list. -/
theorem mapM_eq_ok {α β : Type} {step : α → Except Failure β} {value : α → β} {list : List α}
    (h : ∀ a ∈ list, step a = .ok (value a)) : list.mapM step = .ok (list.map value) := by
  induction list with
  | nil => rfl
  | cons a rest ih =>
    obtain ⟨ha, hrest⟩ := List.forall_mem_cons.1 h
    rw [List.mapM_cons, ha, ok_bind, ih hrest, ok_bind]
    rfl

/-- A result with the notices that came up before it. -/
structure Logged (α : Type) where
  notices : List Notice
  result : Except Failure α

namespace Logged

/-- A result without notices. -/
def ofResult {α : Type} (result : Except Failure α) : Logged α := ⟨[], result⟩

/-- Leave one notice. -/
def notice (n : Notice) : Logged Unit := ⟨[n], .ok ()⟩

/-- Go on with the value of a result; a failure ends the work and keeps the notices so far. -/
def andThen {α β : Type} (first : Logged α) (next : α → Logged β) : Logged β :=
  match first.result with
  | .ok value => ⟨first.notices ++ (next value).notices, (next value).result⟩
  | .error failure => ⟨first.notices, .error failure⟩

instance : Monad Logged where
  pure value := ⟨[], .ok value⟩
  bind := andThen

instance {α : Type} : Coe (Except Failure α) (Logged α) := ⟨ofResult⟩

end Logged

/-- The state after a change, with its result and notices. A change that reports a condition leaves the
state that it had reached. After a breach there is nothing to go on with, and a change of a grammar gives
the state before it. -/
structure Edit (σ α : Type) where
  state : σ
  result : Except Failure α
  notices : List Notice

namespace Edit

variable {σ α β : Type}

/-- A change that succeeded without notices. -/
def done (state : σ) (value : α) : Edit σ α := ⟨state, .ok value, []⟩

/-- A change that failed and left a state behind. -/
def failed (state : σ) (failure : Failure) : Edit σ α := ⟨state, .error failure, []⟩

/-- A change that was refused for a reported reason and left a state behind. -/
def refused (state : σ) (error : GrammarError) : Edit σ α := failed state (.reported error)

/-- The state after a change that has to succeed. -/
def settled (edit : Edit σ α) : Except Failure σ := do
  let _ ← edit.result
  return edit.state

/-- Change the answer. -/
def map (f : α → β) (edit : Edit σ α) : Edit σ β := ⟨edit.state, edit.result.map f, edit.notices⟩

end Edit

end TypedGrammar
