import TypedGrammar.Proofs.Placeholders

/-!
# Filling placeholders in order

Filling goes through an expression with a function that keeps a state and may fail. It asks the function
for the placeholders from left to right, each once, until the function fails at one. Whether it answers
them all is settled by going through the list of the placeholders; filling is shown to follow this list
from an argument to the next. `recorded` keeps the names that the function was asked for.
-/

namespace TypedGrammar.Expr

variable {σ ε α β : Type} {P : String → Bool} {fill : String → ExceptT ε (StateM σ) Expr} {e : Expr}
  {answers : List Expr} {names : List String} {name : String} {s s' s'' : σ} {error : ε}

/-! ### Asking for names -/

/-- What a computation comes to from a state: a value or an error, and the state that it leaves. -/
def outcome (x : ExceptT ε (StateM σ) α) (s : σ) : Except ε α × σ := x.run.run s

/-- After a first step that succeeds comes the second one, in the state that the first left. -/
theorem outcome_bind_of_ok {x : ExceptT ε (StateM σ) α} {f : α → ExceptT ε (StateM σ) β} {a : α}
    (h : outcome x s = (.ok a, s')) : outcome (x >>= f) s = outcome (f a) s' := by
  have hrun : x.run.run s = pure (.ok a, s') := h
  rw [outcome, ExceptT.run_bind, StateT.run_bind, hrun]
  rfl

/-- A first step that fails ends the work. -/
theorem outcome_bind_of_error {x : ExceptT ε (StateM σ) α} {f : α → ExceptT ε (StateM σ) β}
    (h : outcome x s = (.error error, s')) : outcome (x >>= f) s = (.error error, s') := by
  have hrun : x.run.run s = pure (.error error, s') := h
  rw [outcome, ExceptT.run_bind, StateT.run_bind, hrun]
  rfl

/-- Asked for names one after the other, the function answers each with an expression. -/
inductive Answers (fill : String → ExceptT ε (StateM σ) Expr) : σ → List String → List Expr → σ → Prop
  | nil (s : σ) : Answers fill s [] [] s
  | cons {s s' s'' : σ} {name : String} {rest : List String} {answer : Expr} {answers : List Expr}
      (hfirst : outcome (fill name) s = (.ok answer, s')) (hrest : Answers fill s' rest answers s'') :
      Answers fill s (name :: rest) (answer :: answers) s''

/-- There is one answer for each name. -/
theorem Answers.length_eq (h : Answers fill s names answers s') : answers.length = names.length := by
  induction h with
  | nil s => rfl
  | cons hfirst hrest ih => rw [List.length_cons, List.length_cons, ih]

/-- Names are answered when the first ones are and then the others. -/
theorem Answers.split {others : List String} (h : Answers fill s (names ++ others) answers s'') :
    ∃ first later s', answers = first ++ later ∧ Answers fill s names first s' ∧
      Answers fill s' others later s'' := by
  induction names generalizing s answers with
  | nil => exact ⟨[], answers, s, rfl, .nil s, h⟩
  | cons name rest ih =>
    cases h with
    | cons hfirst hrest =>
      obtain ⟨first, later, s', rfl, hnames, hothers⟩ := ih hrest
      exact ⟨_ :: first, later, s', rfl, .cons hfirst hnames, hothers⟩

/-- Asked for the names one after the other, the function answers all of them, or there is a first one at
which it fails. -/
theorem exists_answers_or_error (fill : String → ExceptT ε (StateM σ) Expr) (s : σ)
    (names : List String) :
    (∃ answers s', Answers fill s names answers s') ∨
      ∃ before name after answers s' error s'', names = before ++ name :: after ∧
        Answers fill s before answers s' ∧ outcome (fill name) s' = (.error error, s'') := by
  induction names generalizing s with
  | nil => exact .inl ⟨[], s, .nil s⟩
  | cons name rest ih =>
    rcases hname : outcome (fill name) s with ⟨error | answer, s'⟩
    · exact .inr ⟨[], name, rest, [], s, error, s', rfl, .nil s, hname⟩
    · rcases ih s' with hall | hfails
      · obtain ⟨answers, s'', hrest⟩ := hall
        exact .inl ⟨answer :: answers, s'', .cons hname hrest⟩
      · obtain ⟨before, later, after, answers, s₁, error, s₂, rfl, hbefore, hlater⟩ := hfails
        exact .inr ⟨name :: before, later, after, answer :: answers, s₁, error, s₂, rfl,
          .cons hname hbefore, hlater⟩

/-! ### Filling -/

mutual

/-- If the function answers all placeholders, filling puts the answers for them. These may stand anywhere
in a list, so that this passes from an argument to the next. -/
theorem outcome_of_answers (fill : String → ExceptT ε (StateM σ) Expr) :
    ∀ (e : Expr) (before answers after : List Expr) (s s' : σ),
      Answers fill s (e.placeholders P) answers s' →
      outcome (e.fillPlaceholders P fill) s =
        (.ok (e.replaceFrom P (before ++ answers ++ after) before.length), s')
  | .lit value, before, answers, after, s, s', h => by
    rw [placeholders_lit] at h
    cases h
    rfl
  | .sym name, before, answers, after, s, s', h => by
    cases hname : P name with
    | true =>
      rw [placeholders_sym_of_true hname] at h
      obtain _ | ⟨hfirst, hrest⟩ := h
      cases hrest
      simp [fillPlaceholders, replaceFrom, hname, hfirst]
    | false =>
      rw [placeholders_sym_of_false hname] at h
      cases h
      simp only [fillPlaceholders, replaceFrom, hname, Bool.false_eq_true, if_false]
      rfl
  | .call op args, before, answers, after, s, s', h => by
    rw [fillPlaceholders,
      outcome_bind_of_ok (outcome_args_of_answers fill args before answers after s s' h)]
    rfl

/-- The same for a list of arguments. -/
theorem outcome_args_of_answers (fill : String → ExceptT ε (StateM σ) Expr) :
    ∀ (args before answers after : List Expr) (s s' : σ),
      Answers fill s (placeholdersOfArgs P args) answers s' →
      outcome (fillArgs P fill args) s =
        (.ok (replaceArgsFrom P (before ++ answers ++ after) before.length args), s')
  | [], before, answers, after, s, s', h => by
    obtain _ | _ := h
    rfl
  | arg :: others, before, answers, after, s, s'', h => by
    rw [placeholdersOfArgs_cons] at h
    obtain ⟨first, later, s', rfl, harg, hothers⟩ := h.split
    have hfirst := outcome_of_answers fill arg before first (later ++ after) s s' harg
    have hlater := outcome_args_of_answers fill others (before ++ first) later after s' s'' hothers
    rw [List.length_append, harg.length_eq] at hlater
    rw [← List.append_assoc] at hfirst
    rw [← List.append_assoc, fillArgs, outcome_bind_of_ok hfirst, outcome_bind_of_ok hlater,
      replaceArgsFrom, List.append_assoc (before ++ first)]
    rfl

end

/-- Asked for names one after the other, the function fails at one of them. -/
inductive Fails (fill : String → ExceptT ε (StateM σ) Expr) : σ → List String → ε → σ → Prop
  | first {s s' : σ} {name : String} {rest : List String} {error : ε}
      (hfirst : outcome (fill name) s = (.error error, s')) : Fails fill s (name :: rest) error s'
  | later {s s' s'' : σ} {name : String} {rest : List String} {answer : Expr} {error : ε}
      (hfirst : outcome (fill name) s = (.ok answer, s')) (hrest : Fails fill s' rest error s'') :
      Fails fill s (name :: rest) error s''

/-- When asking for a name fails after those before it were answered, asking for all fails there. -/
theorem Answers.fails (h : Answers fill s names answers s')
    (herror : outcome (fill name) s' = (.error error, s'')) (rest : List String) :
    Fails fill s (names ++ name :: rest) error s'' := by
  induction h with
  | nil s => exact .first herror
  | cons hfirst hrest ih => exact .later hfirst (ih herror)

/-- The function fails at one of the first names, or answers them and fails at one of the others. -/
theorem Fails.split {others : List String} (h : Fails fill s (names ++ others) error s'') :
    Fails fill s names error s'' ∨
      ∃ answers s', Answers fill s names answers s' ∧ Fails fill s' others error s'' := by
  induction names generalizing s with
  | nil => exact .inr ⟨[], s, .nil s, h⟩
  | cons name rest ih =>
    cases h with
    | first hfirst => exact .inl (.first hfirst)
    | later hfirst hrest =>
      rcases ih hrest with hnames | ⟨answers, s', hnames, hothers⟩
      · exact .inl (.later hfirst hnames)
      · exact .inr ⟨_ :: answers, s', .cons hfirst hnames, hothers⟩

mutual

/-- If the function fails at a placeholder, filling fails there. -/
theorem outcome_of_fails (fill : String → ExceptT ε (StateM σ) Expr) :
    ∀ (e : Expr) (s s' : σ) (error : ε), Fails fill s (e.placeholders P) error s' →
      outcome (e.fillPlaceholders P fill) s = (.error error, s')
  | .lit value, s, s', error, h => by
    rw [placeholders_lit] at h
    cases h
  | .sym name, s, s', error, h => by
    cases hname : P name with
    | true =>
      rw [placeholders_sym_of_true hname] at h
      cases h with
      | first hfirst => rw [fillPlaceholders, if_pos hname, hfirst]
      | later hfirst hrest => cases hrest
    | false =>
      rw [placeholders_sym_of_false hname] at h
      cases h
  | .call op args, s, s', error, h => by
    rw [fillPlaceholders, outcome_bind_of_error (outcome_args_of_fails fill args s s' error h)]

/-- The same for a list of arguments. -/
theorem outcome_args_of_fails (fill : String → ExceptT ε (StateM σ) Expr) :
    ∀ (args : List Expr) (s s' : σ) (error : ε), Fails fill s (placeholdersOfArgs P args) error s' →
      outcome (fillArgs P fill args) s = (.error error, s')
  | [], s, s', error, h => by cases h
  | arg :: others, s, s'', error, h => by
    rw [placeholdersOfArgs_cons] at h
    rcases h.split with harg | ⟨answers, s', harg, hothers⟩
    · rw [fillArgs, outcome_bind_of_error (outcome_of_fails fill arg s s'' error harg)]
    · have hfirst := outcome_of_answers fill arg [] answers [] s s' harg
      rw [fillArgs, outcome_bind_of_ok hfirst,
        outcome_bind_of_error (outcome_args_of_fails fill others s' s'' error hothers)]

end

/-! ### Which names are asked for -/

/-- The function with a record of the names that it was asked for. -/
def recorded (fill : String → ExceptT ε (StateM σ) Expr) (name : String) :
    ExceptT ε (StateM (List String × σ)) Expr :=
  ExceptT.mk fun (asked, s) =>
    let (answer, s') := outcome (fill name) s
    (answer, (asked ++ [name], s'))

/-- Asking on record gives the same answer, and notes the name. -/
theorem outcome_recorded (fill : String → ExceptT ε (StateM σ) Expr) (name : String)
    (asked : List String) (s : σ) : outcome (recorded fill name) (asked, s) =
      ((outcome (fill name) s).1, (asked ++ [name], (outcome (fill name) s).2)) := rfl

/-- The record has the names that were answered. -/
theorem Answers.recorded (h : Answers fill s names answers s') (asked : List String) :
    Answers (recorded fill) (asked, s) names answers (asked ++ names, s') := by
  induction h generalizing asked with
  | nil s =>
    rw [List.append_nil]
    exact .nil _
  | cons hfirst hrest ih =>
    rw [List.append_cons]
    refine .cons ?_ (ih _)
    rw [outcome_recorded, hfirst]

/-- When all placeholders are answered, all of them were asked for in order. -/
theorem outcome_recorded_of_answers (h : Answers fill s (e.placeholders P) answers s') :
    outcome (e.fillPlaceholders P (recorded fill)) ([], s) =
      (.ok (e.replaceFrom P answers 0), (e.placeholders P, s')) := by
  have hrun := outcome_of_answers (recorded fill) e [] answers [] _ _ (h.recorded [])
  rwa [List.nil_append, List.append_nil] at hrun

/-- When a placeholder is not answered, it was the last one that was asked for. -/
theorem outcome_recorded_of_error {before after : List String}
    (hsplit : e.placeholders P = before ++ name :: after) (hbefore : Answers fill s before answers s')
    (herror : outcome (fill name) s' = (.error error, s'')) :
    outcome (e.fillPlaceholders P (recorded fill)) ([], s) = (.error error, (before ++ [name], s'')) := by
  have hlast : outcome (recorded fill name) ([] ++ before, s') =
      (.error error, ([] ++ before ++ [name], s'')) := by
    rw [outcome_recorded, herror]
  exact outcome_of_fails (recorded fill) e _ _ error (hsplit ▸ (hbefore.recorded []).fails hlast after)

/-- What filling comes to does not depend on the record. -/
theorem outcome_eq_recorded (fill : String → ExceptT ε (StateM σ) Expr) (e : Expr) (s : σ) :
    outcome (e.fillPlaceholders P fill) s =
      let (result, (_, s')) := outcome (e.fillPlaceholders P (recorded fill)) ([], s)
      (result, s') := by
  rcases exists_answers_or_error fill s (e.placeholders P) with hall | hfails
  · obtain ⟨answers, s', h⟩ := hall
    have hrun := outcome_of_answers fill e [] answers [] s s' h
    rw [List.nil_append, List.append_nil] at hrun
    rw [outcome_recorded_of_answers h, hrun]
    rfl
  · obtain ⟨before, name, after, answers, s', error, s'', hsplit, hbefore, herror⟩ := hfails
    rw [outcome_recorded_of_error hsplit hbefore herror,
      outcome_of_fails fill e s s'' error (hsplit ▸ hbefore.fails herror after)]

/-- Filling the placeholders of an expression with a function that keeps a state and may fail, from a
state on. -/
structure FillsInOrder (isPlaceholder : String → Bool) (fill : String → ExceptT ε (StateM σ) Expr)
    (e : Expr) (s : σ) : Prop where
  /-- The function answers the placeholders one after the other, or there is a first one at which it
  fails. -/
  answers_or_error : (∃ answers s', Answers fill s (e.symbols.filter isPlaceholder) answers s') ∨
    ∃ before name after answers s' error s'', e.symbols.filter isPlaceholder = before ++ name :: after ∧
      Answers fill s before answers s' ∧ outcome (fill name) s' = (.error error, s'')
  /-- If it answers all, these are the names that it is asked for, and the answers are put for them. -/
  of_answers : ∀ answers s', Answers fill s (e.symbols.filter isPlaceholder) answers s' →
    outcome (e.fillPlaceholders isPlaceholder (recorded fill)) ([], s) =
      (.ok (e.replaceFrom isPlaceholder answers 0), (e.symbols.filter isPlaceholder, s'))
  /-- If it fails, the placeholder at which it does so is the last name that it is asked for, and its error
  is what comes out. -/
  of_error : ∀ before name after answers s' error s'',
    e.symbols.filter isPlaceholder = before ++ name :: after → Answers fill s before answers s' →
    outcome (fill name) s' = (.error error, s'') →
    outcome (e.fillPlaceholders isPlaceholder (recorded fill)) ([], s) =
      (.error error, (before ++ [name], s''))
  /-- The record makes no difference. -/
  unrecorded : outcome (e.fillPlaceholders isPlaceholder fill) s =
    let (result, (_, s')) := outcome (e.fillPlaceholders isPlaceholder (recorded fill)) ([], s)
    (result, s')
  /-- The placeholders are numbered from left to right by the argument positions at which they stand. -/
  numbered : ∀ k name, (e.symbols.filter isPlaceholder)[k]? = some name ↔
    ∃ path, e.at? path = some (.sym name) ∧ isPlaceholder name = true ∧
      e.placeNumber isPlaceholder path = k
  /-- In the place of each placeholder stands the answer with its number. -/
  replaced : ∀ answers path name, e.at? path = some (.sym name) → isPlaceholder name = true →
    (e.replaceFrom isPlaceholder answers 0).at? path =
      some (answers[e.placeNumber isPlaceholder path]?.getD (.sym name))
  /-- Other symbols stay. -/
  symbol : ∀ answers path name, e.at? path = some (.sym name) → isPlaceholder name = false →
    (e.replaceFrom isPlaceholder answers 0).at? path = some (.sym name)
  /-- Literals stay. -/
  literal : ∀ answers path value, e.at? path = some (.lit value) →
    (e.replaceFrom isPlaceholder answers 0).at? path = some (.lit value)
  /-- Operators and the numbers of their arguments stay. -/
  call : ∀ answers path op args, e.at? path = some (.call op args) →
    ∃ args', (e.replaceFrom isPlaceholder answers 0).at? path = some (.call op args') ∧
      args'.length = args.length
  /-- The symbols that come out are those of the answers for the placeholders, and the other symbols. -/
  symbols_eq : ∀ answers, (e.replaceFrom isPlaceholder answers 0).symbols =
    spliceFrom isPlaceholder answers 0 e.symbols

/-- Filling asks for the placeholders of an expression from left to right, each once, up to the first at
which the function fails, and puts the answers for them. -/
theorem fills_in_order (isPlaceholder : String → Bool) (fill : String → ExceptT ε (StateM σ) Expr)
    (e : Expr) (s : σ) : FillsInOrder isPlaceholder fill e s where
  answers_or_error := exists_answers_or_error fill s _
  of_answers _ _ h := outcome_recorded_of_answers h
  of_error _ _ _ _ _ _ _ hsplit hbefore herror := outcome_recorded_of_error hsplit hbefore herror
  unrecorded := outcome_eq_recorded fill e s
  numbered k name := by
    constructor
    · intro h
      obtain ⟨path, hpath, hnumber⟩ := exists_at?_of_placeholders e k name h
      exact ⟨path, hpath, (List.mem_filter.mp (List.mem_of_getElem? h)).2, hnumber⟩
    · intro h
      obtain ⟨path, hpath, hname, rfl⟩ := h
      exact getElem?_placeholders_of_at? hpath hname
  replaced answers path name hpath hname := by
    rw [at?_replaceFrom hpath, replaceFrom, if_pos hname, Nat.zero_add]
  symbol answers path name hpath hname := by
    rw [at?_replaceFrom hpath, replaceFrom, if_neg (Bool.eq_false_iff.mp hname)]
  literal answers path value hpath := by
    rw [at?_replaceFrom hpath, replaceFrom]
  call answers path op args hpath := by
    rw [at?_replaceFrom hpath, replaceFrom]
    exact ⟨_, rfl, length_replaceArgsFrom ..⟩
  symbols_eq answers := symbols_replaceFrom answers 0 e

/-- The operator `A` is not asked for, nor is the symbol behind the one that is refused. -/
example : outcome ((Expr.call "A" [.sym "B", .call "f" [.sym "x", .sym "A"], .sym "B"]).fillPlaceholders
      (· != "x") (recorded fun name => if name = "A" then throw "refused" else pure (.sym "C"))) ([], ()) =
    (.error "refused", (["B", "A"], ())) := by rfl

end TypedGrammar.Expr
