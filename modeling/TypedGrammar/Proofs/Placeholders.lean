import TypedGrammar.Expr.Basic

/-!
# Placeholders of an expression

The placeholders among the symbols of an expression are numbered from left to right. Each has its number
from the argument position at which it stands: so many placeholders stand to the left. `replaceFrom` puts
an expression for the number in the place of every placeholder, all at once, and leaves everything else as
it is. What comes out is looked at path by path, and by its symbols.
-/

namespace TypedGrammar.Expr

/-- What stands in an expression at a path of argument positions. -/
def at? : List Nat → Expr → Option Expr
  | [], e => some e
  | i :: path, .call _ args => args[i]?.bind (at? path)
  | _ :: _, _ => none

/-- The placeholders among the symbols of an expression, from left to right. -/
def placeholders (isPlaceholder : String → Bool) (e : Expr) : List String :=
  e.symbols.filter isPlaceholder

/-- The placeholders among the symbols of a list of arguments, from left to right. -/
def placeholdersOfArgs (isPlaceholder : String → Bool) (args : List Expr) : List String :=
  (symbolsOfArgs args).filter isPlaceholder

/-- The number of placeholders to the left of a path of argument positions. -/
def placeNumber (isPlaceholder : String → Bool) : List Nat → Expr → Nat
  | i :: path, .call _ args =>
    (placeholdersOfArgs isPlaceholder (args.take i)).length +
      (args[i]?.map (placeNumber isPlaceholder path)).getD 0
  | _, _ => 0

mutual

/-- An expression in which others are put for the placeholders, all at once. The first placeholder has the
number `k`, and one without an expression for its number stays. -/
def replaceFrom (isPlaceholder : String → Bool) (answers : List Expr) (k : Nat) : Expr → Expr
  | .lit value => .lit value
  | .sym name => if isPlaceholder name then answers[k]?.getD (.sym name) else .sym name
  | .call op args => .call op (replaceArgsFrom isPlaceholder answers k args)

/-- A list of arguments in which expressions are put for the placeholders. -/
def replaceArgsFrom (isPlaceholder : String → Bool) (answers : List Expr) (k : Nat) :
    List Expr → List Expr
  | [] => []
  | arg :: rest => replaceFrom isPlaceholder answers k arg ::
      replaceArgsFrom isPlaceholder answers (k + (placeholders isPlaceholder arg).length) rest

end

/-- The symbols that come out when expressions are put for the placeholders of a list of names: those of
the expression for each placeholder, and each other name itself. -/
def spliceFrom (isPlaceholder : String → Bool) (answers : List Expr) (k : Nat) :
    List String → List String
  | [] => []
  | name :: rest =>
    if isPlaceholder name then
      (answers[k]?.getD (.sym name)).symbols ++ spliceFrom isPlaceholder answers (k + 1) rest
    else name :: spliceFrom isPlaceholder answers k rest

variable {P : String → Bool} {e sub : Expr} {name : String} {path : List Nat}

/-- A literal has no placeholder. -/
@[simp] theorem placeholders_lit (value : Value) : placeholders P (.lit value) = [] := rfl

/-- A symbol that is a placeholder is the only one in it. -/
theorem placeholders_sym_of_true (hname : P name = true) : placeholders P (.sym name) = [name] := by
  simp [placeholders, symbols, hname]

/-- A symbol that is no placeholder has none. -/
theorem placeholders_sym_of_false (hname : P name = false) : placeholders P (.sym name) = [] := by
  simp [placeholders, symbols, hname]

/-- The placeholders of the first argument come before those of the others. -/
theorem placeholdersOfArgs_cons (arg : Expr) (others : List Expr) :
    placeholdersOfArgs P (arg :: others) = placeholders P arg ++ placeholdersOfArgs P others :=
  List.filter_append ..

/-- The placeholders of arguments come in the order of the arguments. -/
theorem placeholdersOfArgs_append (args others : List Expr) :
    placeholdersOfArgs P (args ++ others) = placeholdersOfArgs P args ++ placeholdersOfArgs P others := by
  induction args with
  | nil => rfl
  | cons arg rest ih =>
    rw [List.cons_append, placeholdersOfArgs_cons, ih, placeholdersOfArgs_cons, List.append_assoc]

/-! ### What stands at a path -/

/-- Replacing placeholders keeps the number of arguments. -/
theorem length_replaceArgsFrom (answers : List Expr) (k : Nat) (args : List Expr) :
    (replaceArgsFrom P answers k args).length = args.length := by
  induction args generalizing k with
  | nil => rfl
  | cons arg rest ih => rw [replaceArgsFrom, List.length_cons, List.length_cons, ih]

/-- The placeholders of an argument are numbered behind those of the arguments before it. -/
theorem getElem?_replaceArgsFrom (answers : List Expr) (k i : Nat) (args : List Expr) :
    (replaceArgsFrom P answers k args)[i]? =
      args[i]?.map (replaceFrom P answers (k + (placeholdersOfArgs P (args.take i)).length)) := by
  induction args generalizing k i with
  | nil => rfl
  | cons arg rest ih =>
    cases i with
    | zero => rfl
    | succ i =>
      rw [replaceArgsFrom, List.getElem?_cons_succ, List.getElem?_cons_succ, ih, List.take_succ_cons,
        placeholdersOfArgs_cons, List.length_append, Nat.add_assoc]

/-- Replacing changes what stands at a path by itself: the placeholders there go on counting from those to
the left. -/
theorem at?_replaceFrom (h : e.at? path = some sub) (answers : List Expr) (k : Nat) :
    (e.replaceFrom P answers k).at? path =
      some (sub.replaceFrom P answers (k + e.placeNumber P path)) := by
  induction path generalizing e k with
  | nil =>
    obtain rfl := Option.some.inj h
    cases e <;> rfl
  | cons i path ih =>
    cases e with
    | lit value => cases h
    | sym name => cases h
    | call op args =>
      obtain ⟨arg, harg, hsub⟩ := Option.bind_eq_some_iff.mp h
      rw [replaceFrom, at?, getElem?_replaceArgsFrom, harg, Option.map_some, Option.bind_some, ih hsub,
        placeNumber, harg, Option.map_some, Option.getD_some, Nat.add_assoc]

/-- A placeholder that stands at a path has as its number that of the placeholders to its left. -/
theorem getElem?_placeholders_of_at? (h : e.at? path = some (.sym name)) (hname : P name = true) :
    (e.placeholders P)[e.placeNumber P path]? = some name := by
  induction path generalizing e with
  | nil =>
    obtain rfl := Option.some.inj h
    rw [placeholders_sym_of_true hname]
    rfl
  | cons i path ih =>
    cases e with
    | lit value => cases h
    | sym name => cases h
    | call op args =>
      obtain ⟨arg, harg, hsub⟩ := Option.bind_eq_some_iff.mp h
      obtain ⟨hi, rfl⟩ := List.getElem?_eq_some_iff.mp harg
      have hplace := ih hsub
      have hlt := (List.getElem?_eq_some_iff.mp hplace).1
      have hsplit : (Expr.call op args).placeholders P = placeholdersOfArgs P (args.take i) ++
          (args[i].placeholders P ++ placeholdersOfArgs P (args.drop (i + 1))) := by
        rw [← placeholdersOfArgs_cons, ← List.drop_eq_getElem_cons, ← placeholdersOfArgs_append,
          List.take_append_drop]
        rfl
      rw [hsplit, placeNumber, harg, Option.map_some, Option.getD_some,
        List.getElem?_append_right (Nat.le_add_right ..), Nat.add_sub_cancel_left,
        List.getElem?_append_left hlt, hplace]

mutual

/-- Each placeholder of an expression stands at a path. -/
theorem exists_at?_of_placeholders : ∀ (e : Expr) (k : Nat) (name : String),
    (e.placeholders P)[k]? = some name →
      ∃ path, e.at? path = some (.sym name) ∧ e.placeNumber P path = k
  | .lit _, _, _, h => nomatch h
  | .sym other, k, name, h => by
    cases hother : P other with
    | true =>
      rw [placeholders_sym_of_true hother] at h
      obtain ⟨hlt, rfl⟩ := List.getElem?_eq_some_iff.mp h
      obtain rfl : k = 0 := Nat.lt_one_iff.mp hlt
      exact ⟨[], rfl, rfl⟩
    | false =>
      rw [placeholders_sym_of_false hother] at h
      cases h
  | .call op args, k, name, h => by
    obtain ⟨i, arg, path, harg, hpath, hk⟩ := exists_at?_of_placeholdersOfArgs args k name h
    refine ⟨i :: path, ?_, ?_⟩
    · rw [at?, harg, Option.bind_some, hpath]
    · rw [placeNumber, harg, Option.map_some, Option.getD_some, hk]

/-- Each placeholder of a list of arguments stands at a path in one of them. -/
theorem exists_at?_of_placeholdersOfArgs : ∀ (args : List Expr) (k : Nat) (name : String),
    (placeholdersOfArgs P args)[k]? = some name → ∃ i arg path, args[i]? = some arg ∧
      arg.at? path = some (.sym name) ∧
      (placeholdersOfArgs P (args.take i)).length + arg.placeNumber P path = k
  | [], _, _, h => nomatch h
  | arg :: others, k, name, h => by
    rw [placeholdersOfArgs_cons] at h
    by_cases hk : k < (arg.placeholders P).length
    · rw [List.getElem?_append_left hk] at h
      obtain ⟨path, hpath, hnumber⟩ := exists_at?_of_placeholders arg k name h
      exact ⟨0, arg, path, rfl, hpath, (Nat.zero_add _).trans hnumber⟩
    · rw [List.getElem?_append_right (Nat.le_of_not_lt hk)] at h
      obtain ⟨i, found, path, hfound, hpath, hnumber⟩ :=
        exists_at?_of_placeholdersOfArgs others _ name h
      refine ⟨i + 1, found, path, hfound, hpath, ?_⟩
      rw [List.take_succ_cons, placeholdersOfArgs_cons, List.length_append]
      omega

end

/-! ### The symbols that come out -/

/-- The placeholders of later names are numbered behind those of earlier ones. -/
theorem spliceFrom_append (answers : List Expr) (k : Nat) (names others : List String) :
    spliceFrom P answers k (names ++ others) = spliceFrom P answers k names ++
      spliceFrom P answers (k + (names.filter P).length) others := by
  induction names generalizing k with
  | nil => rfl
  | cons name rest ih =>
    rw [List.cons_append, spliceFrom, spliceFrom]
    cases hname : P name with
    | true => simp [hname, ih, Nat.add_assoc, Nat.add_comm 1]
    | false => simp [hname, ih]

mutual

/-- Replacing puts the symbols of the expressions in place of the placeholders. -/
theorem symbols_replaceFrom (answers : List Expr) : ∀ (k : Nat) (e : Expr),
    (e.replaceFrom P answers k).symbols = spliceFrom P answers k e.symbols
  | _, .lit _ => rfl
  | k, .sym name => by
    cases hname : P name with
    | true => simp [replaceFrom, symbols, spliceFrom, hname]
    | false => simp [replaceFrom, symbols, spliceFrom, hname]
  | k, .call _ args => symbolsOfArgs_replaceArgsFrom answers k args

/-- The symbols of the arguments after replacing are the former ones with those of the answers spliced
in. -/
theorem symbolsOfArgs_replaceArgsFrom (answers : List Expr) : ∀ (k : Nat) (args : List Expr),
    symbolsOfArgs (replaceArgsFrom P answers k args) = spliceFrom P answers k (symbolsOfArgs args)
  | _, [] => rfl
  | k, arg :: others => by
    rw [replaceArgsFrom, symbolsOfArgs, symbolsOfArgs, spliceFrom_append, symbols_replaceFrom answers k arg,
      symbolsOfArgs_replaceArgsFrom answers _ others, placeholders]

end

end TypedGrammar.Expr
