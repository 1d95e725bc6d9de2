import Mathlib
import TypedGrammar.Expr.Text
import TypedGrammar.Proofs.QuotedText

/-!
# The text of an expression is unambiguous

Two expressions are compared through their texts with anything behind them that could follow. The text of
an operand is a word without any mark, which may be empty, and then nothing or a quote or a parenthesis.
So the word ends where the first mark stands, and the word and the mark together tell what sort of
operand it is. The text of an expression that is not itself an operand of an infix call goes on behind
its first operand only if it is an infix call, and what may follow the text differs from what follows
an operand.
-/

namespace TypedGrammar

/-- A name of letters, digits and underscores, with at least one and no digit in front. -/
def isIdentifier (name : String) : Bool :=
  match name.toList with
  | [] => false
  | first :: rest => !first.isDigit && (first :: rest).all fun c => c.isAlphanum || c = '_'

namespace Expr

mutual

/-- Are the literals no doubles, the symbols identifiers other than the words for truth values, and the
operators identifiers or infix operators? -/
def isPlain : Expr → Bool
  | .lit (.float _) => false
  | .lit _ => true
  | .sym name => isIdentifier name && name ≠ "true" && name ≠ "false"
  | .call op args => (isIdentifier op || infixOperators.contains op) && allPlain args

/-- Are all arguments plain? -/
def allPlain : List Expr → Bool
  | [] => true
  | arg :: rest => isPlain arg && allPlain rest

end

variable {e e' a b : Expr} {args args' : List Expr} {op name : String}
  {word word' rest rest' follow follow' : List Char}

/-- Arguments are plain when each of them is. -/
theorem allPlain_iff : allPlain args = true ↔ ∀ arg ∈ args, arg.isPlain = true := by
  induction args with
  | nil => simp [allPlain]
  | cons arg rest ih => simp [allPlain, ih]

/-! ### Words -/

/-- The characters that end a word. -/
def marks : List Char := [' ', ',', '(', ')', '\"']

/-- A word has no mark. -/
def IsWord (word : List Char) : Prop := ∀ c ∈ word, c ∉ marks

/-- Nothing follows, or a mark. -/
def EndsWord (rest : List Char) : Prop := ∀ c ∈ rest.head?, c ∈ marks

/-- A word with a mark or nothing behind it ends where the first mark stands. -/
theorem word_cancel (hword : IsWord word) (hword' : IsWord word') (hrest : EndsWord rest)
    (hrest' : EndsWord rest') (h : word ++ rest = word' ++ rest') : word = word' ∧ rest = rest' := by
  induction word generalizing word' with
  | nil =>
    cases word' with
    | nil => exact ⟨rfl, h⟩
    | cons c' word' =>
      have hmark : c' ∈ marks := hrest c' (by rw [List.nil_append] at h; rw [h]; rfl)
      exact absurd hmark (hword' c' List.mem_cons_self)
  | cons c word ih =>
    cases word' with
    | nil =>
      have hmark : c ∈ marks := hrest' c (by rw [List.nil_append] at h; rw [← h]; rfl)
      exact absurd hmark (hword c List.mem_cons_self)
    | cons c' word' =>
      obtain ⟨rfl, htail⟩ := List.cons.inj h
      obtain ⟨rfl, hsame⟩ := ih (fun d hd => hword d (List.mem_cons_of_mem c hd))
        (fun d hd => hword' d (List.mem_cons_of_mem c hd)) htail
      exact ⟨rfl, hsame⟩

/-- Letters, digits and the underscore are no marks. -/
theorem notMem_marks_of_isAlphanum {c : Char} (h : (c.isAlphanum || c = '_') = true) : c ∉ marks := by
  intro hmark
  simp only [marks, List.mem_cons, List.not_mem_nil, or_false] at hmark
  rcases hmark with rfl | rfl | rfl | rfl | rfl <;> exact absurd h (by decide)

/-- An identifier is a word that does not start with a digit or a minus sign. -/
theorem exists_of_isIdentifier (h : isIdentifier name = true) :
    IsWord name.toList ∧ ∃ first rest, name.toList = first :: rest ∧ first.isDigit = false ∧
      first ≠ '-' := by
  unfold isIdentifier at h
  cases hname : name.toList with
  | nil => simp [hname] at h
  | cons first rest =>
    rw [hname] at h
    simp only [Bool.and_eq_true, Bool.not_eq_true', List.all_eq_true] at h
    refine ⟨fun c hc => notMem_marks_of_isAlphanum (h.2 c hc), first, rest, rfl, h.1, ?_⟩
    rintro rfl
    exact absurd (h.2 '-' List.mem_cons_self) (by decide)

/-- The operator of a plain call is a word and not empty. -/
theorem isWord_operator (h : (call op args).isPlain = true) : IsWord op.toList ∧ op.toList ≠ [] := by
  rw [isPlain, Bool.and_eq_true, Bool.or_eq_true] at h
  rcases h.1 with hname | hlisted
  · obtain ⟨hword, first, rest, hcons, -⟩ := exists_of_isIdentifier hname
    exact ⟨hword, hcons ▸ List.cons_ne_nil first rest⟩
  · have hall : ∀ op ∈ infixOperators, (∀ c ∈ op.toList, c ∉ marks) ∧ op.toList ≠ [] := by
      simp [infixOperators, marks]
    exact hall op (List.contains_iff_mem.mp hlisted)

/-- Does a text start as a whole number does, with a digit or a minus sign? -/
def StartsNumber (text : List Char) : Prop :=
  ∃ first rest, text = first :: rest ∧ (first.isDigit = true ∨ first = '-')

/-- The digits of a number are a word. -/
theorem isWord_toDigits (n : Nat) : IsWord (Nat.toDigits 10 n) := fun _ hc =>
  notMem_marks_of_isAlphanum (by
    simp [Char.isAlphanum, Nat.isDigit_of_mem_toDigits (by decide) (by decide) hc])

/-- The digits of a number start with a digit. -/
theorem startsNumber_toDigits (n : Nat) : StartsNumber (Nat.toDigits 10 n) := by
  obtain ⟨first, rest, hcons⟩ := List.exists_cons_of_ne_nil (Nat.toDigits_ne_nil (n := n) (b := 10))
  have hfirst : first ∈ Nat.toDigits 10 n := hcons ▸ List.mem_cons_self
  exact ⟨first, rest, hcons, .inl (Nat.isDigit_of_mem_toDigits (by decide) (by decide) hfirst)⟩

/-- A whole number is written as a word that starts with a digit or a minus sign. -/
theorem isWord_toString_int (i : Int) :
    IsWord (toString i).toList ∧ StartsNumber (toString i).toList := by
  rw [Int.toString_eq_repr, Int.repr_eq_if]
  split
  · rw [Nat.toList_repr]
    exact ⟨isWord_toDigits _, startsNumber_toDigits _⟩
  · rw [String.toList_append, Nat.toList_repr]
    exact ⟨List.forall_mem_cons.mpr ⟨by decide, isWord_toDigits _⟩, '-', _, rfl, .inr rfl⟩

/-! ### Sorts of operands -/

/-- Whole numbers, truth values and symbols are written as words. -/
inductive IsAtom : Expr → Prop where
  | int (n : Int64) : IsAtom (.lit (.int n))
  | bool (b : Bool) : IsAtom (.lit (.bool b))
  | sym (name : String) : IsAtom (.sym name)

/-- What is written as a word is no infix call. -/
theorem IsAtom.isInfixCall (h : IsAtom e) : e.isInfixCall = false := by
  cases h <;> rfl

/-- The two truth values are written as words. -/
theorem isWord_truthText (b : Bool) : IsWord (Value.truthText b).toList := by
  cases b <;> simp [IsWord, Value.truthText, marks]

/-- The text of a truth value does not start as a number does. -/
theorem not_startsNumber_truthText (b : Bool) : ¬ StartsNumber (Value.truthText b).toList := by
  rintro ⟨first, rest, hcons, hfirst⟩
  cases b <;> · obtain ⟨rfl, -⟩ := List.cons.inj hcons; revert hfirst; decide

/-- An identifier does not start as a number does. -/
theorem not_startsNumber_of_isIdentifier (h : isIdentifier name = true) :
    ¬ StartsNumber name.toList := by
  rintro ⟨first, rest, hcons, hfirst⟩
  obtain ⟨-, found, others, hfound, hdigit, hminus⟩ := exists_of_isIdentifier h
  obtain ⟨rfl, -⟩ := List.cons.inj (hcons.symm.trans hfound)
  rcases hfirst with hfirst | hfirst
  · rw [hdigit] at hfirst
    cases hfirst
  · exact hminus hfirst

/-- A plain symbol is an identifier, and no text of a truth value. -/
theorem isPlain_sym (h : (sym name).isPlain = true) :
    isIdentifier name = true ∧ ∀ b, Value.truthText b ≠ name := by
  simp only [isPlain, Bool.and_eq_true, decide_eq_true_eq] at h
  exact ⟨h.1.1, fun b => by cases b; exacts [h.2.symm, h.1.2.symm]⟩

/-- The text of an atom is a word and not empty. -/
theorem IsAtom.isWord_text (h : IsAtom e) (hplain : e.isPlain = true) :
    IsWord e.text.toList ∧ e.text.toList ≠ [] := by
  cases h with
  | int n =>
    obtain ⟨hword, first, rest, hcons, -⟩ := isWord_toString_int n.toInt
    exact ⟨hword, ne_of_eq_of_ne hcons (List.cons_ne_nil first rest)⟩
  | bool b =>
    refine ⟨isWord_truthText b, ?_⟩
    cases b <;> exact List.cons_ne_nil _ _
  | sym name =>
    obtain ⟨hword, first, rest, hcons, -⟩ := exists_of_isIdentifier (isPlain_sym hplain).1
    exact ⟨hword, ne_of_eq_of_ne hcons (List.cons_ne_nil first rest)⟩

/-- The two truth values have different texts. -/
theorem truthText_inj {b b' : Bool} (h : Value.truthText b = Value.truthText b') : b = b' := by
  revert h
  cases b <;> cases b' <;> decide

/-- Only whole numbers among the atoms start like one. -/
theorem IsAtom.startsNumber_iff (h : IsAtom e) (hplain : e.isPlain = true) :
    StartsNumber e.text.toList ↔ ∃ n, e = .lit (.int n) := by
  cases h with
  | int n => exact iff_of_true (isWord_toString_int n.toInt).2 ⟨n, rfl⟩
  | bool b => exact iff_of_false (not_startsNumber_truthText b) nofun
  | sym name => exact iff_of_false (not_startsNumber_of_isIdentifier (isPlain_sym hplain).1) nofun

/-- Atoms with the same text are equal. -/
theorem IsAtom.eq_of_text_eq (h : IsAtom e) (h' : IsAtom e') (hplain : e.isPlain = true)
    (hplain' : e'.isPlain = true) (htext : e.text = e'.text) : e = e' := by
  have hnumbers : (∃ n, e = .lit (.int n)) ↔ ∃ n, e' = .lit (.int n) := by
    rw [← h.startsNumber_iff hplain, ← h'.startsNumber_iff hplain', htext]
  cases h with
  | int n =>
    obtain ⟨m, rfl⟩ := hnumbers.mp ⟨n, rfl⟩
    rw [text, text, Value.text, Value.text, Int.toString_eq_repr, Int.toString_eq_repr, Int.repr_inj,
      Int64.toInt_inj] at htext
    rw [htext]
  | bool b =>
    cases h' with
    | int m => cases hnumbers.mpr ⟨m, rfl⟩ with | intro _ h => cases h
    | bool b' => rw [truthText_inj htext]
    | sym name => exact absurd htext ((isPlain_sym hplain').2 b)
  | sym name =>
    cases h' with
    | int m => cases hnumbers.mpr ⟨m, rfl⟩ with | intro _ h => cases h
    | bool b => exact absurd htext.symm ((isPlain_sym hplain).2 b)
    | sym name' =>
      rw [text, text] at htext
      rw [htext]

/-- The characters of the arguments of a call that is not infix, up to the closing parenthesis. -/
def argumentChars (args : List Expr) : List Char := (", ".intercalate (argumentTexts args)).toList

/-- The characters of an operand of an infix call. -/
def operandChars (e : Expr) : List Char := (operandText e.isInfixCall e.text).toList

/-- An operand is a word, and behind it nothing or what starts with a mark. -/
inductive Operand : Expr → List Char → List Char → Prop where
  | atom {e : Expr} (h : IsAtom e) : Operand e e.text.toList []
  | quoted (s : String) : Operand (.lit (.str s)) [] (Text.quoted s).toList
  | prefixCall {op : String} {args : List Expr} (h : writtenInfix op args.length = false) :
    Operand (.call op args) op.toList ('(' :: (argumentChars args ++ [')']))
  | infixCall {op : String} {a b : Expr} (h : writtenInfix op 2 = true) :
    Operand (.call op [a, b]) [] ('(' :: ((call op [a, b]).text.toList ++ [')']))

/-- A call that is not infix is written as its operator and the arguments in parentheses. -/
theorem toList_text_prefixCall (h : writtenInfix op args.length = false) :
    (call op args).text.toList = op.toList ++ '(' :: (argumentChars args ++ [')']) := by
  rw [text, if_neg (by simp [h])]
  simp [argumentChars]

/-- An infix call is written as its operands with the operator between them. -/
theorem text_infixCall_append (h : writtenInfix op 2 = true) :
    (call op [a, b]).text.toList ++ follow =
      operandChars a ++ ' ' :: (op.toList ++ ' ' :: (operandChars b ++ follow)) := by
  rw [text, if_pos (by simpa using h)]
  simp [operandChars, operandTexts]

/-- An operand that is no infix call is written as it is on its own. -/
theorem operandChars_eq_text (h : e.isInfixCall = false) : operandChars e = e.text.toList := by
  rw [operandChars, h, operandText, if_neg Bool.false_ne_true]

/-- A string is an operand that starts with its quote. -/
theorem operandChars_str (s : String) :
    operandChars (.lit (.str s)) = [] ++ (Text.quoted s).toList := by
  rw [operandChars_eq_text rfl, text, Value.text, List.nil_append]

/-- An infix call stands in parentheses when it is an operand. -/
theorem operandChars_infixCall (h : writtenInfix op 2 = true) :
    operandChars (call op [a, b]) = '(' :: ((call op [a, b]).text.toList ++ [')']) := by
  have hshape : (call op [a, b]).isInfixCall = true := h
  rw [operandChars, hshape, operandText, if_pos rfl, String.toList_append, String.toList_append,
    List.append_assoc]
  rfl

/-- A call that is written infix has two arguments. -/
theorem exists_pair_of_writtenInfix (h : writtenInfix op args.length = true) :
    ∃ a b, args = [a, b] := by
  rw [writtenInfix, Bool.and_eq_true, decide_eq_true_eq] at h
  exact List.length_eq_two.mp h.1

/-- Every operand of an infix call has one of these shapes. -/
theorem exists_operand (hplain : e.isPlain = true) :
    ∃ word rest, operandChars e = word ++ rest ∧ Operand e word rest := by
  have hatom : ∀ {e : Expr}, IsAtom e → ∃ word rest, operandChars e = word ++ rest ∧
      Operand e word rest := fun h =>
    ⟨_, [], (operandChars_eq_text h.isInfixCall).trans (List.append_nil _).symm, .atom h⟩
  cases e with
  | lit value =>
    cases value with
    | int n => exact hatom (.int n)
    | float bits => cases hplain
    | bool b => exact hatom (.bool b)
    | str s => exact ⟨[], _, operandChars_str s, .quoted s⟩
  | sym name => exact hatom (.sym name)
  | call op args =>
    cases hshape : writtenInfix op args.length with
    | false =>
      refine ⟨_, _, ?_, .prefixCall hshape⟩
      rw [operandChars_eq_text (e := call op args) hshape, toList_text_prefixCall hshape]
    | true =>
      obtain ⟨a, b, rfl⟩ := exists_pair_of_writtenInfix hshape
      exact ⟨[], _, operandChars_infixCall hshape, .infixCall hshape⟩

/-! ### What follows -/

/-- Behind an operand comes nothing, or a space, a comma or a closing parenthesis. -/
def FollowsOperand (follow : List Char) : Prop := ∀ c ∈ follow.head?, c ∈ [' ', ',', ')']

/-- Behind a text that is no operand comes nothing, or a comma or a closing parenthesis. -/
def FollowsText (follow : List Char) : Prop := ∀ c ∈ follow.head?, c ∈ [',', ')']

/-- What may follow a text may follow an operand. -/
theorem FollowsText.followsOperand (h : FollowsText follow) : FollowsOperand follow :=
  fun c hc => List.mem_cons_of_mem ' ' (h c hc)

/-- No space follows a text. -/
theorem FollowsText.ne_space (h : FollowsText follow) : follow ≠ ' ' :: rest := by
  rintro rfl
  exact absurd (h ' ' rfl) (by decide)

/-- A space may follow an operand. -/
theorem followsOperand_space (rest : List Char) : FollowsOperand (' ' :: rest) :=
  fun _ hc => Option.some.inj hc ▸ List.mem_cons_self

/-- What may follow an operand ends a word. -/
theorem FollowsOperand.endsWord (h : FollowsOperand follow) : EndsWord follow := by
  intro c hc
  have hsubset : [' ', ',', ')'] ⊆ marks := by decide
  exact hsubset (h c hc)

/-- Nothing but a space, a comma or a closing parenthesis follows an operand. -/
theorem FollowsOperand.ne_cons {c : Char} (h : FollowsOperand follow) (hc : c ∉ [' ', ',', ')']) :
    follow ≠ c :: rest := by
  rintro rfl
  exact hc (h c rfl)

/-- A plain operand starts with a word. -/
theorem Operand.isWord (h : Operand e word rest) (hplain : e.isPlain = true) : IsWord word := by
  cases h with
  | atom h => exact (h.isWord_text hplain).1
  | quoted s => exact List.forall_mem_nil _
  | prefixCall h => exact (isWord_operator hplain).1
  | infixCall h => exact List.forall_mem_nil _

/-- The word at the start of an operand ends where the operand goes on, or where it ends. -/
theorem Operand.endsWord (h : Operand e word rest) (hfollow : FollowsOperand follow) :
    EndsWord (rest ++ follow) := by
  have hfirst : ∀ c ∈ marks, ∀ text, EndsWord (c :: text) := fun c hc _ _ h => Option.some.inj h ▸ hc
  cases h with
  | atom h => exact hfollow.endsWord
  | quoted s =>
    rw [Text.toList_quoted]
    exact hfirst '\"' (by decide) _
  | prefixCall h => exact hfirst '(' (by decide) _
  | infixCall h => exact hfirst '(' (by decide) _

/-- The words of two operands and what is behind them can be compared on their own. -/
theorem Operand.cancel (h : Operand e word rest) (h' : Operand e' word' rest')
    (hplain : e.isPlain = true) (hplain' : e'.isPlain = true) (hfollow : FollowsOperand follow)
    (hfollow' : FollowsOperand follow')
    (hsame : word ++ rest ++ follow = word' ++ rest' ++ follow') :
    word = word' ∧ rest ++ follow = rest' ++ follow' := by
  rw [List.append_assoc, List.append_assoc] at hsame
  exact word_cancel (h.isWord hplain) (h'.isWord hplain') (h.endsWord hfollow) (h'.endsWord hfollow')
    hsame

/-! ### Comparing expressions -/

/-- No other plain expression is written with the same characters, whatever follows that may follow. -/
def Cancels (chars : Expr → List Char) (Follows : List Char → Prop) (e : Expr) : Prop :=
  ∀ ⦃e' : Expr⦄ ⦃follow follow' : List Char⦄, e'.isPlain = true → Follows follow → Follows follow' →
    chars e ++ follow = chars e' ++ follow' → e = e' ∧ follow = follow'

/-- No other plain expression is written like this one, neither as an operand nor on its own. -/
structure Unambiguous (e : Expr) : Prop where
  operand : Cancels operandChars FollowsOperand e
  text : Cancels (fun e => e.text.toList) FollowsText e

/-- A plain expression is not infix, or it is an infix call of plain operands. -/
theorem infix_cases (hplain : e.isPlain = true) : e.isInfixCall = false ∨
    ∃ op a b, e = call op [a, b] ∧ writtenInfix op 2 = true ∧ a.isPlain = true ∧ b.isPlain = true := by
  cases hshape : e.isInfixCall with
  | false => exact .inl rfl
  | true =>
    cases e with
    | lit value => cases hshape
    | sym name => cases hshape
    | call op args =>
      obtain ⟨a, b, rfl⟩ := exists_pair_of_writtenInfix hshape
      have hargs := allPlain_iff.mp (Bool.and_eq_true _ _ ▸ hplain).2
      exact .inr ⟨op, a, b, rfl, hshape, hargs a (by simp), hargs b (by simp)⟩

/-- An expression that is not infix is written like its operand, and nothing that follows it is the
operator of an infix call. -/
theorem Unambiguous.of_operand (hshape : e.isInfixCall = false)
    (hoperand : Cancels operandChars FollowsOperand e) : Unambiguous e := by
  refine ⟨hoperand, fun e' follow follow' hplain' hfollow hfollow' hsame => ?_⟩
  beta_reduce at hsame
  rw [← operandChars_eq_text hshape] at hsame
  rcases infix_cases hplain' with hshape' | ⟨op, a, b, rfl, hop, ha, -⟩
  · rw [← operandChars_eq_text hshape'] at hsame
    exact hoperand hplain' hfollow.followsOperand hfollow'.followsOperand hsame
  · rw [text_infixCall_append hop] at hsame
    obtain ⟨-, rfl⟩ := hoperand ha hfollow.followsOperand (followsOperand_space _) hsame
    exact absurd rfl hfollow.ne_space

/-- Atoms are unambiguous. -/
theorem IsAtom.unambiguous (h : IsAtom e) (hplain : e.isPlain = true) : Unambiguous e := by
  refine .of_operand h.isInfixCall fun e' follow follow' hplain' hfollow hfollow' hsame => ?_
  obtain ⟨word', rest', hchars, hoperand⟩ := exists_operand hplain'
  rw [operandChars_eq_text h.isInfixCall, ← List.append_nil e.text.toList, hchars] at hsame
  obtain ⟨hword, hrest⟩ := Operand.cancel (.atom h) hoperand hplain hplain' hfollow hfollow' hsame
  cases hoperand with
  | atom h' => exact ⟨h.eq_of_text_eq h' hplain hplain' (String.toList_inj.mp hword), hrest⟩
  | quoted s => exact absurd hword (h.isWord_text hplain).2
  | prefixCall h' => exact absurd hrest (hfollow.ne_cons (by decide))
  | infixCall h' => exact absurd hword (h.isWord_text hplain).2

/-- Quoted texts are unambiguous. -/
theorem unambiguous_str (s : String) : Unambiguous (.lit (.str s)) := by
  refine .of_operand rfl fun e' follow follow' hplain' hfollow hfollow' hsame => ?_
  obtain ⟨word', rest', hchars, hoperand⟩ := exists_operand hplain'
  rw [operandChars_str, hchars] at hsame
  obtain ⟨hword, hrest⟩ := Operand.cancel (.quoted s) hoperand rfl hplain' hfollow hfollow' hsame
  cases hoperand with
  | atom h' => exact absurd hword.symm (h'.isWord_text hplain').2
  | quoted s' =>
    obtain ⟨rfl, hbehind⟩ := Text.quoted_cancel hrest
    exact ⟨rfl, hbehind⟩
  | prefixCall h' => exact absurd hword.symm (isWord_operator hplain').2
  | infixCall h' =>
    rw [Text.toList_quoted] at hrest
    exact absurd (List.cons.inj hrest).1 (by decide)

/-- The characters of arguments behind an argument. -/
def furtherChars : List Expr → List Char
  | [] => []
  | arg :: rest => ',' :: ' ' :: (arg.text.toList ++ furtherChars rest)

/-- The arguments are written as the first one and those behind it. -/
theorem argumentChars_cons (arg : Expr) (args : List Expr) :
    argumentChars (arg :: args) = arg.text.toList ++ furtherChars args := by
  induction args generalizing arg with
  | nil => simp [argumentChars, argumentTexts, furtherChars]
  | cons next args ih =>
    have hnext := ih next
    simp only [argumentChars, argumentTexts, String.intercalate_cons_cons, String.toList_append]
      at hnext ⊢
    rw [hnext, furtherChars, List.append_assoc]
    rfl

/-- Behind an argument comes a comma or the closing parenthesis. -/
theorem followsText_furtherChars (args : List Expr) (follow : List Char) :
    FollowsText (furtherChars args ++ ')' :: follow) := by
  cases args <;> exact fun _ hc => Option.some.inj hc ▸ (by decide)

/-- The arguments behind an argument can be told from the characters up to the closing parenthesis. -/
theorem furtherChars_cancel (hargs : ∀ arg ∈ args, arg.Unambiguous) (hplain : allPlain args' = true)
    (hsame : furtherChars args ++ ')' :: follow = furtherChars args' ++ ')' :: follow') :
    args = args' ∧ follow = follow' := by
  induction args generalizing args' with
  | nil =>
    cases args' with
    | nil => exact ⟨rfl, (List.cons.inj hsame).2⟩
    | cons arg' args' => exact absurd (List.cons.inj hsame).1 (by decide)
  | cons arg args ih =>
    cases args' with
    | nil => exact absurd (List.cons.inj hsame).1 (by decide)
    | cons arg' args' =>
      obtain ⟨harg, hrest⟩ := List.forall_mem_cons.mp hargs
      rw [allPlain, Bool.and_eq_true] at hplain
      rw [furtherChars, furtherChars, List.cons_append, List.cons_append, List.cons_append,
        List.cons_append, List.append_assoc, List.append_assoc] at hsame
      obtain ⟨rfl, hbehind⟩ := harg.text hplain.1 (followsText_furtherChars args follow)
        (followsText_furtherChars args' follow') (List.tail_eq_of_cons_eq (List.tail_eq_of_cons_eq hsame))
      obtain ⟨rfl, hfollow⟩ := ih hrest hplain.2 hbehind
      exact ⟨rfl, hfollow⟩

/-- What starts with a word does not start with a parenthesis. -/
theorem IsWord.append_ne_paren (hword : IsWord word) (hne : word ≠ []) :
    word ++ rest ≠ ')' :: follow := by
  obtain ⟨c, others, rfl⟩ := List.exists_cons_of_ne_nil hne
  rintro hsame
  obtain ⟨rfl, -⟩ := List.cons.inj hsame
  exact hword ')' List.mem_cons_self (by decide)

/-- No operand starts with a closing parenthesis, -/
theorem operandChars_append_ne_paren (hplain : e.isPlain = true) :
    operandChars e ++ follow ≠ ')' :: follow' := by
  obtain ⟨word, rest, hchars, hoperand⟩ := exists_operand hplain
  rw [hchars, List.append_assoc]
  cases hoperand with
  | atom h => exact (h.isWord_text hplain).1.append_ne_paren (h.isWord_text hplain).2
  | quoted s =>
    rw [Text.toList_quoted]
    exact fun h => absurd (List.cons.inj h).1 (by decide)
  | prefixCall h => exact (isWord_operator hplain).1.append_ne_paren (isWord_operator hplain).2
  | infixCall h => exact fun h => absurd (List.cons.inj h).1 (by decide)

/-- and no text does. -/
theorem text_append_ne_paren (hplain : e.isPlain = true) :
    e.text.toList ++ follow ≠ ')' :: follow' := by
  rcases infix_cases hplain with hshape | ⟨op, a, b, rfl, hop, ha, -⟩
  · rw [← operandChars_eq_text hshape]
    exact operandChars_append_ne_paren hplain
  · rw [text_infixCall_append hop]
    exact operandChars_append_ne_paren ha

/-- Arguments can be told from the characters up to the closing parenthesis. -/
theorem argumentChars_cancel (hargs : ∀ arg ∈ args, arg.Unambiguous) (hplain : allPlain args = true)
    (hplain' : allPlain args' = true)
    (hsame : argumentChars args ++ ')' :: follow = argumentChars args' ++ ')' :: follow') :
    args = args' ∧ follow = follow' := by
  cases args with
  | nil =>
    cases args' with
    | nil => exact ⟨rfl, (List.cons.inj hsame).2⟩
    | cons arg' args' =>
      rw [allPlain, Bool.and_eq_true] at hplain'
      rw [argumentChars_cons, List.append_assoc] at hsame
      exact absurd hsame.symm (text_append_ne_paren hplain'.1)
  | cons arg args =>
    rw [allPlain, Bool.and_eq_true] at hplain
    cases args' with
    | nil =>
      rw [argumentChars_cons, List.append_assoc] at hsame
      exact absurd hsame (text_append_ne_paren hplain.1)
    | cons arg' args' =>
      obtain ⟨harg, hrest⟩ := List.forall_mem_cons.mp hargs
      rw [allPlain, Bool.and_eq_true] at hplain'
      rw [argumentChars_cons, argumentChars_cons, List.append_assoc, List.append_assoc] at hsame
      obtain ⟨rfl, hbehind⟩ := harg.text hplain'.1 (followsText_furtherChars args follow)
        (followsText_furtherChars args' follow') hsame
      obtain ⟨rfl, hfollow⟩ := furtherChars_cancel hrest hplain'.2 hbehind
      exact ⟨rfl, hfollow⟩

/-- A call that is not infix is unambiguous if its arguments are. -/
theorem unambiguous_prefixCall (hshape : writtenInfix op args.length = false)
    (hplain : (call op args).isPlain = true) (hargs : ∀ arg ∈ args, arg.Unambiguous) :
    Unambiguous (call op args) := by
  refine .of_operand hshape fun e' follow follow' hplain' hfollow hfollow' hsame => ?_
  obtain ⟨word', rest', hchars, hoperand⟩ := exists_operand hplain'
  rw [operandChars_eq_text (e := call op args) hshape, toList_text_prefixCall hshape, hchars] at hsame
  obtain ⟨hword, hrest⟩ :=
    Operand.cancel (.prefixCall hshape) hoperand hplain hplain' hfollow hfollow' hsame
  cases hoperand with
  | atom h' => exact absurd hrest.symm (hfollow'.ne_cons (by decide))
  | quoted s => exact absurd hword (isWord_operator hplain).2
  | prefixCall h' =>
    rw [isPlain, Bool.and_eq_true] at hplain hplain'
    rw [List.cons_append, List.cons_append, List.append_assoc, List.append_assoc] at hrest
    obtain ⟨rfl, hbehind⟩ :=
      argumentChars_cancel hargs hplain.2 hplain'.2 (List.tail_eq_of_cons_eq hrest)
    exact ⟨by rw [String.toList_inj.mp hword], hbehind⟩
  | infixCall h' => exact absurd hword (isWord_operator hplain).2

/-- The text of an infix call tells its operator and its operands. An expression that is not infix is over
where the operator would come. -/
theorem text_infixCall_cancel (hop : writtenInfix op 2 = true)
    (hplain : (call op [a, b]).isPlain = true) (ha : a.Unambiguous) (hb : b.Unambiguous) :
    Cancels (fun e => e.text.toList) FollowsText (call op [a, b]) := by
  intro e' follow follow' hplain' hfollow hfollow' hsame
  beta_reduce at hsame
  rw [text_infixCall_append hop] at hsame
  rcases infix_cases hplain' with hshape' | ⟨op', a', b', rfl, hop', ha', hb'⟩
  · rw [← operandChars_eq_text hshape'] at hsame
    obtain ⟨-, rfl⟩ :=
      ha.operand hplain' (followsOperand_space _) hfollow'.followsOperand hsame
    exact absurd rfl hfollow'.ne_space
  · rw [text_infixCall_append hop'] at hsame
    obtain ⟨rfl, hbehind⟩ :=
      ha.operand ha' (followsOperand_space _) (followsOperand_space _) hsame
    obtain ⟨hword, hlast⟩ := word_cancel (isWord_operator hplain).1 (isWord_operator hplain').1
      (followsOperand_space _).endsWord (followsOperand_space _).endsWord
      (List.tail_eq_of_cons_eq hbehind)
    obtain ⟨rfl, hend⟩ := hb.operand hb' hfollow.followsOperand hfollow'.followsOperand
      (List.tail_eq_of_cons_eq hlast)
    exact ⟨by rw [String.toList_inj.mp hword], hend⟩

/-- An infix call is unambiguous if its operands are. -/
theorem unambiguous_infixCall (hop : writtenInfix op 2 = true)
    (hplain : (call op [a, b]).isPlain = true) (ha : a.Unambiguous) (hb : b.Unambiguous) :
    Unambiguous (call op [a, b]) := by
  refine ⟨fun e' follow follow' hplain' hfollow hfollow' hsame => ?_,
    text_infixCall_cancel hop hplain ha hb⟩
  obtain ⟨word', rest', hchars, hoperand⟩ := exists_operand hplain'
  rw [operandChars_infixCall hop, ← List.nil_append ('(' :: _), hchars] at hsame
  obtain ⟨hword, hrest⟩ :=
    Operand.cancel (.infixCall hop) hoperand hplain hplain' hfollow hfollow' hsame
  cases hoperand with
  | atom h' => exact absurd hword.symm (h'.isWord_text hplain').2
  | quoted s =>
    rw [Text.toList_quoted] at hrest
    exact absurd (List.cons.inj hrest).1 (by decide)
  | prefixCall h' => exact absurd hword.symm (isWord_operator hplain').2
  | infixCall h' =>
    have hparen : ∀ rest, FollowsText (')' :: rest) := fun _ _ hc => Option.some.inj hc ▸ (by decide)
    rw [List.cons_append, List.cons_append, List.append_assoc, List.append_assoc] at hrest
    obtain ⟨hcall, hbehind⟩ := text_infixCall_cancel hop hplain ha hb hplain' (hparen _) (hparen _)
      (List.tail_eq_of_cons_eq hrest)
    exact ⟨hcall, List.tail_eq_of_cons_eq hbehind⟩

mutual

/-- Every plain expression is unambiguous. -/
theorem unambiguous_of_isPlain : ∀ e : Expr, e.isPlain = true → e.Unambiguous
  | .lit (.int n), hplain => (IsAtom.int n).unambiguous hplain
  | .lit (.bool b), hplain => (IsAtom.bool b).unambiguous hplain
  | .lit (.str s), _ => unambiguous_str s
  | .sym name, hplain => (IsAtom.sym name).unambiguous hplain
  | .call op args, hplain => by
    have hargs := unambiguous_of_allPlain args (Bool.and_eq_true _ _ ▸ hplain).2
    cases hshape : writtenInfix op args.length with
    | false => exact unambiguous_prefixCall hshape hplain hargs
    | true =>
      obtain ⟨a, b, rfl⟩ := exists_pair_of_writtenInfix hshape
      exact unambiguous_infixCall hshape hplain (hargs a (by simp)) (hargs b (by simp))

/-- Each of several plain arguments can be told from its characters. -/
theorem unambiguous_of_allPlain : ∀ args : List Expr, allPlain args = true →
    ∀ arg ∈ args, arg.Unambiguous
  | [], _ => List.forall_mem_nil _
  | arg :: rest, hplain => by
    rw [allPlain, Bool.and_eq_true] at hplain
    exact List.forall_mem_cons.mpr
      ⟨unambiguous_of_isPlain arg hplain.1, unambiguous_of_allPlain rest hplain.2⟩

end

/-- Plain expressions with the same text are equal. -/
theorem text_inj_of_isPlain (hplain : e.isPlain = true) (hplain' : e'.isPlain = true)
    (htext : e.text = e'.text) : e = e' := by
  have hend : FollowsText [] := nofun
  have hsame : e.text.toList ++ [] = e'.text.toList ++ [] := by rw [htext]
  exact ((unambiguous_of_isPlain e hplain).text hplain' hend hend hsame).1

/-- A difference of a difference and a negative number with a sign in front. -/
def differences : Expr :=
  .call "-" [.call "-" [.sym "a", .lit (.int 1)], .call "-" [.lit (.int (-3))]]

/-- Only the difference of `a - 1` and the negative of -3 has this text. -/
theorem differences_text_inj : differences.isPlain = true ∧
    differences.text = "(a - 1) - -(-3)" ∧
    differences = .call "-" [.call "-" [.sym "a", .lit (.int 1)], .call "-" [.lit (.int (-3))]] := by
  have hplain : differences.isPlain = true := by decide
  have htext : differences.text = "(a - 1) - -(-3)" := by rfl
  exact ⟨hplain, htext, text_inj_of_isPlain hplain hplain htext⟩

/-- With the other grouping the parentheses stand elsewhere. -/
example : (Expr.call "-" [.sym "a", .call "-" [.lit (.int 1), .call "-" [.lit (.int (-3))]]]).text =
    "a - (1 - -(-3))" := by rfl

end Expr

end TypedGrammar
