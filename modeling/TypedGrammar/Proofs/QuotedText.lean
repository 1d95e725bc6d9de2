import Mathlib.Data.List.Basic
import Mathlib.Tactic.SplitIfs
import TypedGrammar.Text.Quoted

/-!
# Quoted texts can be read

Between quotes each character is written so that it can be read without a look at what follows it: the
character behind a backslash tells what is meant, and a code point ends with its brace. As no character
is written with a quote at its start, the first quote that is read in place of a character is the end.
-/

namespace TypedGrammar.Text

variable {c c' : Char} {s s' : String} {rest rest' : List Char} {n : Nat}

/-! ### Hexadecimal digits -/

/-- The value of a hexadecimal digit. -/
def hexDigitValue (c : Char) : Nat := if c.isDigit then c.toNat - '0'.toNat else c.toNat - 'a'.toNat + 10

/-- The number that hexadecimal digits stand for. -/
def readHex (digits : List Char) : Nat :=
  digits.foldl (fun value c => 16 * value + hexDigitValue c) 0

/-- A hexadecimal digit is read as the number that it was written for. -/
theorem hexDigitValue_digitChar : ∀ d < 16, hexDigitValue (Nat.digitChar d) = d := by decide

/-- A hexadecimal digit is no closing brace. -/
theorem digitChar_ne_brace : ∀ d < 16, Nat.digitChar d ≠ '\x7d' := by decide

/-- The hexadecimal digits of a number give it back. -/
theorem readHex_toDigits (n : Nat) : readHex (Nat.toDigits 16 n) = n := by
  induction n using Nat.strongRecOn with
  | ind n ih =>
    rcases Nat.lt_or_ge n 16 with hlt | hge
    · rw [Nat.toDigits_of_lt_base hlt, readHex, List.foldl_cons, List.foldl_nil,
        hexDigitValue_digitChar n hlt, Nat.mul_zero, Nat.zero_add]
    · have hhigh := ih (n / 16) (Nat.div_lt_self (by omega) (by omega))
      rw [readHex] at hhigh
      rw [Nat.toDigits_of_base_le (by decide) hge, readHex, List.foldl_append, hhigh, List.foldl_cons,
        List.foldl_nil, hexDigitValue_digitChar _ (Nat.mod_lt n (by decide)), Nat.div_add_mod]

/-- There is no closing brace among the digits of a number. -/
theorem ne_brace_of_mem_toDigits (h : c ∈ Nat.toDigits 16 n) : c ≠ '\x7d' := by
  induction n using Nat.strongRecOn with
  | ind n ih =>
    rcases Nat.lt_or_ge n 16 with hlt | hge
    · rw [Nat.toDigits_of_lt_base hlt, List.mem_singleton] at h
      exact h ▸ digitChar_ne_brace n hlt
    · rw [Nat.toDigits_of_base_le (by decide) hge, List.mem_append, List.mem_singleton] at h
      rcases h with hhigh | rfl
      · exact ih (n / 16) (Nat.div_lt_self (by omega) (by omega)) hhigh
      · exact digitChar_ne_brace _ (Nat.mod_lt n (by decide))

/-! ### Characters -/

/-- The character that is meant by one behind a backslash. -/
def meantBy : Char → Char
  | 'n' => '\n'
  | 'r' => '\r'
  | 't' => '\t'
  | '0' => '\x00'
  | c => c

/-- Read one character between quotes. -/
def readChar? : List Char → Option (Char × List Char)
  | '\\' :: 'u' :: '\x7b' :: text =>
    some (Char.ofNat (readHex (text.takeWhile (· ≠ '\x7d'))), (text.dropWhile (· ≠ '\x7d')).drop 1)
  | '\\' :: c :: text => some (meantBy c, text)
  | c :: text => some (c, text)
  | [] => none

/-- A character that is written by its code point is read back. -/
theorem readChar?_codePointEscape (c : Char) (rest : List Char) :
    readChar? (codePointEscape c ++ rest) = some (c, rest) := by
  have hdigits : ∀ d ∈ Nat.toDigits 16 c.toNat, decide (d ≠ '\x7d') = true := fun d hd =>
    decide_eq_true (ne_brace_of_mem_toDigits hd)
  have htext : codePointEscape c ++ rest =
      '\\' :: 'u' :: '\x7b' :: (Nat.toDigits 16 c.toNat ++ '\x7d' :: rest) := by
    simp [codePointEscape]
  rw [htext, readChar?, List.takeWhile_append_of_pos hdigits, List.dropWhile_append_of_pos hdigits]
  simp [readHex_toDigits, Char.ofNat_toNat]

/-- What is read is the character that was written. -/
theorem readChar?_escapeChar (c : Char) (rest : List Char) :
    readChar? (escapeChar c ++ rest) = some (c, rest) := by
  unfold escapeChar
  split_ifs with hquote hslash hline hreturn htab hnull hprintable
  · subst hquote; rfl
  · subst hslash; rfl
  · subst hline; rfl
  · subst hreturn; rfl
  · subst htab; rfl
  · subst hnull; rfl
  · simp [readChar?, hslash]
  · exact readChar?_codePointEscape c rest

/-- A character is written the same way with the same behind it only if it is the same. -/
theorem escapeChar_cancel (h : escapeChar c ++ rest = escapeChar c' ++ rest') :
    c = c' ∧ rest = rest' := by
  have hread := congrArg readChar? h
  rw [readChar?_escapeChar, readChar?_escapeChar] at hread
  exact Prod.mk.inj (Option.some.inj hread)

/-- What a character is written as does not start with a quote. -/
theorem escapeChar_append_ne_quote : escapeChar c ++ rest ≠ '\"' :: rest' := by
  unfold escapeChar
  split_ifs with hquote <;> simp [codePointEscape, hquote]

/-! ### Texts -/

/-- A label can be told from what it is written as, up to the closing quote. -/
theorem flatMap_escapeChar_cancel {label label' : List Char}
    (h : label.flatMap escapeChar ++ '\"' :: rest = label'.flatMap escapeChar ++ '\"' :: rest') :
    label = label' ∧ rest = rest' := by
  induction label generalizing label' with
  | nil =>
    cases label' with
    | nil => exact ⟨rfl, List.tail_eq_of_cons_eq h⟩
    | cons c' label' =>
      rw [List.flatMap_cons, List.append_assoc] at h
      exact absurd h.symm escapeChar_append_ne_quote
  | cons c label ih =>
    cases label' with
    | nil =>
      rw [List.flatMap_cons, List.append_assoc] at h
      exact absurd h escapeChar_append_ne_quote
    | cons c' label' =>
      rw [List.flatMap_cons, List.flatMap_cons, List.append_assoc, List.append_assoc] at h
      obtain ⟨rfl, hlabels⟩ := escapeChar_cancel h
      obtain ⟨rfl, hrest⟩ := ih hlabels
      exact ⟨rfl, hrest⟩

/-- Between the quotes each character is written as its escape. -/
theorem toList_quoted (s : String) :
    (quoted s).toList = '\"' :: (s.toList.flatMap escapeChar ++ ['\"']) := by
  rw [quoted, String.toList_ofList]
  rfl

/-- Two quoted texts with anything behind them are the same only if the texts are. -/
theorem quoted_cancel (h : (quoted s).toList ++ rest = (quoted s').toList ++ rest') :
    s = s' ∧ rest = rest' := by
  rw [toList_quoted, toList_quoted, List.cons_append, List.cons_append, List.append_assoc,
    List.append_assoc] at h
  obtain ⟨hlist, hrest⟩ := flatMap_escapeChar_cancel (List.tail_eq_of_cons_eq h)
  exact ⟨String.toList_inj.mp hlist, hrest⟩

end TypedGrammar.Text
