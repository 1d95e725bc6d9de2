import TypedGrammar.Text.Printable

/-!
# Quoted texts

A text between double quotes. The quote, the backslash and four control characters are written as a
backslash and one character; any other character without a shape of its own is written as its code
point in hexadecimal between braces.
-/

namespace TypedGrammar.Text

/-- The hexadecimal code point of a character, between braces. -/
def codePointEscape (c : Char) : List Char :=
  ['\\', 'u', '\x7b'] ++ Nat.toDigits 16 c.toNat ++ ['\x7d']

/-- How a character is written between quotes. -/
def escapeChar (c : Char) : List Char :=
  if c = '\"' then ['\\', '\"']
  else if c = '\\' then ['\\', '\\']
  else if c = '\n' then ['\\', 'n']
  else if c = '\r' then ['\\', 'r']
  else if c = '\t' then ['\\', 't']
  else if c = '\x00' then ['\\', '0']
  else if isPrintable c then [c]
  else codePointEscape c

/-- A text between quotes. -/
def quoted (s : String) : String :=
  String.ofList (['\"'] ++ s.toList.flatMap escapeChar ++ ['\"'])

end TypedGrammar.Text
