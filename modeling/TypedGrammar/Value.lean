import TypedGrammar.Decimal.Text
import TypedGrammar.Text.Quoted

/-!
# Literals

A literal is an integer of 64 bits, a double, a truth value or a text. Equality is strict: literals
of different sorts differ, and doubles are compared by their bits, so that a literal that is no
number equals itself and the two zeros differ.
-/

namespace TypedGrammar

/-- A literal constant. -/
inductive Value where
  /-- A whole number. -/
  | int (n : Int64)
  /-- A double, given by its bits. -/
  | float (bits : UInt64)
  /-- A truth value. -/
  | bool (b : Bool)
  /-- A text. -/
  | str (s : String)
deriving DecidableEq

namespace Value

/-- Doubles from `0.0001` up to below `10 ^ 16` are written without an exponent. -/
def floatRange : Decimal.PositionalRange := ⟨-3, 16⟩

/-- A truth value as a word. -/
def truthText (b : Bool) : String := if b then "true" else "false"

/-- The text of a literal. -/
def text : Value → String
  | int n => toString n.toInt
  | float bits => Decimal.shortestText floatRange bits
  | bool b => truthText b
  | str s => Text.quoted s

end Value

end TypedGrammar
