import TypedGrammar.Decimal.Ratio

/-!
# Double-precision numbers

The 64 bits of a double are a sign, an exponent of 11 bits and a fraction of 52 bits. A finite double
is `significand * 2 ^ exponent` with its sign; the largest exponent field stands for infinities and
for results that are no number.
-/

namespace TypedGrammar.Decimal

/-- What the bits of a double stand for. -/
inductive Binary where
  /-- No number. -/
  | notANumber
  /-- An infinity. -/
  | infinite (negative : Bool)
  /-- The number `significand * 2 ^ exponent` with its sign. -/
  | finite (negative : Bool) (significand : Nat) (exponent : Int)

namespace Binary

/-- Read the sign, exponent and fraction fields of a double. -/
def ofBits (bits : UInt64) : Binary :=
  let n : Nat := bits.toNat
  let negative : Bool := n / Nat.pow 2 63 % 2 = 1
  let field : Nat := n / Nat.pow 2 52 % Nat.pow 2 11
  let fraction : Nat := n % Nat.pow 2 52
  if field = Nat.pow 2 11 - 1 then
    if fraction = 0 then .infinite negative else .notANumber
  else if field = 0 then .finite negative fraction (-1074)
  else .finite negative (fraction + Nat.pow 2 52) ((field : Int) - 1075)

/-- What a double stands for. -/
def ofFloat (x : Float) : Binary := ofBits x.toBits

end Binary

end TypedGrammar.Decimal
