/-!
# Exact quotients

The value of a floating-point number and the points of a decimal grid are compared as quotients of
natural numbers, so that every digit and every rounding is exact.
-/

namespace TypedGrammar.Decimal

/-- The quotient of two natural numbers; the denominator is meant to be positive. -/
structure Ratio where
  num : Nat
  den : Nat

namespace Ratio

/-- The number `digits * 10 ^ exponent`. -/
def ofDecimal (digits : Nat) (exponent : Int) : Ratio :=
  ⟨digits * Nat.pow 10 exponent.toNat, Nat.pow 10 (-exponent).toNat⟩

/-- The number `significand * 2 ^ exponent`. -/
def ofBinary (significand : Nat) (exponent : Int) : Ratio :=
  ⟨significand * Nat.pow 2 exponent.toNat, Nat.pow 2 (-exponent).toNat⟩

/-- The quotient times `10 ^ exponent`. -/
def shift (v : Ratio) (exponent : Int) : Ratio :=
  ⟨v.num * Nat.pow 10 exponent.toNat, v.den * Nat.pow 10 (-exponent).toNat⟩

/-- Is the first quotient at most the second? -/
def le (v w : Ratio) : Bool := v.num * w.den ≤ w.num * v.den

/-- Is the first quotient less than the second? -/
def lt (v w : Ratio) : Bool := v.num * w.den < w.num * v.den

/-- The greatest natural number that is not above the quotient. -/
def floor (v : Ratio) : Nat := v.num / v.den

/-- The nearest natural number; of two that are equally near, the even one. -/
def roundHalfEven (v : Ratio) : Nat :=
  let q := v.num / v.den
  let twice := 2 * (v.num % v.den)
  if twice < v.den then q
  else if v.den < twice then q + 1
  else if q % 2 = 0 then q else q + 1

/-- How many factors of ten bring a quotient below one up to at least one. -/
def leadingZeros (v : Ratio) : Nat → Nat → Nat
  | 0, zeros => zeros
  | fuel + 1, zeros =>
    if v.den ≤ v.num * Nat.pow 10 zeros then zeros else leadingZeros v fuel (zeros + 1)

/-- The position of the decimal point relative to the leading digit of a positive quotient: the
number `k` for which the quotient is at least `10 ^ (k - 1)` and less than `10 ^ k`. -/
def pointPosition (v : Ratio) : Int :=
  if v.den ≤ v.num then ((Nat.toDigits 10 v.floor).length : Int)
  else 1 - (leadingZeros v (Nat.toDigits 10 v.den).length 0 : Int)

end Ratio

end TypedGrammar.Decimal
