import TypedGrammar.Decimal.Ratio

/-!
# The fewest digits that read back

A positive double owns the interval of real numbers that round to it: half-way to either neighbour,
with the ends included when its significand is even. Its shortest decimal is the point of the
coarsest decimal grid that meets this interval. On each grid only the two points next to the value
need a look, since the interval surrounds the value. Of two points inside, the nearer is taken, and
the upper one if both are equally near.
-/

namespace TypedGrammar.Decimal

/-- The number `digits * 10 ^ exponent`. -/
structure Digits where
  digits : Nat
  exponent : Int

/-- A value with the interval of numbers that round to it. -/
structure RoundingInterval where
  value : Ratio
  lower : Ratio
  upper : Ratio
  /-- Do the ends belong to the interval? -/
  closed : Bool

namespace RoundingInterval

/-- The interval of `significand * 2 ^ exponent`. Below a power of two the neighbours lie twice as
close, so the lower end is half as far away. -/
def ofBinary (significand : Nat) (exponent : Int) : RoundingInterval where
  value := .ofBinary (4 * significand) (exponent - 2)
  lower := .ofBinary (4 * significand - if significand = Nat.pow 2 52 then 1 else 2) (exponent - 2)
  upper := .ofBinary (4 * significand + 2) (exponent - 2)
  closed := significand % 2 = 0

/-- Does a number round to the value of the interval? -/
def contains (i : RoundingInterval) (x : Ratio) : Bool :=
  if i.closed then i.lower.le x && x.le i.upper else i.lower.lt x && x.lt i.upper

/-- The grid point inside the interval that is next to the value, on the grid with steps of
`10 ^ exponent`. -/
def pointOn? (i : RoundingInterval) (exponent : Int) : Option Nat :=
  let scaled := i.value.shift (-exponent)
  let below := scaled.floor
  let above := below + 1
  let inside (d : Nat) : Bool := i.contains (.ofDecimal d exponent)
  match inside below, inside above with
  | true, true => if scaled.lt ⟨2 * below + 1, 2⟩ then some below else some above
  | true, false => some below
  | false, true => some above
  | false, false => none

/-- Search grids of growing fineness, `count` digits first, for one that meets the interval. -/
def search (i : RoundingInterval) (point : Int) : Nat → Nat → Digits
  | 0, count => ⟨(i.value.shift (count - point)).floor, point - count⟩
  | fuel + 1, count =>
    match i.pointOn? (point - count) with
    | some d => ⟨d, point - count⟩
    | none => search i point fuel (count + 1)

/-- The fewest digits that read back as the value; seventeen always do. -/
def shortest (i : RoundingInterval) : Digits := i.search i.value.pointPosition 17 1

end RoundingInterval

/-- Move trailing zeros into the exponent. -/
def Digits.trim (n : Digits) : Nat → Digits
  | 0 => n
  | fuel + 1 => if n.digits % 10 = 0 then Digits.trim ⟨n.digits / 10, n.exponent + 1⟩ fuel else n

/-- The shortest decimal of `significand * 2 ^ exponent`, without trailing zeros. -/
def shortestDigits (significand : Nat) (exponent : Int) : Digits :=
  (RoundingInterval.ofBinary significand exponent).shortest.trim 17

end TypedGrammar.Decimal
