import TypedGrammar.Decimal.Binary
import TypedGrammar.Decimal.Shortest

/-!
# Decimal texts

Three ways to write a double: with the fewest digits that read back (`shortestText`), with a fixed
number of places (`fixedText`), and with nine significant digits (`measureText`). Rounding to a fixed
number of digits takes the exact value, and a half goes to the even neighbour.
-/

namespace TypedGrammar.Decimal

/-- Where the shortest text is positional: the point positions, relative to the leading digit, from
`low` to `high`. Outside of it the text has an exponent. -/
structure PositionalRange where
  low : Int
  high : Int

/-- The sign of a text. -/
def signText (negative : Bool) : String := if negative then "-" else ""

/-- As many zeros as asked for. -/
def zeros (n : Nat) : String := String.ofList (List.replicate n '0')

/-- The decimal digits of a number, as characters. -/
def digitChars (n : Nat) : List Char := Nat.toDigits 10 n

/-- Write digits with the point at a position; a point without digits on one side gets a zero. -/
def positionalText (digits : List Char) (point : Int) : String :=
  if point ≤ 0 then "0." ++ zeros (-point).toNat ++ String.ofList digits
  else if point.toNat < digits.length then
    String.ofList (digits.take point.toNat) ++ "." ++ String.ofList (digits.drop point.toNat)
  else String.ofList digits ++ zeros (point.toNat - digits.length) ++ ".0"

/-- Write digits with the point behind the first and an exponent; one digit has no point. -/
def exponentText (digits : List Char) (point : Int) : String :=
  let rest := digits.drop 1
  let fraction := if rest.isEmpty then "" else "." ++ String.ofList rest
  String.ofList (digits.take 1) ++ fraction ++ "e" ++ toString (point - 1)

/-- The fewest digits that read back as the double with the given bits. A whole number keeps `.0`
where the text is positional. -/
def shortestText (range : PositionalRange) (bits : UInt64) : String :=
  match Binary.ofBits bits with
  | .notANumber => "NaN"
  | .infinite negative => signText negative ++ "inf"
  | .finite negative significand exponent =>
    if significand = 0 then signText negative ++ "0.0"
    else
      let shortest := shortestDigits significand exponent
      let digits := digitChars shortest.digits
      let point : Int := digits.length + shortest.exponent
      signText negative ++
        if range.low ≤ point ∧ point ≤ range.high then positionalText digits point
        else exponentText digits point

/-- Write a quotient with a fixed number of places, rounded half to even. -/
def Ratio.fixedText (v : Ratio) (places : Nat) : String :=
  let scaled := (v.shift places).roundHalfEven
  let fraction := digitChars (scaled % Nat.pow 10 places)
  toString (scaled / Nat.pow 10 places) ++ "." ++ zeros (places - fraction.length) ++
    String.ofList fraction

/-- A double with a fixed number of places. -/
def fixedText (places : Nat) (x : Float) : String :=
  match Binary.ofFloat x with
  | .notANumber => "NaN"
  | .infinite negative => signText negative ++ "inf"
  | .finite negative significand exponent =>
    signText negative ++ (Ratio.ofBinary significand exponent).fixedText places

/-- Write a positive quotient with nine significant digits and an exponent, rounded half to even.
Where rounding reaches the next power of ten the point moves on. -/
def Ratio.measureText (v : Ratio) : String :=
  let point := v.pointPosition
  let rounded := (v.shift (9 - point)).roundHalfEven
  if rounded = Nat.pow 10 9 then exponentText (digitChars (Nat.pow 10 8)) (point + 1)
  else exponentText (digitChars rounded) point

/-- A measured quantity with nine significant digits; magnitudes below `10 ^ (-9)` read as zero. -/
def measureText (x : Float) : String :=
  match Binary.ofFloat x with
  | .notANumber => "NaN"
  | .infinite negative => signText negative ++ "inf"
  | .finite negative significand exponent =>
    let v := Ratio.ofBinary significand exponent
    if v.lt (.ofDecimal 1 (-9)) then "0" else signText negative ++ v.measureText

end TypedGrammar.Decimal
