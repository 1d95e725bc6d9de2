/-!
# Log-probabilities

The logarithm of a probability, tagged with where it comes from: stored in the grammar, or estimated
by the uniform distribution because the grammar has no probabilities. Also the sum of probabilities
that are given by their logarithms.
-/

namespace TypedGrammar

/-- A logarithm of a probability. -/
inductive LogProbability where
  /-- The value is the one that the grammar stores. -/
  | exact (value : Float)
  /-- The value assumes a uniform distribution somewhere. -/
  | estimated (value : Float)

namespace LogProbability

/-- The logarithm itself. -/
def value : LogProbability → Float
  | exact x => x
  | estimated x => x

/-- Does the value come from stored probabilities only? -/
def isExact : LogProbability → Bool
  | exact _ => true
  | estimated _ => false

/-- The log-probability of two independent choices; exact only if both are. -/
def add (a b : LogProbability) : LogProbability :=
  if a.isExact && b.isExact then exact (a.value + b.value) else estimated (a.value + b.value)

instance : Add LogProbability := ⟨add⟩

end LogProbability

/-- The larger of two doubles; one that is no number gives way to the other. -/
def largerFloat (a b : Float) : Float :=
  if a.isNaN then b else if b.isNaN then a else if a < b then b else a

/-- Negative infinity, the logarithm of zero. -/
def negInfinity : Float := -1.0 / 0.0

/-- The logarithm of the sum of exponentials, shifted by the greatest element so that nothing
overflows. It is negative infinity when the list is empty or has no element above negative infinity. -/
def logSumExp (xs : List Float) : Float :=
  let top := xs.foldl largerFloat negInfinity
  if top == negInfinity then top
  else top + Float.log ((xs.map fun x => Float.exp (x - top)).foldl (· + ·) 0.0)

/-- The log-probability of one choice out of `n` equally likely ones. -/
def uniformLog (n : Nat) : Float := -Float.log (Float.ofNat n)

end TypedGrammar
