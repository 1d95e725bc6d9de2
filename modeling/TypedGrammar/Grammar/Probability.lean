import TypedGrammar.Grammar.Basic

/-!
# Probabilities of rules

A probabilistic grammar stores the logarithm of a weight for every row of its table. `normalize`
scales the weights of each type so that they sum to one. A grammar without probabilities is asked for
them all the same: it then answers with the uniform distribution over the rules of the type, and
says so.
-/

namespace TypedGrammar.Grammar

/-- The weight stored for a rule. -/
def weightAt (weights : Array Float) (r : RuleId) : Except Failure Float :=
  match weights[r.index]? with
  | some w => .ok w
  | none => breached (.ruleOutOfBounds r weights.size)

/-- The weights with another one stored for a rule. -/
def setWeight (weights : Array Float) (r : RuleId) (w : Float) : Except Failure (Array Float) :=
  if r.index < weights.size then .ok (weights.setIfInBounds r.index w)
  else breached (.ruleOutOfBounds r weights.size)

section Weights

variable {weights ws : Array Float} {r : RuleId} {w : Float}

/-- The weight of a rule is the one at its position. -/
theorem weightAt_eq_ok_iff : weightAt weights r = .ok w ↔ weights[r.index]? = some w := by
  unfold weightAt
  cases weights[r.index]? with
  | none => simp [breached]
  | some stored => simp

/-- Setting the weight of a rule in range replaces the one at its position. -/
theorem setWeight_eq_ok_iff : setWeight weights r w = .ok ws ↔
    r.index < weights.size ∧ weights.setIfInBounds r.index w = ws := by
  unfold setWeight
  split
  · rename_i hr
    simp [hr]
  · rename_i hr
    simp [hr, breached]

end Weights

/-- The log-probability of a rule among those of its type: the one stored, or the uniform one with a
notice. -/
def logProbability (g : Grammar) (r : RuleId) : Logged LogProbability := do
  let type ← g.returnType r
  match g.weights with
  | some weights =>
    let w ← weightAt weights r
    return .exact w
  | none =>
    Logged.notice (.uniformAssumed r)
    let choices := ((g.types.get? type).map fun entry => entry.rules.length).getD 1
    return .estimated (uniformLog choices)

/-- The probability of a rule among those of its type. -/
def probability (g : Grammar) (r : RuleId) : Logged Float := do
  return Float.exp (← g.logProbability r).value

/-- The cost of a rule, which is the smaller the more probable the rule is. -/
def ruleCost (g : Grammar) (r : RuleId) : Logged Float := do
  return -(← g.logProbability r).value

/-- Lower the weights of the rules of a list by the same amount. -/
def lowerWeights (z : Float) (weights : Array Float) :
    List RuleId → Except Failure (Array Float)
  | [] => .ok weights
  | r :: rest => do
    let w ← weightAt weights r
    lowerWeights z (← setWeight weights r (w - z)) rest

/-- Scale the weights of the rules of one type so that they sum to one, unless their sum is zero or
no finite number. -/
def normalizeType (type : String) (entry : TypeEntry) (weights : Array Float) :
    Except Failure (Array Float × List Notice) := do
  let values ← entry.rules.mapM (weightAt weights)
  let z := logSumExp values
  if z.isFinite then return (← lowerWeights z weights entry.rules, [])
  else return (weights, [.zeroTotal type])

/-- Scale the weights of the rules of each type in turn. -/
def normalizeTypes (weights : Array Float) :
    List (String × TypeEntry) → Except Failure (Array Float × List Notice)
  | [] => .ok (weights, [])
  | (type, entry) :: rest => do
    let (scaled, notices) ← normalizeType type entry weights
    let (final, others) ← normalizeTypes scaled rest
    return (final, notices ++ others)

/-- Scale the probabilities so that those of each type sum to one. A type where this cannot be done
is left alone, with a notice. A grammar without probabilities stays as it is. -/
def normalize (g : Grammar) : Edit Grammar Unit :=
  match g.weights with
  | none => .done g ()
  | some weights =>
    match normalizeTypes weights g.types.entries with
    | .ok (scaled, notices) => ⟨{ g with weights := some scaled }, .ok (), notices⟩
    | .error failure => .failed g failure

/-- Store the same weight for each rule of a list. -/
def fillWeights (w : Float) (weights : Array Float) : List RuleId → Except Failure (Array Float)
  | [] => .ok weights
  | r :: rest => do fillWeights w (← setWeight weights r w) rest

/-- Store the uniform distribution for each type of a list. -/
def uniformWeights (weights : Array Float) :
    List (String × TypeEntry) → Except Failure (Array Float)
  | [] => .ok weights
  | (_, entry) :: rest => do
    uniformWeights (← fillWeights (uniformLog entry.rules.length) weights entry.rules) rest

/-- Make the grammar probabilistic with the uniform distribution on the rules of each type. Gaps have
the weight of an impossible choice. -/
def initUniform (g : Grammar) : Edit Grammar Unit :=
  match uniformWeights (Array.replicate g.size negInfinity) g.types.entries with
  | .ok weights => .done { g with weights := some weights } ()
  | .error failure => .failed g failure

end TypedGrammar.Grammar
