import DecisionDiagram.Manager.Memoized

/-!
# Weighted sums of literals

The functions that say whether the weights of the true literals add up to at least, or to at
most, a bound. Literals are taken in the given order. A branch ends as soon as the bound is
settled whatever the remaining literals are: `sum` is the weight taken so far and `left` the
weight still to come.

Sums are kept in signed 64-bit numbers; leaving their range is a fault.
-/

set_option autoImplicit false

namespace DecisionDiagram

/-- Whether a number fits into 64 bits with a sign. -/
def fitsWord (number : Int) : Bool :=
  -9223372036854775808 ≤ number && number ≤ 9223372036854775807

def addWords (first second : Int) : Except Fault Int :=
  if fitsWord (first + second) then .ok (first + second) else .error .addOverflow

def subtractWords (first second : Int) : Except Fault Int :=
  if fitsWord (first - second) then .ok (first - second) else .error .subtractOverflow

/-- The sum of all weights, added up from the left. -/
def totalWeight (weights : List Int) : Except Fault Int := weights.foldlM addWords 0

inductive Comparison where
  | atLeast
  | atMost
deriving DecidableEq

/-- What is compared with what. -/
structure Threshold where
  comparison : Comparison
  bound : Int

namespace Threshold

/-- Whether a full sum satisfies the comparison. -/
def holds (threshold : Threshold) (sum : Int) : Bool :=
  match threshold.comparison with
  | .atLeast => threshold.bound ≤ sum
  | .atMost => sum ≤ threshold.bound

/-- The outcome, if every way to complete the sum has the same one. -/
def settled? (threshold : Threshold) (sum left : Int) : Except Fault (Option Bool) := do
  match threshold.comparison with
  | .atLeast =>
    if threshold.bound ≤ sum then return some true
    else if (← addWords sum left) < threshold.bound then return some false
    else return none
  | .atMost =>
    if (← addWords sum left) ≤ threshold.bound then return some true
    else if threshold.bound < sum then return some false
    else return none

end Threshold

/-- Pairs the weights with the literals, after a look at each pair. -/
def weightedLiterals (weights literals : List Int) : Except Fault (List (Int × Int)) := do
  unless weights.length = literals.length do
    throw (.lengthMismatch weights.length literals.length)
  let terms := weights.zip literals
  terms.forM fun (weight, literal) => do
    if weight < 0 then throw (.negativeCoefficient weight)
    if literal = 0 then throw .zeroVariable
  return terms

namespace Manager

/-- A state of the search is named by the number of literals passed and the sum so far. -/
def weightedSumFrom (threshold : Threshold) :
    List (Int × Int) → Nat → Int → Int → Memoized (Nat × Int) Edge
  | [], _, sum, left => do
    match ← threshold.settled? sum left with
    | some true => return .one
    | some false => return .zero
    | none => throw .undecidedSum
  | (weight, literal) :: rest, position, sum, left => do
    match ← threshold.settled? sum left with
    | some true => return .one
    | some false => return .zero
    | none =>
      remembering (position, sum) do
        let left ← subtractWords left weight
        let taken ← weightedSumFrom threshold rest (position + 1) (← addWords sum weight) left
        let skipped ← weightedSumFrom threshold rest (position + 1) sum left
        let condition ← Manager.literal literal
        ite condition taken skipped

/-- The comparison of a weighted sum of literals with a bound. -/
def weightedSum (comparison : Comparison) (weights literals : List Int) (bound : Int) :
    Action Edge := do
  let terms ← weightedLiterals weights literals
  let total ← totalWeight weights
  withMemo (weightedSumFrom ⟨comparison, bound⟩ terms 0 0 total)

end Manager

end DecisionDiagram
