import DecisionDiagram.Edge.Basic
import DecisionDiagram.Circuit.Wire

/-!
# Faults

Every way in which a call can fail, as a cause, and the wording of each cause in one place.
Causes carry what the wording shows and nothing else.
-/

set_option autoImplicit false

namespace DecisionDiagram

inductive Fault where
  /-- An edge was made from zero. -/
  | zeroEdge
  /-- A variable or a literal is zero. -/
  | zeroVariable
  /-- A child has a variable that is not below its parent's. -/
  | orderViolated (child : Edge) (childVariable parentVariable : Nat)
  /-- No slot is left. -/
  | storageFull (capacity : Nat)
  /-- Cofactors were asked for a variable below the node's own. -/
  | cofactorBelowTop (asked top : Nat)
  /-- The slot that means "no slot" was read or written. -/
  | zeroIndex
  | slotNotOccupied (index : Nat)
  | outOfBounds (length index : Nat)
  | lengthMismatch (coefficients literals : Nat)
  | negativeCoefficient (coefficient : Int)
  /-- A model has no place for a variable. -/
  | variableOutOfRange (var count : Nat)
  | zeroGate
  | unknownGate (gate : Nat)
  /-- A gate was translated before the gates that it reads. -/
  | gateNotTranslated (gate : Nat)
  /-- A circuit output has no translation. -/
  | outputNotTranslated (output : Wire)
  /-- An input stands in a layer of inner gates. -/
  | inputAboveFirstLayer
  | inputCount (given expected : Nat)
  | storageBitsTooLarge
  | storageTooSmall
  | bucketBitsTooLarge
  | cacheBitsTooLarge
  | negateOverflow
  | addOverflow
  | subtractOverflow
  /-- A model count fell below zero. -/
  | countUnderflow
  /-- A constant reached a step that expects inner nodes. -/
  | constantOperand
  /-- A bucket chain reached a slot that is not in use. -/
  | freeSlotInChain
  /-- A weighted sum was left undecided when its literals ran out. -/
  | undecidedSum
  /-- A descent went deeper than the store has nodes. -/
  | depthExceeded
deriving DecidableEq

namespace Fault

/-- The wording of a failed comparison: what was compared, a remark, and both values. -/
def comparison (relation remark left right : String) : String :=
  "assertion `left " ++ relation ++ " right` failed" ++ remark ++
    "\n  left: " ++ left ++ "\n right: " ++ right

def message : Fault → String
  | zeroEdge => "Ref must be non-zero"
  | zeroVariable => comparison "!=" ": Variable index should not be zero" "0" "0"
  | orderViolated child childVariable parentVariable =>
    "Variable ordering violated: child " ++ child.text ++ " has variable " ++
      toString childVariable ++ ", parent has variable " ++ toString parentVariable
  | storageFull capacity => "Storage is full: capacity " ++ toString capacity ++ " exhausted"
  | cofactorBelowTop asked top => comparison "==" "" (toString asked) (toString top)
  | zeroIndex => comparison "!=" ": Index is 0" "0" "0"
  | slotNotOccupied index => "Index " ++ toString index ++ " is not occupied"
  | outOfBounds length index =>
    "index out of bounds: the len is " ++ toString length ++ " but the index is " ++
      toString index
  | lengthMismatch coefficients literals =>
    comparison "==" ": Coefficients and literals must have the same length"
      (toString coefficients) (toString literals)
  | negativeCoefficient coefficient => "Coefficient " ++ toString coefficient ++ " is negative"
  | variableOutOfRange var count =>
    "Variable " ++ toString var ++ " is out of range 1..=" ++ toString count
  | zeroGate => "AIG node id should not be zero"
  | unknownGate gate => "Unknown AIG node " ++ toString gate
  | gateNotTranslated gate => "AIG node " ++ toString gate ++ " is used before it is built"
  | outputNotTranslated output => "AIG output " ++ output.text ++ " was not built"
  | inputAboveFirstLayer => "internal error: entered unreachable code: only inputs are in layer 0"
  | inputCount given expected =>
    comparison "==" ": Wrong number of input values" (toString given) (toString expected)
  | storageBitsTooLarge => "Storage bits should be in the range 0..=31"
  | storageTooSmall => "Storage must hold at least the terminal node"
  | bucketBitsTooLarge => "Buckets bits should be in the range 0..=31"
  | cacheBitsTooLarge => "Cache bits should be in the range 0..=31"
  | negateOverflow => "attempt to negate with overflow"
  | addOverflow => "attempt to add with overflow"
  | subtractOverflow => "attempt to subtract with overflow"
  | countUnderflow => "Cannot subtract b from a because b is larger than a."
  | constantOperand => "an operand of an expansion is constant"
  | freeSlotInChain => "a bucket chain reaches a free slot"
  | undecidedSum => "a weighted sum is undecided after its last literal"
  | depthExceeded => "a descent is deeper than the number of stored nodes"

end Fault

/-- A computation that only reads runs inside one that changes a state. -/
instance readInState {State : Type} : MonadLift (Except Fault) (EStateM Fault State) where
  monadLift
    | .ok result => fun state => .ok result state
    | .error fault => fun state => .error fault state

end DecisionDiagram
