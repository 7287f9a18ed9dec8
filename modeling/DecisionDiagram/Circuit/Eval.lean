import DecisionDiagram.Circuit.Basic

/-!
# Values of a circuit

The values of all gates, in the order of their numbers, under values for the inputs. A gate is
worked out from the values of the gates before it.
-/

set_option autoImplicit false

namespace DecisionDiagram

/-- The value of a wire, given the values of the gates so far. -/
def Wire.value (values : Array Bool) (wire : Wire) : Bool :=
  values.getD (wire.gate - 1) false ^^ wire.inverted

namespace Circuit

/-- Appends the values of more gates, giving the inputs among them their values in turn. -/
def extendValues : List Gate → List Bool → Array Bool → Array Bool
  | [], _, values => values
  | .input :: rest, [], values => extendValues rest [] (values.push false)
  | .input :: rest, first :: inputs, values => extendValues rest inputs (values.push first)
  | .and left right :: rest, inputs, values =>
    extendValues rest inputs (values.push (left.value values && right.value values))

def eval (circuit : Circuit) (inputValues : List Bool) : Except Fault (Array Bool) :=
  let expected := circuit.inputs.length
  if inputValues.length = expected then
    .ok (extendValues (circuit.gates.toList.map PlacedGate.gate) inputValues #[])
  else
    .error (.inputCount inputValues.length expected)

end Circuit

end DecisionDiagram
