import DecisionDiagram.Fault

/-!
# And-inverter circuits

A circuit is a list of gates, numbered from 1 in the order in which they were added. A gate is an
input or the conjunction of two wires of earlier gates, so the order of the numbers is a
topological one. The level of a gate is the length of the longest path down to an input.

Disjunction and exclusive or are built from conjunctions and inverted wires. A gate that cannot
be added faults and leaves the circuit as it is; a composite keeps the gates added before.
-/

set_option autoImplicit false

namespace DecisionDiagram

inductive Gate where
  | input
  | and (left right : Wire)
deriving DecidableEq

/-- A gate in its circuit. -/
structure PlacedGate where
  gate : Gate
  level : Nat
deriving DecidableEq

structure Circuit where
  gates : Array PlacedGate
  outputs : Array Wire

/-- The wire of a gate. Only 31 bits of the gate's number are kept. -/
def Wire.ofGate (gate : Nat) (inverted : Bool) : Except Fault Wire :=
  if gate = 0 then .error .zeroGate else .ok ⟨gate % 2147483648, inverted⟩

def Gate.text : Gate → String
  | input => "Input"
  | and left right => "And \x7b left: " ++ left.text ++ ", right: " ++ right.text ++ " \x7d"

namespace Circuit

abbrev Action (Result : Type) := EStateM Fault Circuit Result

def empty : Circuit := ⟨#[], #[]⟩

instance : Inhabited Circuit := ⟨empty⟩

def size (circuit : Circuit) : Nat := circuit.gates.size

def placed (circuit : Circuit) (number : Nat) : Except Fault PlacedGate :=
  if number = 0 then .error (.unknownGate number)
  else
    match circuit.gates[number - 1]? with
    | some placed => .ok placed
    | none => .error (.unknownGate number)

def gate (circuit : Circuit) (number : Nat) : Except Fault Gate :=
  return (← circuit.placed number).gate

def level (circuit : Circuit) (number : Nat) : Except Fault Nat :=
  return (← circuit.placed number).level

/-- The numbers of all gates. -/
def numbers (circuit : Circuit) : List Nat := List.range' 1 circuit.size

/-- The numbers of the gates that satisfy a condition. -/
def select (circuit : Circuit) (condition : PlacedGate → Bool) : List Nat :=
  (circuit.numbers.zip circuit.gates.toList).filterMap fun (number, placed) =>
    if condition placed then some number else none

/-- The numbers of the inputs, in the order in which they were added. -/
def inputs (circuit : Circuit) : List Nat := circuit.select fun placed => placed.gate = .input

/-- The numbers of the gates by level. -/
def layers (circuit : Circuit) : List (List Nat) :=
  let depth := circuit.gates.foldl (fun depth placed => max depth (placed.level + 1)) 0
  (List.range depth).map fun level => circuit.select fun placed => placed.level = level

/-! ## Adding gates -/

def push (gate : Gate) (level : Nat) : Action Wire := do
  modify fun circuit => { circuit with gates := circuit.gates.push ⟨gate, level⟩ }
  Wire.ofGate (← get).size false

def addInput : Action Wire := push .input 0

def addAnd (left right : Wire) : Action Wire := do
  let leftLevel ← (← get).level left.gate
  let rightLevel ← (← get).level right.gate
  push (.and left right) (1 + max leftLevel rightLevel)

def addOr (left right : Wire) : Action Wire :=
  return (← addAnd left.invert right.invert).invert

def addXor (left right : Wire) : Action Wire := do
  let onlyLeft ← addAnd left right.invert
  let onlyRight ← addAnd left.invert right
  addOr onlyLeft onlyRight

def addOutput (output : Wire) : Action Unit := do
  let _ ← (← get).placed output.gate
  modify fun circuit => { circuit with outputs := circuit.outputs.push output }

/-- An output that is true where two wires differ. -/
def addMiter (first second : Wire) : Action Wire := do
  let miter ← addXor first second
  addOutput miter
  return miter

end Circuit

end DecisionDiagram
