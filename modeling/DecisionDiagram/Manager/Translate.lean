import DecisionDiagram.Circuit.Basic
import DecisionDiagram.Manager.Collect
import DecisionDiagram.Manager.Join

/-!
# Circuits as diagrams

A translation gives each gate of a circuit the edge of its function. Inputs become the variables
1, 2, ... in the order of their numbers; the other gates follow layer by layer. After each layer
the unused nodes may be collected; the edges of the translation so far are kept.
-/

set_option autoImplicit false

namespace DecisionDiagram

/-- Edges by gate number. -/
abbrev Translation := Std.HashMap Nat Edge

namespace Manager

def translateInputs : List Nat → Nat → Translation → Action Translation
  | [], _, translation => return translation
  | number :: rest, var, translation => do
    let edge ← literal var
    translateInputs rest (var + 1) (translation.insert number edge)

/-- The edge of a wire whose gate has one. -/
def resolve (translation : Translation) (wire : Wire) : Except Fault Edge :=
  match translation[wire.gate]? with
  | some edge => edge.negateIf wire.inverted
  | none => .error (.gateNotTranslated wire.gate)

def translateLayer (circuit : Circuit) : List Nat → Translation → Action Translation
  | [], translation => return translation
  | number :: rest, translation => do
    match ← circuit.gate number with
    | .input => throw .inputAboveFirstLayer
    | .and left right =>
      let left ← resolve translation left
      let right ← resolve translation right
      let edge ← and left right
      translateLayer circuit rest (translation.insert number edge)

/-- Collects if more nodes are in use than `threshold` allows. -/
def collectAbove (threshold : Option Nat) (translation : Translation) : Action Unit := do
  match threshold with
  | none => return
  | some threshold =>
    if threshold < (← get).store.liveCount then
      collect (translation.toList.map Prod.snd)

def translateLayers (circuit : Circuit) (threshold : Option Nat) :
    List (List Nat) → Translation → Action Translation
  | [], translation => return translation
  | layer :: rest, translation => do
    let translation ← translateLayer circuit layer translation
    collectAbove threshold translation
    translateLayers circuit threshold rest translation

/-- The edges of all gates. With a threshold, nodes are collected after each layer that leaves
more nodes in use. -/
def translate (circuit : Circuit) (threshold : Option Nat) : Action Translation := do
  let translation ← translateInputs circuit.inputs 1 ∅
  translateLayers circuit threshold (circuit.layers.drop 1) translation

end Manager

/-- The edges of a circuit's outputs. -/
def Translation.outputs (translation : Translation) (circuit : Circuit) :
    Except Fault (List Edge) :=
  circuit.outputs.toList.mapM fun output =>
    match translation[output.gate]? with
    | some edge => edge.negateIf output.inverted
    | none => .error (.outputNotTranslated output)

end DecisionDiagram
