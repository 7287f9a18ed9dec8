/-!
# Wires of a circuit

A wire is the output of a numbered gate, possibly inverted. Gate numbers start at 1 and have 31
bits: the number and the inversion share one 32-bit word.
-/

set_option autoImplicit false

namespace DecisionDiagram

structure Wire where
  gate : Nat
  inverted : Bool
deriving DecidableEq, Inhabited

namespace Wire

def invert (wire : Wire) : Wire := { wire with inverted := !wire.inverted }

/-- The printed form: the gate's number behind an `n`, with an exclamation mark in front of an
inverted wire. -/
def text (wire : Wire) : String :=
  (if wire.inverted then "!n" else "n") ++ toString wire.gate

@[simp] theorem gate_invert (wire : Wire) : wire.invert.gate = wire.gate := rfl

@[simp] theorem invert_invert (wire : Wire) : wire.invert.invert = wire := by
  cases wire
  simp [invert]

end Wire

end DecisionDiagram
