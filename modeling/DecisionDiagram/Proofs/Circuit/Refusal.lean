import DecisionDiagram.Proofs.Circuit.Derived

/-!
# Wires that lead out of no gate

Everything that is made of wires looks at their gates before it adds a gate of its own, and a derivation
looks at both of its wires at its first conjunction. So a wire of no gate is refused, and the circuit
stays as it is. A number keeps 31 bits when it becomes a wire: what is looked at is the gate with the
number that is left.
-/

set_option autoImplicit false

namespace DecisionDiagram.Circuit

variable {circuit : Circuit} {left right wire : Wire}

/-- The number that is named where two wires are not both wires of gates. -/
def missing (circuit : Circuit) (left right : Wire) : Nat :=
  if circuit.Has left then right.gate else left.gate

/-- Nothing can be made of the wire, and an attempt leaves the circuit as it is. -/
structure Refuses (circuit : Circuit) (wire : Wire) : Prop where
  first : ∀ (derivation : Derivation) (other : Wire),
    derivation.add wire other circuit = .error (.unknownGate wire.gate) circuit
  second : ∀ (derivation : Derivation) (other : Wire), derivation.add other wire circuit =
    .error (.unknownGate (circuit.missing other wire)) circuit
  output : addOutput wire circuit = .error (.unknownGate wire.gate) circuit

/-! ## Looking at gates -/

theorem placed_of_not_has (unknown : ¬circuit.Has wire) :
    circuit.placed wire.gate = .error (.unknownGate wire.gate) := by
  cases answer : circuit.placed wire.gate with
  | ok placedGate => exact absurd (has_iff.mpr ⟨placedGate, answer⟩) unknown
  | error fault =>
    unfold placed at answer
    split at answer
    · exact answer.symm
    · split at answer
      · cases answer
      · exact answer.symm

theorem level_of_not_has (unknown : ¬circuit.Has wire) :
    circuit.level wire.gate = .error (.unknownGate wire.gate) := by
  rw [level, placed_of_not_has unknown]
  rfl

theorem addOutput_of_not_has (unknown : ¬circuit.Has wire) :
    addOutput wire circuit = .error (.unknownGate wire.gate) circuit := by
  unfold addOutput
  rw [bind_ok (get_ok circuit), bind_error (read_error (placed_of_not_has unknown) circuit)]

/-- The left wire is looked at first, and both are before the gate is added. -/
theorem addAnd_of_missing (unknown : ¬(circuit.Has left ∧ circuit.Has right)) :
    addAnd left right circuit = .error (.unknownGate (circuit.missing left right)) circuit := by
  unfold addAnd missing
  rw [bind_ok (get_ok circuit)]
  by_cases leftHas : circuit.Has left
  · have rightUnknown : ¬circuit.Has right := fun rightHas => unknown ⟨leftHas, rightHas⟩
    obtain ⟨_, leftPlaced⟩ := has_iff.mp leftHas
    rw [if_pos leftHas, bind_ok (read_ok (level_of_placed leftPlaced) circuit),
      bind_ok (get_ok circuit), bind_error (read_error (level_of_not_has rightUnknown) circuit)]
  · rw [if_neg leftHas, bind_error (read_error (level_of_not_has leftHas) circuit)]

/-! ## Derivations -/

/-- Each derivation begins with a conjunction of its two wires, with signs that make no difference. -/
theorem add_of_missing (derivation : Derivation)
    (unknown : ¬(circuit.Has left ∧ circuit.Has right)) : derivation.add left right circuit =
      .error (.unknownGate (circuit.missing left right)) circuit := by
  have bothInverted : addAnd left.invert right.invert circuit =
      .error (.unknownGate (circuit.missing left right)) circuit := addAnd_of_missing unknown
  have rightInverted : addAnd left right.invert circuit =
      .error (.unknownGate (circuit.missing left right)) circuit := addAnd_of_missing unknown
  have differs : addXor left right circuit =
      .error (.unknownGate (circuit.missing left right)) circuit := bind_error rightInverted
  cases derivation with
  | and => exact addAnd_of_missing unknown
  | or => exact bind_error bothInverted
  | xor => exact differs
  | miter => exact bind_error differs

theorem refuses_iff : circuit.Refuses wire ↔ ¬circuit.Has wire := by
  constructor
  · intro refuses has
    obtain ⟨_, placed⟩ := has_iff.mp has
    have added := refuses.output
    rw [addOutput_of_placed placed] at added
    cases added
  · intro unknown
    refine ⟨fun derivation other => ?_, fun derivation other => ?_, addOutput_of_not_has unknown⟩
    · rw [add_of_missing derivation fun both => unknown both.1, missing, if_neg unknown]
    · exact add_of_missing derivation fun both => unknown both.2

/-- **A number that names no gate is refused**, as far as its 31 lowest bits name none. -/
theorem refuses_ofGate_iff {number : Nat} (nonzero : number ≠ 0) (inverted : Bool)
    (circuit : Circuit) : ∃ wire, Wire.ofGate number inverted = .ok wire ∧
      (circuit.Refuses wire ↔ number % 2 ^ 31 = 0 ∨ circuit.size < number % 2 ^ 31) ∧
        (number < 2 ^ 31 → (circuit.Refuses wire ↔ circuit.size < number)) := by
  refine ⟨⟨number % 2147483648, inverted⟩, if_neg nonzero, ?_, ?_⟩
  · simp only [refuses_iff, Has]
    omega
  · intro short
    simp only [refuses_iff, Has]
    omega

/-- An inverted wire to the gate after the last one. -/
theorem refuses_next_gate : ∃ circuit : Circuit, circuit.Built ∧ 2 ≠ 0 ∧
    ∃ wire, Wire.ofGate 2 true = .ok wire ∧ circuit.Refuses wire := by
  have built : ∃ circuit : Circuit, circuit.Built ∧ circuit = ⟨#[⟨.input, 0⟩], #[]⟩ :=
    ⟨_, .added .input .start rfl, rfl⟩
  obtain ⟨circuit, built, rfl⟩ := built
  have nonzero : 2 ≠ 0 := by decide
  obtain ⟨wire, made, _, short⟩ := refuses_ofGate_iff nonzero true ⟨#[⟨.input, 0⟩], #[]⟩
  exact ⟨_, built, nonzero, wire, made, (short (by decide)).mpr (by decide)⟩

/-- A number of 32 bits reads the first gate of a circuit that has no other. -/
theorem long_number_reads_first_gate : ∃ (circuit after : Circuit) (wire : Wire), circuit.Built ∧
    circuit.size < 2147483649 ∧ Wire.ofGate 2147483649 false = .ok wire ∧
      addAnd wire ⟨1, false⟩ circuit = .ok ⟨2, false⟩ after ∧ ¬circuit.Refuses wire := by
  have built : ∃ circuit : Circuit, circuit.Built ∧ circuit = ⟨#[⟨.input, 0⟩], #[]⟩ :=
    ⟨_, .added .input .start rfl, rfl⟩
  obtain ⟨circuit, built, rfl⟩ := built
  exact ⟨_, _, ⟨1, false⟩, built, by decide, rfl, rfl, fun refuses => nomatch refuses.output⟩

end DecisionDiagram.Circuit
