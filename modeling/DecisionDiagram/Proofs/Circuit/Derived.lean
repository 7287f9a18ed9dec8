import DecisionDiagram.Proofs.Circuit.Values

/-!
# Derived gates

Exclusive or is made of three conjunctions, and a miter is an exclusive or that becomes an output.
Their wires have the functions that one expects, as long as the new gates have numbers of 31 bits: a
gate whose number is cut off to zero cannot be read. `exists_makes` says what all derived gates have in
common.
-/

set_option autoImplicit false

namespace DecisionDiagram

/-- The gates that are made of two wires. -/
inductive Derivation where
  | and
  | or
  | xor
  | miter

namespace Derivation

def add : Derivation → Wire → Wire → Circuit.Action Wire
  | and => Circuit.addAnd
  | or => Circuit.addOr
  | xor => Circuit.addXor
  | miter => Circuit.addMiter

/-- The value of the new wire. -/
def value : Derivation → Bool → Bool → Bool
  | and, left, right => left && right
  | or, left, right => left || right
  | xor, left, right => left ^^ right
  | miter, left, right => left ^^ right

/-- The number of conjunctions that it takes. -/
def cost : Derivation → Nat
  | and => 1
  | or => 1
  | xor => 3
  | miter => 3

def addition : Derivation → Wire → Wire → Addition
  | and => .and
  | or => .or
  | xor => .xor
  | miter => .miter

end Derivation

namespace Circuit

variable {before after : Circuit} {left right wire : Wire} {placedGate : PlacedGate}

namespace Conjoins

theorem size_eq (conjoins : before.Conjoins left right after) : after.size = before.size + 1 := by
  cases conjoins
  exact size_withGate

theorem extended (conjoins : before.Conjoins left right after) : before.Extends after :=
  (Step.and conjoins).extended

theorem wellFormed (conjoins : before.Conjoins left right after) (wellFormed : before.WellFormed) :
    after.WellFormed :=
  wellFormed.step (.and conjoins)

theorem function_eq (conjoins : before.Conjoins left right after) (wellFormed : before.WellFormed) :
    after.function (before.size + 1) = fun valuation =>
      before.wireFunction left valuation && before.wireFunction right valuation := by
  have afterWellFormed := conjoins.wellFormed wellFormed
  have grows := conjoins.extended
  cases conjoins with
  | placed leftPlaced rightPlaced =>
    rw [function_and afterWellFormed (placed_withGate_iff.mpr (Or.inr ⟨rfl, rfl⟩)),
      grows.wireFunction_eq leftPlaced, grows.wireFunction_eq rightPlaced]

end Conjoins

/-- The number of a new gate is cut off only to zero, which is no gate. -/
theorem nextWire_gate {other : Circuit} (few : before.size < 2 ^ 31)
    (known : other.placed before.nextWire.gate = .ok placedGate) :
    before.nextWire.gate = before.size + 1 ∧ before.size + 1 < 2 ^ 31 := by
  have nonzero := (placed_bounds known).1
  unfold nextWire at nonzero ⊢
  simp only at nonzero ⊢
  omega

namespace Conjoins

theorem reads (conjoins : before.Conjoins left right after) :
    (∃ placedGate, before.placed left.gate = .ok placedGate) ∧
      ∃ placedGate, before.placed right.gate = .ok placedGate := by
  cases conjoins with
  | placed leftPlaced rightPlaced => exact ⟨⟨_, leftPlaced⟩, ⟨_, rightPlaced⟩⟩

theorem wireFunction_eq (conjoins : before.Conjoins left right after)
    (wellFormed : before.WellFormed) (number : before.nextWire.gate = before.size + 1)
    (valuation : Valuation) :
    after.wireFunction before.nextWire valuation =
      (before.wireFunction left valuation && before.wireFunction right valuation) := by
  rw [wireFunction, number, conjoins.function_eq wellFormed]
  exact Bool.xor_false _

theorem nextWire_placed (conjoins : before.Conjoins left right after)
    (number : before.nextWire.gate = before.size + 1) :
    ∃ placedGate, after.placed before.nextWire.gate = .ok placedGate := by
  rw [number]
  exact exists_placed (Nat.succ_pos _) (Nat.le_of_eq conjoins.size_eq.symm)

end Conjoins

theorem addXor_function (wellFormed : before.WellFormed) (few : before.size < 2 ^ 31)
    (run : addXor left right before = .ok wire after)
    (known : after.placed wire.gate = .ok placedGate) (valuation : Valuation) :
    after.wireFunction wire valuation =
      (before.wireFunction left valuation ^^ before.wireFunction right valuation) := by
  obtain ⟨first, second, onFirst, onSecond, onBoth, rfl⟩ := addXor_eq_ok run
  -- a wire that was read has the number of its gate, so there is room for one more
  obtain ⟨⟨_, firstKnown⟩, ⟨_, secondKnown⟩⟩ := onBoth.reads
  obtain ⟨firstNumber, room⟩ := nextWire_gate few firstKnown
  rw [← onFirst.size_eq] at room
  obtain ⟨secondNumber, room⟩ := nextWire_gate room secondKnown
  rw [← onSecond.size_eq] at room
  obtain ⟨lastNumber, _⟩ := nextWire_gate room known
  have firstFormed := onFirst.wellFormed wellFormed
  have secondFormed := onSecond.wellFormed firstFormed
  obtain ⟨⟨_, leftKnown⟩, ⟨_, rightKnown⟩⟩ := onFirst.reads
  rw [Wire.gate_invert] at rightKnown
  obtain ⟨_, firstPlaced⟩ := onFirst.nextWire_placed firstNumber
  have onlyLeft : second.wireFunction before.nextWire valuation =
      (before.wireFunction left valuation && !before.wireFunction right valuation) := by
    rw [onSecond.extended.wireFunction_eq firstPlaced,
      onFirst.wireFunction_eq wellFormed firstNumber, wireFunction_invert]
  have onlyRight : second.wireFunction first.nextWire valuation =
      (!before.wireFunction left valuation && before.wireFunction right valuation) := by
    rw [onSecond.wireFunction_eq firstFormed secondNumber, wireFunction_invert,
      onFirst.extended.wireFunction_eq leftKnown, onFirst.extended.wireFunction_eq rightKnown]
  rw [wireFunction_invert, onBoth.wireFunction_eq secondFormed lastNumber, wireFunction_invert,
    wireFunction_invert, onlyLeft, onlyRight]
  cases before.wireFunction left valuation <;> cases before.wireFunction right valuation <;> rfl

/-- A miter is true where the two wires differ, and it is the last output. -/
theorem addMiter_spec (wellFormed : before.WellFormed) (few : before.size < 2 ^ 31)
    (run : addMiter left right before = .ok wire after) :
    after.outputs = before.outputs.push wire ∧
      (∃ placedGate, after.placed wire.gate = .ok placedGate) ∧
        ∀ valuation, after.wireFunction wire valuation =
          (before.wireFunction left valuation ^^ before.wireFunction right valuation) := by
  obtain ⟨middle, placedGate, adds, known, rfl⟩ := addMiter_eq_ok run
  have outputs : middle.outputs = before.outputs := by
    obtain ⟨first, second, onFirst, onSecond, onBoth, _⟩ := addXor_eq_ok adds
    cases onFirst
    cases onSecond
    cases onBoth
    rfl
  have function := addXor_function wellFormed few adds known
  refine ⟨?_, ⟨placedGate, known⟩, function⟩
  rw [withOutput, outputs]

/-- The two wires of a miter lead to gates that were there before. -/
theorem addMiter_reads (run : addMiter left right before = .ok wire after) :
    (∃ placedGate, before.placed left.gate = .ok placedGate) ∧
      ∃ placedGate, before.placed right.gate = .ok placedGate := by
  obtain ⟨_, _, adds, _, _⟩ := addMiter_eq_ok run
  obtain ⟨_, _, onFirst, _⟩ := addXor_eq_ok adds
  exact onFirst.reads

/-! ## Miters of gates that exist -/

theorem level_of_placed {number : Nat} (known : before.placed number = .ok placedGate) :
    before.level number = .ok placedGate.level := by
  rw [level, known]
  rfl

theorem addAnd_of_placed {onLeft onRight : PlacedGate}
    (leftPlaced : before.placed left.gate = .ok onLeft)
    (rightPlaced : before.placed right.gate = .ok onRight) :
    ∃ after, addAnd left right before = .ok before.nextWire after ∧
      before.Conjoins left right after := by
  refine ⟨_, ?_, .placed leftPlaced rightPlaced⟩
  unfold addAnd
  rw [bind_ok (get_ok before), bind_ok (read_ok (level_of_placed leftPlaced) before),
    bind_ok (get_ok before), bind_ok (read_ok (level_of_placed rightPlaced) before), push_eq_ok]

theorem addXor_of_placed (leftKnown : ∃ placedGate, before.placed left.gate = .ok placedGate)
    (rightKnown : ∃ placedGate, before.placed right.gate = .ok placedGate)
    (room : before.size + 3 < 2 ^ 31) :
    ∃ wire after, addXor left right before = .ok wire after ∧
      ∃ placedGate, after.placed wire.gate = .ok placedGate := by
  obtain ⟨onLeft, leftPlaced⟩ := leftKnown
  obtain ⟨onRight, rightPlaced⟩ := rightKnown
  have invertedPlaced : before.placed right.invert.gate = .ok onRight := rightPlaced
  obtain ⟨first, addsFirst, onFirst⟩ := addAnd_of_placed leftPlaced invertedPlaced
  have leftKept : first.placed left.invert.gate = .ok onLeft :=
    onFirst.extended.placed_eq_ok leftPlaced
  have rightKept := onFirst.extended.placed_eq_ok rightPlaced
  obtain ⟨second, addsSecond, onSecond⟩ := addAnd_of_placed leftKept rightKept
  -- the numbers of the new gates are not cut off, so their wires can be read
  have number : ∀ circuit : Circuit, circuit.size ≤ before.size + 2 →
      circuit.nextWire.gate = circuit.size + 1 := by
    intro circuit few
    apply Nat.mod_eq_of_lt
    omega
  have firstSize := onFirst.size_eq
  have secondSize := onSecond.size_eq
  obtain ⟨onOnlyLeft, onlyLeftPlaced⟩ := onFirst.nextWire_placed (number before (by omega))
  obtain ⟨onOnlyRight, onlyRightPlaced⟩ := onSecond.nextWire_placed (number first (by omega))
  have onlyLeftKept : second.placed before.nextWire.invert.gate = .ok onOnlyLeft :=
    onSecond.extended.placed_eq_ok onlyLeftPlaced
  have onlyRightKept : second.placed first.nextWire.invert.gate = .ok onOnlyRight :=
    onlyRightPlaced
  obtain ⟨third, addsThird, onThird⟩ := addAnd_of_placed onlyLeftKept onlyRightKept
  refine ⟨second.nextWire.invert, third, ?_, ?_⟩
  · unfold addXor addOr
    rw [bind_ok addsFirst, bind_ok addsSecond, bind_ok addsThird]
    rfl
  · rw [Wire.gate_invert]
    exact onThird.nextWire_placed (number second (by omega))

theorem addOutput_of_placed (known : before.placed wire.gate = .ok placedGate) :
    addOutput wire before = .ok () (before.withOutput wire) := by
  unfold addOutput
  rw [bind_ok (get_ok before), bind_ok (read_ok known before)]
  rfl

theorem addMiter_of_placed (differs : addXor left right before = .ok wire after)
    (known : after.placed wire.gate = .ok placedGate) :
    addMiter left right before = .ok wire (after.withOutput wire) := by
  unfold addMiter
  rw [bind_ok differs, bind_ok (addOutput_of_placed known)]
  rfl

/-- While there is room for three more gates, any two wires of gates have a miter. -/
theorem exists_addMiter (leftKnown : ∃ placedGate, before.placed left.gate = .ok placedGate)
    (rightKnown : ∃ placedGate, before.placed right.gate = .ok placedGate)
    (room : before.size + 3 < 2 ^ 31) :
    ∃ miter after, addMiter left right before = .ok miter after := by
  obtain ⟨miter, middle, differs, _, known⟩ := addXor_of_placed leftKnown rightKnown room
  exact ⟨miter, middle.withOutput miter, addMiter_of_placed differs known⟩

/-! ## All derived gates -/

/-- What comes of a derivation. -/
structure Makes (before : Circuit) (derivation : Derivation) (left right wire : Wire)
    (after : Circuit) : Prop where
  adds : derivation.add left right before = .ok wire after
  grows : Grows before after
  size : after.size = before.size + derivation.cost
  inputs : after.inputs.length = before.inputs.length
  known : after.Has wire
  function : ∀ valuation, after.wireFunction wire valuation =
    derivation.value (before.wireFunction left valuation) (before.wireFunction right valuation)

theorem Conjoins.length_inputs (conjoins : before.Conjoins left right after) :
    after.inputs.length = before.inputs.length := by
  cases conjoins
  simp [Circuit.length_inputs, gateList, withGate]

namespace Makes

variable {derivation : Derivation}

theorem conjoined (wellFormed : before.WellFormed) (leftHas : before.Has left)
    (rightHas : before.Has right) (room : before.size + 1 < 2 ^ 31) :
    ∃ after, before.Makes .and left right before.nextWire after := by
  obtain ⟨_, leftPlaced⟩ := has_iff.mp leftHas
  obtain ⟨_, rightPlaced⟩ := has_iff.mp rightHas
  obtain ⟨after, adds, conjoins⟩ := addAnd_of_placed leftPlaced rightPlaced
  have number : before.nextWire.gate = before.size + 1 := Nat.mod_eq_of_lt room
  exact ⟨after, adds, .single (.and conjoins), conjoins.size_eq, conjoins.length_inputs,
    has_iff.mpr (conjoins.nextWire_placed number), conjoins.wireFunction_eq wellFormed number⟩

/-- A disjunction is an inverted conjunction. -/
theorem disjoined (made : before.Makes .and left.invert right.invert wire after) :
    before.Makes .or left right wire.invert after where
  adds := by
    have conjoins : addAnd left.invert right.invert before = .ok wire after := made.adds
    show addOr left right before = .ok wire.invert after
    unfold addOr
    rw [bind_ok conjoins]
    rfl
  grows := made.grows
  size := made.size
  inputs := made.inputs
  known := made.known
  function valuation := by
    rw [wireFunction_invert, made.function, wireFunction_invert, wireFunction_invert]
    simp [Derivation.value]

theorem differing (wellFormed : before.WellFormed) (leftHas : before.Has left)
    (rightHas : before.Has right) (room : before.size + 3 < 2 ^ 31) :
    ∃ wire after, before.Makes .xor left right wire after := by
  obtain ⟨wire, after, adds, _, known⟩ :=
    addXor_of_placed (has_iff.mp leftHas) (has_iff.mp rightHas) room
  obtain ⟨first, second, onFirst, onSecond, onBoth, _⟩ := addXor_eq_ok adds
  have size : after.size = before.size + 3 := by
    rw [onBoth.size_eq, onSecond.size_eq, onFirst.size_eq]
  have inputs : after.inputs.length = before.inputs.length := by
    rw [onBoth.length_inputs, onSecond.length_inputs, onFirst.length_inputs]
  exact ⟨wire, after, adds, addXor_grows adds, size, inputs, has_iff.mpr ⟨_, known⟩,
    addXor_function wellFormed (by omega) adds known⟩

/-- A miter is an exclusive or that becomes an output. -/
theorem compared (made : before.Makes .xor left right wire after) :
    before.Makes .miter left right wire (after.withOutput wire) := by
  obtain ⟨_, known⟩ := has_iff.mp made.known
  have adds : addMiter left right before = .ok wire (after.withOutput wire) :=
    addMiter_of_placed made.adds known
  exact { made with adds, grows := made.grows.tail (.output known) }

theorem built (made : before.Makes derivation left right wire after) : BuiltFrom before after := by
  refine .added (derivation.addition left right) .start ?_
  have adds := made.adds
  cases derivation
  all_goals exact bind_ok adds

end Makes

/-- While its gates have room, every derivation from wires of gates succeeds. -/
theorem exists_makes (wellFormed : before.WellFormed) (derivation : Derivation)
    (leftHas : before.Has left) (rightHas : before.Has right)
    (room : before.size + derivation.cost < 2 ^ 31) :
    ∃ wire after, before.Makes derivation left right wire after := by
  cases derivation with
  | and => exact ⟨_, Makes.conjoined wellFormed leftHas rightHas room⟩
  | or =>
    have leftInverted : before.Has left.invert := leftHas
    have rightInverted : before.Has right.invert := rightHas
    obtain ⟨after, made⟩ := Makes.conjoined wellFormed leftInverted rightInverted room
    exact ⟨_, after, made.disjoined⟩
  | xor => exact Makes.differing wellFormed leftHas rightHas room
  | miter =>
    obtain ⟨wire, after, made⟩ := Makes.differing wellFormed leftHas rightHas room
    exact ⟨wire, _, made.compared⟩

end Circuit

end DecisionDiagram
