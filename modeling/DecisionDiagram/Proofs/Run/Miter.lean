import DecisionDiagram.Proofs.Circuit.Derived
import DecisionDiagram.Proofs.Manager.ModelCount
import DecisionDiagram.Proofs.Manager.ModelSearch
import DecisionDiagram.Proofs.Manager.Render
import DecisionDiagram.Proofs.Manager.Run

/-!
# Equivalence checking by miters

Two wires are compared by translating a circuit that has a miter for them. The edge of the miter is
the constant false exactly when the wires agree on all inputs. Otherwise a model of it is a
difference of the wires, and the number of its models is the number of their differences.
-/

set_option autoImplicit false

namespace DecisionDiagram

namespace Circuit

/-- The inputs under which two wires have different values. -/
def differences (circuit : Circuit) (first second : Wire) : Set (List Bool) :=
  {inputs | ∃ values, circuit.eval inputs = .ok values ∧
    first.value values ≠ second.value values}

variable {circuit : Circuit} {first second : Wire}

theorem differences_eq (firstKnown : ∃ placedGate, circuit.placed first.gate = .ok placedGate)
    (secondKnown : ∃ placedGate, circuit.placed second.gate = .ok placedGate) :
    circuit.differences first second =
      {inputs | inputs.length = circuit.inputs.length ∧
        (circuit.wireFunction first (Manager.valuationOf inputs) ^^
          circuit.wireFunction second (Manager.valuationOf inputs))} := by
  ext inputs
  constructor
  · intro member
    obtain ⟨values, evaluates, differ⟩ := member
    rw [value_of_eval evaluates firstKnown, value_of_eval evaluates secondKnown] at differ
    exact ⟨length_of_eval evaluates, bne_iff_ne.mpr differ⟩
  · intro member
    obtain ⟨enough, differ⟩ := member
    obtain ⟨values, evaluates, _⟩ := eval_spec enough
    refine ⟨values, evaluates, ?_⟩
    rw [value_of_eval evaluates firstKnown, value_of_eval evaluates secondKnown]
    exact bne_iff_ne.mp differ

theorem dependsOn_difference (circuit : Circuit) (first second : Wire) :
    DependsOn (fun valuation =>
      circuit.wireFunction first valuation ^^ circuit.wireFunction second valuation)
      {var | var ≤ circuit.inputs.length} := by
  intro left right agree
  have onFirst := circuit.dependsOn_wireFunction first agree
  have onSecond := circuit.dependsOn_wireFunction second agree
  exact congr (congrArg _ onFirst) onSecond

end Circuit

namespace Manager

variable {manager : Manager} {edge : Edge} {circuit middle last : Circuit}
  {first second miter : Wire}

/-- The edge tells where two wires of a circuit differ. -/
structure TellsApart (manager : Manager) (edge : Edge) (circuit : Circuit) (first second : Wire) :
    Prop where
  live : manager.store.Live edge
  zero_iff : edge = .zero ↔ ∀ inputs values, circuit.eval inputs = .ok values →
    first.value values = second.value values
  model : edge ≠ .zero → ∃ cells, manager.model? edge circuit.inputs.length = .ok (some cells) ∧
    cells.length = circuit.inputs.length ∧
      ∀ inputs, CompletedBy cells inputs → inputs ∈ circuit.differences first second
  modelCount : manager.modelCount edge circuit.inputs.length =
    .ok (circuit.differences first second).ncard

section

variable (canonical : manager.store.Canonical)
  (firstKnown : ∃ placedGate, circuit.placed first.gate = .ok placedGate)
  (secondKnown : ∃ placedGate, circuit.placed second.gate = .ok placedGate)
  (represents : manager.store.Represents edge fun valuation =>
    circuit.wireFunction first valuation ^^ circuit.wireFunction second valuation)
include canonical firstKnown secondKnown represents

theorem agree_of_zero (isZero : edge = .zero) {inputs : List Bool} {values : Array Bool}
    (evaluates : circuit.eval inputs = .ok values) : first.value values = second.value values := by
  have constant := congrFun (represents.eq_false_of_zero canonical isZero) (valuationOf inputs)
  rw [Circuit.value_of_eval evaluates firstKnown, Circuit.value_of_eval evaluates secondKnown]
  simpa using constant

/-- Wires that agree on all lists of inputs have the same function, so that the diagram of their
difference is the constant false. -/
theorem zero_of_agree (agree : ∀ inputs values, circuit.eval inputs = .ok values →
    first.value values = second.value values) : edge = .zero := by
  have constant : (fun valuation => circuit.wireFunction first valuation ^^
      circuit.wireFunction second valuation) = fun _ => false := by
    funext valuation
    rw [← function_assignmentOf (dependsOn_first canonical represents
      (circuit.dependsOn_difference first second))]
    obtain ⟨values, evaluates, _⟩ := Circuit.eval_spec
      (length_assignmentOf valuation circuit.inputs.length)
    have equal := agree _ values evaluates
    rw [Circuit.value_of_eval evaluates firstKnown,
      Circuit.value_of_eval evaluates secondKnown] at equal
    simpa using equal
  rw [constant] at represents
  exact represents.unique canonical canonical.represents_zero

theorem tellsApart_of_represents : manager.TellsApart edge circuit first second := by
  have depends := circuit.dependsOn_difference first second
  have differences := Circuit.differences_eq firstKnown secondKnown
  refine ⟨represents.live, ⟨?_, ?_⟩, ?_, ?_⟩
  · intro isZero inputs values evaluates
    exact agree_of_zero canonical firstKnown secondKnown represents isZero evaluates
  · exact zero_of_agree canonical firstKnown secondKnown represents
  · intro satisfiable
    obtain ⟨cells, found, length, completes⟩ := model?_spec canonical represents depends satisfiable
    refine ⟨cells, found, length, fun inputs completed => ?_⟩
    rw [differences]
    exact ⟨completed.1.trans length, completes inputs completed⟩
  · rw [differences, modelCount_inputs canonical represents depends]

end

/-- The outputs of a circuit have a miter at a place, and its edge tells the two wires apart. -/
def Compares (manager : Manager) (translation : Translation) (circuit : Circuit) (place : Nat)
    (miter first second : Wire) : Prop :=
  ∃ edges edge, translation.outputs circuit = .ok edges ∧ circuit.outputs[place]? = some miter ∧
    edges[place]? = some edge ∧ manager.TellsApart edge circuit first second

theorem translate_compares (sound : manager.Sound) (wellFormed : circuit.WellFormed)
    (few : circuit.size < 2 ^ 31)
    (added : Circuit.addMiter first second circuit = .ok miter middle)
    (more : Circuit.BuiltFrom middle last) (threshold : Option Nat) :
    Leads (translate last threshold) manager
      (fun translation after =>
        after.Compares translation last circuit.outputs.size miter first second)
      OutOfSpace := by
  obtain ⟨outputs, ⟨miterGate, miterKnown⟩, function⟩ := Circuit.addMiter_spec wellFormed few added
  obtain ⟨⟨firstGate, firstKnown⟩, ⟨secondGate, secondKnown⟩⟩ := Circuit.addMiter_reads added
  have toMiddle := (Circuit.addMiter_grows added).extended
  have toLast := more.grows.extended
  have toEnd := toMiddle.trans toLast
  have lastFormed := (wellFormed.grow (Circuit.addMiter_grows added)).grow more.grows
  have isOutput : last.outputs[circuit.outputs.size]? = some miter :=
    toLast.output (by rw [outputs, Array.getElem?_push_size])
  refine (translate_spec threshold lastFormed sound).mono ?_ fun _ _ full => full
  intro translation after holds
  obtain ⟨afterSound, faithful, complete⟩ := holds
  obtain ⟨edges, answer, _, each⟩ :=
    outputs_spec lastFormed afterSound.canonical faithful complete
  obtain ⟨edge, found, represents⟩ := each _ miter isOutput
  refine ⟨edges, edge, answer, isOutput, found, ?_⟩
  apply tellsApart_of_represents afterSound.canonical ⟨_, toEnd.placed_eq_ok firstKnown⟩
    ⟨_, toEnd.placed_eq_ok secondKnown⟩
  rw [toEnd.wireFunction_eq firstKnown, toEnd.wireFunction_eq secondKnown]
  rw [toLast.wireFunction_eq miterKnown] at represents
  exact represents.congr function

/-- **Miters tell wires apart.** Two wires of a circuit have a miter as long as its three gates have
room, and it compares them in every state of every run and for every threshold, whatever is added to
the circuit afterwards. -/
theorem attained_tellsApart {config : Config} (attained : Attained config manager)
    (built : circuit.Built) (few : circuit.size < 2 ^ 31)
    (firstKnown : ∃ placedGate, circuit.placed first.gate = .ok placedGate)
    (secondKnown : ∃ placedGate, circuit.placed second.gate = .ok placedGate)
    (threshold : Option Nat) :
    (circuit.size + 3 < 2 ^ 31 →
      ∃ miter middle, Circuit.addMiter first second circuit = .ok miter middle) ∧
      ∀ miter middle last, Circuit.addMiter first second circuit = .ok miter middle →
        Circuit.BuiltFrom middle last →
          Leads (translate last threshold) manager
            (fun translation after =>
              after.Compares translation last circuit.outputs.size miter first second)
            OutOfSpace := by
  constructor
  · exact Circuit.exists_addMiter firstKnown secondKnown
  · intro miter middle last added more
    exact translate_compares attained.sound built.wellFormed few added more threshold

/-- Two inputs are compared, and another gate is added after their miter. -/
theorem tellsApart_inputs : ∃ manager circuit miter middle last, Attained ⟨3, 2, 2⟩ manager ∧
    circuit.Built ∧ circuit.inputs = [1, 2] ∧
      Circuit.addMiter ⟨1, false⟩ ⟨2, false⟩ circuit = .ok miter middle ∧
        Circuit.BuiltFrom middle last ∧ last.size = 6 ∧
          Leads (translate last (some 3)) manager
            (fun translation after => after.Compares translation last 0 miter ⟨1, false⟩ ⟨2, false⟩)
            OutOfSpace := by
  obtain ⟨manager, attained, _⟩ := attained_literals
  have compared : ∃ circuit miter middle last, circuit.Built ∧ circuit = ⟨#[⟨.input, 0⟩,
      ⟨.input, 0⟩], #[]⟩ ∧ Circuit.addMiter ⟨1, false⟩ ⟨2, false⟩ circuit = .ok miter middle ∧
        Circuit.BuiltFrom middle last ∧ last.size = 6 := by
    exact ⟨_, _, _, _, .added .input (.added .input .start rfl) rfl, rfl, rfl,
      .added (.or ⟨5, true⟩ ⟨1, false⟩) .start rfl, rfl⟩
  obtain ⟨circuit, miter, middle, last, built, rfl, added, more, size⟩ := compared
  have compares := (attained_tellsApart attained built (by decide) ⟨⟨.input, 0⟩, rfl⟩
    ⟨⟨.input, 0⟩, rfl⟩ (some 3)).2 miter middle last added more
  exact ⟨manager, _, miter, middle, last, attained, built, rfl, added, more, size, compares⟩

end Manager

end DecisionDiagram
