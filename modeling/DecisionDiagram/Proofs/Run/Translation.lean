import DecisionDiagram.Proofs.Manager.Render
import DecisionDiagram.Proofs.Manager.Run

/-!
# Translating circuits

In every state of every run, a circuit is translated right: each gate has one edge, in use, with the
values that the circuit works out for the gate, and the outputs have edges with the values of their
wires. Collections between the layers change none of that, and nothing but a full store stops a
translation.
-/

set_option autoImplicit false

namespace DecisionDiagram.Manager

variable {manager : Manager} {circuit : Circuit} {translation : Translation}

/-- What a translation is to the manager that it was made in. -/
structure Translates (manager : Manager) (circuit : Circuit) (translation : Translation) : Prop where
  keys : ∀ number, number ∈ translation ↔ 1 ≤ number ∧ number ≤ circuit.size
  live : ∀ (number : Nat) (edge : Edge), translation[number]? = some edge → manager.store.Live edge
  value : ∀ inputs : List Bool, inputs.length = circuit.inputs.length →
    ∃ values, circuit.eval inputs = .ok values ∧ values.size = circuit.size ∧
      ∀ (number : Nat) (edge : Edge), translation[number]? = some edge →
        ∃ value, values[number - 1]? = some value ∧ manager.value edge inputs = .ok value
  outputs : ∃ edges, translation.outputs circuit = .ok edges ∧
    edges.length = circuit.outputs.size ∧
      ∀ (place : Nat) (wire : Wire) (edge : Edge), circuit.outputs[place]? = some wire →
        edges[place]? = some edge → manager.store.Live edge ∧
          ∀ inputs : List Bool, inputs.length = circuit.inputs.length →
            ∃ values value, circuit.eval inputs = .ok values ∧
              values[wire.gate - 1]? = some value ∧
                manager.value edge inputs = .ok (value ^^ wire.inverted)

theorem translates_of_faithful (canonical : manager.store.Canonical)
    (wellFormed : circuit.WellFormed) (faithful : Faithful circuit manager.store translation)
    (complete : ∀ number placedGate, circuit.placed number = .ok placedGate → number ∈ translation) :
    manager.Translates circuit translation where
  keys number := by
    constructor
    · intro known
      obtain ⟨edge, found⟩ :=
        Option.isSome_iff_exists.mp (Std.HashMap.isSome_getElem?_iff_mem.mpr known)
      obtain ⟨placedGate, placed⟩ := (faithful number edge found).placed
      exact Circuit.placed_bounds placed
    · intro bounds
      obtain ⟨placedGate, placed⟩ := Circuit.exists_placed bounds.1 bounds.2
      exact complete number placedGate placed
  live := faithful.live
  value inputs enough := by
    obtain ⟨values, evaluates, size, each⟩ := Circuit.eval_spec enough
    refine ⟨values, evaluates, size, fun number edge found => ?_⟩
    have renders := faithful number edge found
    obtain ⟨placedGate, placed⟩ := renders.placed
    obtain ⟨positive, inside⟩ := Circuit.placed_bounds placed
    have depends := circuit.dependsOn_function number
    rw [← enough] at depends
    exact ⟨_, each number positive inside,
      value_of_dependsOn canonical renders.represents depends⟩
  outputs := by
    obtain ⟨edges, answer, length, each⟩ := outputs_spec wellFormed canonical faithful complete
    refine ⟨edges, answer, length, fun place wire edge isOutput found => ?_⟩
    obtain ⟨same, sameFound, represents⟩ := each place wire isOutput
    rw [found] at sameFound
    cases sameFound
    refine ⟨represents.live, fun inputs enough => ?_⟩
    obtain ⟨values, evaluates, _, gates⟩ := Circuit.eval_spec enough
    obtain ⟨placedGate, placed⟩ := wellFormed.output wire (Array.mem_of_getElem? isOutput)
    obtain ⟨positive, inside⟩ := Circuit.placed_bounds placed
    have depends := circuit.dependsOn_wireFunction wire
    rw [← enough] at depends
    exact ⟨values, _, evaluates, gates wire.gate positive inside,
      value_of_dependsOn canonical represents depends⟩

/-- **Circuits are translated right** in every state of every run and for every threshold, and the
only fault of a translation is that the store is full. -/
theorem attained_translates {config : Config} (attained : Attained config manager)
    (built : circuit.Built) (threshold : Option Nat) :
    Leads (translate circuit threshold) manager
      (fun translation after => after.Translates circuit translation) OutOfSpace := by
  refine (translate_spec threshold built.wellFormed attained.sound).mono ?_ fun _ _ full => full
  intro translation after holds
  obtain ⟨afterSound, faithful, complete⟩ := holds
  exact translates_of_faithful afterSound.canonical built.wellFormed faithful complete

/-- The second input is added after a gate, and a collection follows every layer. -/
theorem translates_late_input : ∃ manager circuit, Attained ⟨3, 2, 2⟩ manager ∧
    circuit.Built ∧ circuit.inputs = [1, 3] ∧ circuit.layers = [[1, 3], [2, 4], [5]] ∧
      Leads (translate circuit (some 0)) manager
        (fun translation after => after.Translates circuit translation) OutOfSpace := by
  obtain ⟨manager, attained, _⟩ := attained_literals
  have built : ∃ circuit : Circuit, circuit.Built ∧ circuit.inputs = [1, 3] ∧
      circuit.layers = [[1, 3], [2, 4], [5]] := by
    refine ⟨_, .added (.output ⟨5, true⟩) (.added (.and ⟨2, true⟩ ⟨4, false⟩)
      (.added (.and ⟨1, false⟩ ⟨3, true⟩) (.added .input (.added (.and ⟨1, false⟩ ⟨1, false⟩)
        (.added .input .start rfl) rfl) rfl) rfl) rfl) rfl, ?_, ?_⟩
    all_goals rfl
  obtain ⟨circuit, built, inputs, layers⟩ := built
  exact ⟨manager, circuit, attained, built, inputs, layers,
    attained_translates attained built (some 0)⟩

end DecisionDiagram.Manager
