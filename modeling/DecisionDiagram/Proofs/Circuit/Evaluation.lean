import DecisionDiagram.Proofs.Circuit.Derived

/-!
# Values of derived gates, and values that stay

The wire of a derived gate has the value that one expects of it. Whatever is added to a circuit, gates
keep their values when values for the new inputs come after the old ones. `extendValues?` gives up where
a value would be read before it is there; it never does, since a gate comes after the gates that it
reads and takes an input of its own.
-/

set_option autoImplicit false

namespace DecisionDiagram

/-- The value of a wire, if that of its gate is there. -/
def Wire.value? (values : Array Bool) (wire : Wire) : Option Bool :=
  if wire.gate = 0 then none else values[wire.gate - 1]?.map (· ^^ wire.inverted)

namespace Circuit

/-- Appends the values of more gates, but gives up at a gate that reads a value that is not there, and
at an input for which no value is left. -/
def extendValues? : List Gate → List Bool → Array Bool → Option (Array Bool)
  | [], _, values => some values
  | .input :: _, [], _ => none
  | .input :: rest, first :: inputs, values => extendValues? rest inputs (values.push first)
  | .and left right :: rest, inputs, values =>
    match left.value? values, right.value? values with
    | some onLeft, some onRight => extendValues? rest inputs (values.push (onLeft && onRight))
    | _, _ => none

variable {before after circuit later : Circuit} {left right wire : Wire} {inputs more : List Bool}
  {values : Array Bool}

/-- The new wire has the value of the derivation, for all values of the inputs, which are as many as
before. -/
structure Derives (before : Circuit) (derivation : Derivation) (left right wire : Wire)
    (after : Circuit) : Prop where
  adds : derivation.add left right before = .ok wire after
  built : BuiltFrom before after
  size : after.size = before.size + derivation.cost
  known : after.Has wire
  value : ∀ inputs, inputs.length = before.inputs.length →
    ∃ values, after.eval inputs = .ok values ∧ values.size = after.size ∧
      wire.value values = derivation.value (left.value values) (right.value values)

/-- All gates of `before` keep their values in `later`, whose values are never read too early. -/
def KeepsValues (before later : Circuit) : Prop :=
  ∀ inputs more, inputs.length = before.inputs.length →
    (inputs ++ more).length = later.inputs.length →
      ∃ values last, before.eval inputs = .ok values ∧ values.size = before.size ∧
        later.eval (inputs ++ more) = .ok last ∧ values.toList <+: last.toList ∧
          extendValues? later.gateList (inputs ++ more) #[] = some last

/-! ## Derived gates -/

theorem Makes.derives {derivation : Derivation} (leftHas : before.Has left)
    (rightHas : before.Has right) (made : before.Makes derivation left right wire after) :
    before.Derives derivation left right wire after where
  adds := made.adds
  built := made.built
  size := made.size
  known := made.known
  value inputs enough := by
    obtain ⟨_, leftPlaced⟩ := has_iff.mp leftHas
    obtain ⟨_, rightPlaced⟩ := has_iff.mp rightHas
    have grows := made.grows.extended
    obtain ⟨values, evaluates, size, _⟩ := eval_spec (enough.trans made.inputs.symm)
    refine ⟨values, evaluates, size, ?_⟩
    rw [value_of_eval evaluates (has_iff.mp made.known),
      value_of_eval evaluates ⟨_, grows.placed_eq_ok leftPlaced⟩,
      value_of_eval evaluates ⟨_, grows.placed_eq_ok rightPlaced⟩,
      grows.wireFunction_eq leftPlaced, grows.wireFunction_eq rightPlaced]
    exact made.function _

/-! ## Nothing is read too early -/

theorem value?_eq (positive : 1 ≤ wire.gate) (inside : wire.gate ≤ values.size) :
    wire.value? values = some (wire.value values) := by
  have nonzero : wire.gate ≠ 0 := by omega
  have place : wire.gate - 1 < values.size := by omega
  simp [Wire.value?, Wire.value, nonzero, place]

/-- The rest of the gates reads only what is there, once the gates in front have their values. -/
theorem WellFormed.extendValues?_eq (wellFormed : circuit.WellFormed) {front back : List PlacedGate}
    (whole : circuit.gates.toList = front ++ back) (sized : values.size = front.length)
    (enough : (back.map PlacedGate.gate).count .input ≤ inputs.length) :
    extendValues? (back.map PlacedGate.gate) inputs values =
      some (extendValues (back.map PlacedGate.gate) inputs values) := by
  induction back generalizing front inputs values with
  | nil => rfl
  | cons placedGate rest ih =>
    have next : circuit.gates.toList = front ++ [placedGate] ++ rest := by simp [whole]
    have nextSize : ∀ value, (values.push value).size = (front ++ [placedGate]).length := by
      simp [sized]
    have known := placed_iff_splits.mpr ⟨front, rest, whole, rfl⟩
    obtain ⟨gate, level⟩ := placedGate
    rw [List.map_cons] at enough ⊢
    cases gate with
    | input =>
      rw [List.count_cons_self] at enough
      cases inputs with
      | nil => exact absurd enough (Nat.not_succ_le_zero _)
      | cons first inputs => exact ih next (nextSize first) (Nat.le_of_succ_le_succ enough)
    | and left right =>
      rw [List.count_cons_of_ne (by simp)] at enough
      obtain ⟨_, _, leftPlaced, rightPlaced, leftBefore, rightBefore, _⟩ :=
        wellFormed.and _ left right level known
      have leftThere : left.value? values = some (left.value values) :=
        value?_eq (placed_bounds leftPlaced).1 (by omega)
      have rightThere : right.value? values = some (right.value values) :=
        value?_eq (placed_bounds rightPlaced).1 (by omega)
      rw [extendValues?, leftThere, rightThere]
      exact ih next (nextSize _) enough

/-! ## Values stay -/

/-- What is worked out later comes behind the values that are there. -/
theorem prefix_extendValues (gates : List Gate) (inputs : List Bool) (values : Array Bool) :
    values.toList <+: (extendValues gates inputs values).toList := by
  rw [List.prefix_iff_getElem?]
  intro place inside
  rw [Array.length_toList] at inside
  rw [Array.getElem?_toList, extendValues_getElem? gates inputs inside]
  simp [inside]

theorem Extends.prefix_values (grows : before.Extends later)
    (enough : inputs.length = before.inputs.length) :
    (extendValues before.gateList inputs #[]).toList <+:
      (extendValues later.gateList (inputs ++ more) #[]).toList := by
  obtain ⟨new, gates⟩ := grows.gateList_append
  have same : extendValues before.gateList (inputs ++ more) #[] =
      extendValues before.gateList inputs #[] := by
    apply extendValues_congr
    intro place inside
    rw [← length_inputs, ← enough] at inside
    simp [List.getD_eq_getElem?_getD, List.getElem?_append_left inside]
  rw [gates, extendValues_append, same]
  exact prefix_extendValues _ _ _

theorem WellFormed.keepsValues (wellFormed : later.WellFormed) (grows : before.Extends later) :
    before.KeepsValues later := by
  intro inputs more enough enoughLater
  have gates : later.gates.toList = [] ++ later.gates.toList := rfl
  have supplied : later.gateList.count .input ≤ (inputs ++ more).length := by
    rw [enoughLater, length_inputs]
  refine ⟨extendValues before.gateList inputs #[], extendValues later.gateList (inputs ++ more) #[],
    if_pos enough, ?_, if_pos enoughLater, grows.prefix_values enough,
    wellFormed.extendValues?_eq gates rfl supplied⟩
  rw [size_extendValues, gateList, List.length_map, Array.size_empty, Nat.zero_add]
  rfl

/-- **Derived gates have the values of their names**, as long as there is room for them, and **gates
keep their values** in every circuit that can be built from theirs. -/
theorem built_derives (built : circuit.Built) :
    (∀ derivation left right, circuit.Has left → circuit.Has right →
      circuit.size + derivation.cost < 2 ^ 31 →
        ∃ wire after, circuit.Derives derivation left right wire after) ∧
      ∀ later, BuiltFrom circuit later → circuit.KeepsValues later := by
  constructor
  · intro derivation left right leftHas rightHas room
    obtain ⟨wire, after, made⟩ := exists_makes built.wellFormed derivation leftHas rightHas room
    exact ⟨wire, after, made.derives leftHas rightHas⟩
  · intro later further
    have wellFormed := built.wellFormed.grow further.grows
    exact wellFormed.keepsValues further.grows.extended

/-- A miter of two inputs, and a third input that comes after a disjunction of theirs. -/
theorem derives_miter_then_input : ∃ circuit later : Circuit, circuit.Built ∧
    circuit.inputs = [1, 2] ∧ BuiltFrom circuit later ∧ later.inputs = [1, 2, 4] ∧
      (∃ wire after, circuit.Derives .miter ⟨1, true⟩ ⟨2, false⟩ wire after) ∧
        circuit.KeepsValues later := by
  have grown : ∃ circuit later : Circuit, circuit.Built ∧
      circuit = ⟨#[⟨.input, 0⟩, ⟨.input, 0⟩], #[]⟩ ∧ BuiltFrom circuit later ∧
        later = ⟨#[⟨.input, 0⟩, ⟨.input, 0⟩, ⟨.and ⟨1, true⟩ ⟨2, true⟩, 1⟩, ⟨.input, 0⟩], #[]⟩ :=
    ⟨_, _, .added .input (.added .input .start rfl) rfl, rfl,
      .added .input (.added (.or ⟨1, false⟩ ⟨2, false⟩) .start rfl) rfl, rfl⟩
  obtain ⟨circuit, later, built, rfl, further, rfl⟩ := grown
  obtain ⟨derives, keeps⟩ := built_derives built
  exact ⟨_, _, built, by decide, further, by decide,
    derives .miter ⟨1, true⟩ ⟨2, false⟩ (by decide) (by decide) (by decide), keeps _ further⟩

end Circuit

end DecisionDiagram
