import DecisionDiagram.Proofs.Circuit.Layers
import DecisionDiagram.Proofs.Manager.Questions

/-!
# The functions of gates

A gate stands for a function of the valuations that give the first input the value of variable 1,
the second one that of variable 2, and so on. Inputs stand for variables, gates for the conjunction
of the wires that they read, and a circuit that grows keeps the functions of its gates.
-/

set_option autoImplicit false

namespace DecisionDiagram

namespace Circuit

/-! ## Appending values -/

section

variable {gates more : List Gate} {inputs others : List Bool} {values : Array Bool} {place : Nat}

theorem extendValues_input (gates : List Gate) (inputs : List Bool) (values : Array Bool) :
    extendValues (.input :: gates) inputs values =
      extendValues gates inputs.tail (values.push (inputs.getD 0 false)) := by
  cases inputs <;> rfl

theorem size_extendValues (gates : List Gate) (inputs : List Bool) (values : Array Bool) :
    (extendValues gates inputs values).size = values.size + gates.length := by
  induction gates generalizing inputs values with
  | nil => rfl
  | cons first rest ih =>
    cases first with
    | input =>
      rw [extendValues_input, ih, Array.size_push, List.length_cons]
      omega
    | and left right =>
      rw [extendValues, ih, Array.size_push, List.length_cons]
      omega

/-- The values that are there stay. -/
theorem extendValues_getElem? (gates : List Gate) (inputs : List Bool) (inside : place < values.size) :
    (extendValues gates inputs values)[place]? = values[place]? := by
  induction gates generalizing inputs values with
  | nil => rfl
  | cons first rest ih =>
    cases first with
    | input =>
      rw [extendValues_input, ih _ (by rw [Array.size_push]; omega), Array.getElem?_push,
        if_neg (Nat.ne_of_lt inside)]
    | and left right =>
      rw [extendValues, ih _ (by rw [Array.size_push]; omega), Array.getElem?_push,
        if_neg (Nat.ne_of_lt inside)]

theorem extendValues_append (gates more : List Gate) (inputs : List Bool) (values : Array Bool) :
    extendValues (gates ++ more) inputs values =
      extendValues more (inputs.drop (gates.count .input)) (extendValues gates inputs values) := by
  induction gates generalizing inputs values with
  | nil => rfl
  | cons first rest ih =>
    cases first with
    | input =>
      rw [List.cons_append, extendValues_input, extendValues_input, ih, List.count_cons_self,
        ← List.drop_one, List.drop_drop, Nat.add_comm]
    | and left right =>
      rw [List.cons_append, extendValues, extendValues, ih, List.count_cons_of_ne (by simp)]

/-- Only as many values are taken as there are inputs. -/
theorem extendValues_congr
    (agree : ∀ place < gates.count .input, inputs.getD place false = others.getD place false) :
    extendValues gates inputs values = extendValues gates others values := by
  induction gates generalizing inputs others values with
  | nil => rfl
  | cons first rest ih =>
    cases first with
    | input =>
      rw [List.count_cons_self] at agree
      rw [extendValues_input, extendValues_input, agree 0 (Nat.succ_pos _)]
      apply ih
      intro place inside
      have next := agree (place + 1) (by omega)
      simpa [List.getD_eq_getElem?_getD, List.getElem?_tail] using next
    | and left right =>
      rw [List.count_cons_of_ne (by simp)] at agree
      rw [extendValues, extendValues]
      exact ih agree

theorem extendValues_getD_append (gates more : List Gate) (inputs : List Bool)
    (inside : place < gates.length) :
    (extendValues (gates ++ more) inputs #[]).getD place false =
      (extendValues gates inputs #[]).getD place false := by
  have within : place < (extendValues gates inputs #[]).size := by
    rw [size_extendValues, Array.size_empty, Nat.zero_add]
    exact inside
  rw [extendValues_append, Array.getD_eq_getD_getElem?, extendValues_getElem? more _ within,
    Array.getD_eq_getD_getElem?]

/-- The value of a gate comes from the values of the gates before it. -/
theorem extendValues_getD_length (gates : List Gate) (gate : Gate) (more : List Gate)
    (inputs : List Bool) :
    (extendValues (gates ++ gate :: more) inputs #[]).getD gates.length false =
      match gate with
      | .input => inputs.getD (gates.count .input) false
      | .and left right =>
        left.value (extendValues gates inputs #[]) &&
          right.value (extendValues gates inputs #[]) := by
  have last : (extendValues gates inputs #[]).size = gates.length := by
    rw [size_extendValues, Array.size_empty, Nat.zero_add]
  rw [extendValues_append, Array.getD_eq_getD_getElem?]
  cases gate with
  | input =>
    rw [extendValues_input, extendValues_getElem? more _ (by rw [Array.size_push]; omega),
      ← last, Array.getElem?_push_size]
    simp [List.getD_eq_getElem?_getD]
  | and left right =>
    rw [extendValues, extendValues_getElem? more _ (by rw [Array.size_push]; omega),
      ← last, Array.getElem?_push_size]
    rfl

end

/-! ## Functions -/

def gateList (circuit : Circuit) : List Gate := circuit.gates.toList.map PlacedGate.gate

/-- The function of a gate. -/
def function (circuit : Circuit) (number : Nat) : BoolFunction := fun valuation =>
  (extendValues circuit.gateList (Manager.assignmentOf valuation circuit.inputs.length) #[]).getD
    (number - 1) false

def wireFunction (circuit : Circuit) (wire : Wire) : BoolFunction := fun valuation =>
  circuit.function wire.gate valuation ^^ wire.inverted

variable {circuit before after : Circuit} {number place level : Nat} {placedGate : PlacedGate}
  {left right wire : Wire} {inputs : List Bool} {values : Array Bool} {valuation : Valuation}

theorem wireFunction_invert (circuit : Circuit) (wire : Wire) (valuation : Valuation) :
    circuit.wireFunction wire.invert valuation = !circuit.wireFunction wire valuation := by
  simp [wireFunction, Wire.invert]

theorem length_inputs (circuit : Circuit) :
    circuit.inputs.length = circuit.gateList.count .input := by
  rw [Circuit.inputs, select_eq, length_selectFrom, gateList, List.count, List.countP_map]
  rfl

theorem getD_assignmentOf {count : Nat} (inside : place < count) :
    (Manager.assignmentOf valuation count).getD place false = valuation (place + 1) := by
  simp [Manager.assignmentOf, inside]

/-- Lists that give the inputs the same values lead to the same values. -/
theorem function_eq
    (supplies : ∀ place < circuit.inputs.length, inputs.getD place false = valuation (place + 1)) :
    (extendValues circuit.gateList inputs #[]).getD (number - 1) false =
      circuit.function number valuation := by
  rw [function]
  congr 1
  apply extendValues_congr
  intro place inside
  rw [← length_inputs] at inside
  rw [supplies place inside, getD_assignmentOf inside]

theorem dependsOn_function (circuit : Circuit) (number : Nat) :
    DependsOn (circuit.function number) {var | var ≤ circuit.inputs.length} := by
  intro first second agree
  apply function_eq
  intro place inside
  rw [getD_assignmentOf inside]
  exact agree (place + 1) inside

theorem dependsOn_wireFunction (circuit : Circuit) (wire : Wire) :
    DependsOn (circuit.wireFunction wire) {var | var ≤ circuit.inputs.length} :=
  fun _ _ agree => congrArg (· ^^ wire.inverted) (circuit.dependsOn_function wire.gate agree)

/-- The `k`-th input stands for variable `k`. -/
theorem function_input (found : circuit.inputs[place]? = some number) :
    circuit.function number = fun valuation => valuation (place + 1) := by
  have inside := (List.getElem?_eq_some_iff.mp found).1
  rw [Circuit.inputs, select_eq] at found
  obtain ⟨front, placedGate, back, whole, rfl, isInput, same⟩ := selectFrom_getElem? found
  have gates : circuit.gateList =
      front.map PlacedGate.gate ++ placedGate.gate :: back.map PlacedGate.gate := by
    simp [gateList, whole]
  have counted : (front.map PlacedGate.gate).count .input = place := by
    rw [same, List.count, List.countP_map]
    rfl
  have last : 1 + front.length - 1 = (front.map PlacedGate.gate).length := by simp
  funext valuation
  rw [function, gates, last, extendValues_getD_length, of_decide_eq_true isInput]
  simp only [counted, getD_assignmentOf inside]

/-- A wire that reads an earlier gate has its value before the later gates are worked out. -/
theorem wire_value {front : List Gate} {back : List Gate}
    (gates : circuit.gateList = front ++ back) (inside : wire.gate - 1 < front.length) :
    wire.value (extendValues front (Manager.assignmentOf valuation circuit.inputs.length) #[]) =
      circuit.wireFunction wire valuation := by
  rw [Wire.value, wireFunction, function, gates, extendValues_getD_append _ _ _ inside]

theorem function_and (wellFormed : circuit.WellFormed)
    (known : circuit.placed number = .ok ⟨.and left right, level⟩) :
    circuit.function number = fun valuation =>
      circuit.wireFunction left valuation && circuit.wireFunction right valuation := by
  obtain ⟨_, _, leftPlaced, rightPlaced, leftBefore, rightBefore, _⟩ :=
    wellFormed.and number left right level known
  have leftBound := (placed_bounds leftPlaced).1
  have rightBound := (placed_bounds rightPlaced).1
  obtain ⟨front, back, whole, rfl⟩ := placed_iff_splits.mp known
  have gates : circuit.gateList =
      front.map PlacedGate.gate ++ .and left right :: back.map PlacedGate.gate := by
    simp [gateList, whole]
  have last : 1 + front.length - 1 = (front.map PlacedGate.gate).length := by simp
  funext valuation
  rw [function, gates, last, extendValues_getD_length]
  simp only
  rw [wire_value gates (by rw [List.length_map]; omega),
    wire_value gates (by rw [List.length_map]; omega)]

/-! ## Values and growth -/

/-- Asked for values, a circuit has for each gate the value of its function. -/
theorem eval_spec (enough : inputs.length = circuit.inputs.length) :
    ∃ values, circuit.eval inputs = .ok values ∧ values.size = circuit.size ∧
      ∀ number, 1 ≤ number → number ≤ circuit.size →
        values[number - 1]? = some (circuit.function number (Manager.valuationOf inputs)) := by
  have size : (extendValues circuit.gateList inputs #[]).size = circuit.size := by
    rw [size_extendValues, gateList, List.length_map, Array.size_empty, Nat.zero_add]
    rfl
  refine ⟨extendValues circuit.gateList inputs #[], if_pos enough, size, ?_⟩
  intro number positive inside
  have within : number - 1 < (extendValues circuit.gateList inputs #[]).size := by omega
  have supplies : ∀ place < circuit.inputs.length,
      inputs.getD place false = Manager.valuationOf inputs (place + 1) := fun _ _ => rfl
  rw [← function_eq supplies, Array.getD_eq_getD_getElem?, Array.getElem?_eq_getElem within]
  rfl

theorem length_of_eval (evaluates : circuit.eval inputs = .ok values) :
    inputs.length = circuit.inputs.length := by
  by_contra different
  rw [eval, if_neg different] at evaluates
  cases evaluates

theorem value_of_eval (evaluates : circuit.eval inputs = .ok values)
    (known : ∃ placedGate, circuit.placed wire.gate = .ok placedGate) :
    wire.value values = circuit.wireFunction wire (Manager.valuationOf inputs) := by
  obtain ⟨others, same, _, each⟩ := eval_spec (length_of_eval evaluates)
  cases evaluates.symm.trans same
  obtain ⟨placedGate, placed⟩ := known
  obtain ⟨positive, inside⟩ := placed_bounds placed
  rw [Wire.value, wireFunction, Array.getD_eq_getD_getElem?, each wire.gate positive inside]
  rfl

theorem Extends.gateList_append (grows : before.Extends after) :
    ∃ more, after.gateList = before.gateList ++ more := by
  obtain ⟨more, whole⟩ := grows.gates
  exact ⟨more.map PlacedGate.gate, by simp [gateList, ← whole]⟩

/-- A circuit that grows keeps the functions of its gates. -/
theorem Extends.function_eq (grows : before.Extends after) (inside : number ≤ before.size)
    (positive : 1 ≤ number) : after.function number = before.function number := by
  obtain ⟨more, gates⟩ := grows.gateList_append
  have within : number - 1 < before.gateList.length := by
    rw [gateList, List.length_map, Array.length_toList]
    unfold size at inside
    omega
  have fewer : before.inputs.length ≤ after.inputs.length := by
    rw [length_inputs, length_inputs, gates, List.count_append]
    omega
  funext valuation
  rw [function, gates, extendValues_getD_append _ _ _ within]
  apply Circuit.function_eq
  intro place low
  exact getD_assignmentOf (by omega)

theorem Extends.wireFunction_eq (grows : before.Extends after)
    (known : before.placed wire.gate = .ok placedGate) :
    after.wireFunction wire = before.wireFunction wire := by
  obtain ⟨positive, inside⟩ := placed_bounds known
  funext valuation
  rw [wireFunction, wireFunction, grows.function_eq inside positive]

end Circuit

end DecisionDiagram
