import DecisionDiagram.Circuit.Eval
import DecisionDiagram.Proofs.Action
import Mathlib.Logic.Relation

/-!
# How circuits grow

Whatever is added, a circuit changes by single steps: an input, a gate over wires of gates that are
there, or an output of a gate that is there. So gates and outputs keep their places, the gates that
a gate reads come before it, and levels are as `WellFormed` says.
-/

set_option autoImplicit false

namespace DecisionDiagram

/-- What can be added to a circuit. -/
inductive Addition where
  | input
  | and (left right : Wire)
  | or (left right : Wire)
  | xor (left right : Wire)
  | miter (first second : Wire)
  | output (wire : Wire)

def Addition.perform : Addition → Circuit.Action Unit
  | input => do let _ ← Circuit.addInput
  | and left right => do let _ ← Circuit.addAnd left right
  | or left right => do let _ ← Circuit.addOr left right
  | xor left right => do let _ ← Circuit.addXor left right
  | miter first second => do let _ ← Circuit.addMiter first second
  | output wire => Circuit.addOutput wire

namespace Circuit

/-- What a circuit may become by additions that succeed. -/
inductive BuiltFrom (start : Circuit) : Circuit → Prop
  | start : BuiltFrom start start
  | added {middle after : Circuit} (addition : Addition) : BuiltFrom start middle →
      addition.perform middle = .ok () after → BuiltFrom start after

def Built (circuit : Circuit) : Prop := BuiltFrom .empty circuit

def withGate (circuit : Circuit) (gate : Gate) (level : Nat) : Circuit :=
  { circuit with gates := circuit.gates.push ⟨gate, level⟩ }

def withOutput (circuit : Circuit) (wire : Wire) : Circuit :=
  { circuit with outputs := circuit.outputs.push wire }

/-- The wire of the gate that is added next. -/
def nextWire (circuit : Circuit) : Wire := ⟨(circuit.size + 1) % 2147483648, false⟩

/-- One more gate: the conjunction of two wires. -/
inductive Conjoins (circuit : Circuit) (left right : Wire) : Circuit → Prop
  | placed {onLeft onRight : PlacedGate} : circuit.placed left.gate = .ok onLeft →
      circuit.placed right.gate = .ok onRight →
        Conjoins circuit left right
          (circuit.withGate (.and left right) (1 + max onLeft.level onRight.level))

inductive Step (circuit : Circuit) : Circuit → Prop
  | input : Step circuit (circuit.withGate .input 0)
  | and {left right : Wire} {after : Circuit} : circuit.Conjoins left right after →
      Step circuit after
  | output {wire : Wire} {placed : PlacedGate} : circuit.placed wire.gate = .ok placed →
      Step circuit (circuit.withOutput wire)

abbrev Grows : Circuit → Circuit → Prop := Relation.ReflTransGen Step

/-- Gates and outputs keep their places. -/
structure Extends (before after : Circuit) : Prop where
  gates : before.gates.toList <+: after.gates.toList
  outputs : before.outputs.toList <+: after.outputs.toList

/-- Inputs are at the bottom, a gate is one level above the higher one of the two gates that it
reads, and both of them come before it. -/
structure WellFormed (circuit : Circuit) : Prop where
  input : ∀ number level, circuit.placed number = .ok ⟨.input, level⟩ → level = 0
  and : ∀ number left right level, circuit.placed number = .ok ⟨.and left right, level⟩ →
    ∃ onLeft onRight, circuit.placed left.gate = .ok onLeft ∧
      circuit.placed right.gate = .ok onRight ∧ left.gate < number ∧ right.gate < number ∧
        level = 1 + max onLeft.level onRight.level
  output : ∀ wire ∈ circuit.outputs, ∃ placed, circuit.placed wire.gate = .ok placed

variable {circuit before middle after : Circuit} {number level : Nat} {gate : Gate}
  {placedGate : PlacedGate} {left right wire : Wire}

/-! ## Gates by number -/

theorem placed_eq_ok_iff : circuit.placed number = .ok placedGate ↔
    number ≠ 0 ∧ circuit.gates[number - 1]? = some placedGate := by
  unfold placed
  by_cases zero : number = 0
  · simp [zero]
  · cases found : circuit.gates[number - 1]? <;> simp [zero]

theorem placed_bounds (known : circuit.placed number = .ok placedGate) :
    1 ≤ number ∧ number ≤ circuit.size := by
  obtain ⟨nonzero, found⟩ := placed_eq_ok_iff.mp known
  obtain ⟨inside, _⟩ := Array.getElem?_eq_some_iff.mp found
  unfold size
  omega

theorem exists_placed (positive : 1 ≤ number) (inside : number ≤ circuit.size) :
    ∃ placedGate, circuit.placed number = .ok placedGate := by
  have place : number - 1 < circuit.gates.size := by
    unfold size at inside
    omega
  exact ⟨_, placed_eq_ok_iff.mpr ⟨by omega, Array.getElem?_eq_getElem place⟩⟩

/-- The wire leads out of a gate that is there. -/
def Has (circuit : Circuit) (wire : Wire) : Prop := 1 ≤ wire.gate ∧ wire.gate ≤ circuit.size

instance (circuit : Circuit) (wire : Wire) : Decidable (circuit.Has wire) :=
  inferInstanceAs (Decidable (_ ∧ _))

theorem has_iff : circuit.Has wire ↔ ∃ placedGate, circuit.placed wire.gate = .ok placedGate := by
  constructor
  · intro has
    exact exists_placed has.1 has.2
  · intro known
    obtain ⟨placedGate, placed⟩ := known
    exact placed_bounds placed

theorem size_withGate : (circuit.withGate gate level).size = circuit.size + 1 :=
  Array.size_push _

theorem placed_withGate_iff : (circuit.withGate gate level).placed number = .ok placedGate ↔
    circuit.placed number = .ok placedGate ∨
      number = circuit.size + 1 ∧ placedGate = ⟨gate, level⟩ := by
  simp only [placed_eq_ok_iff, withGate, Array.getElem?_push, size]
  by_cases last : number = circuit.gates.size + 1
  · simp [last, eq_comm]
  · by_cases zero : number = 0
    · simp [zero]
    · have other : number - 1 ≠ circuit.gates.size := by omega
      simp [last, zero, other]

/-! ## Gates and outputs keep their places -/

theorem getElem?_of_isPrefix {Item : Type} {short long : List Item} {place : Nat} {item : Item}
    (begins : short <+: long) (found : short[place]? = some item) : long[place]? = some item := by
  obtain ⟨more, rfl⟩ := begins
  rw [List.getElem?_append_left (List.getElem?_eq_some_iff.mp found).1]
  exact found

namespace Extends

theorem refl (circuit : Circuit) : circuit.Extends circuit :=
  ⟨List.prefix_rfl, List.prefix_rfl⟩

theorem trans (first : before.Extends middle) (second : middle.Extends after) :
    before.Extends after :=
  ⟨first.gates.trans second.gates, first.outputs.trans second.outputs⟩

theorem placed_eq_ok (grows : before.Extends after)
    (known : before.placed number = .ok placedGate) : after.placed number = .ok placedGate := by
  obtain ⟨nonzero, found⟩ := placed_eq_ok_iff.mp known
  refine placed_eq_ok_iff.mpr ⟨nonzero, ?_⟩
  rw [← Array.getElem?_toList] at found ⊢
  exact getElem?_of_isPrefix grows.gates found

theorem output (grows : before.Extends after) {place : Nat}
    (found : before.outputs[place]? = some wire) : after.outputs[place]? = some wire := by
  rw [← Array.getElem?_toList] at found ⊢
  exact getElem?_of_isPrefix grows.outputs found

end Extends

theorem Step.extended (step : Step before after) : before.Extends after := by
  cases step with
  | input => exact ⟨⟨[_], by simp [withGate]; rfl⟩, List.prefix_rfl⟩
  | and conjoins =>
    cases conjoins
    exact ⟨⟨[_], by simp [withGate]; rfl⟩, List.prefix_rfl⟩
  | output => exact ⟨List.prefix_rfl, ⟨[_], by simp [withOutput]; rfl⟩⟩

theorem Grows.extended (grows : Grows before after) : before.Extends after := by
  induction grows with
  | refl => exact .refl before
  | tail _ step ih => exact ih.trans step.extended

/-! ## Circuits are well formed -/

theorem wellFormed_empty : WellFormed .empty where
  input := by simp [placed_eq_ok_iff, empty]
  and := by simp [placed_eq_ok_iff, empty]
  output := by simp [empty]

theorem WellFormed.withGate (wellFormed : circuit.WellFormed)
    (input : gate = .input → level = 0)
    (and : ∀ left right, gate = .and left right → ∃ onLeft onRight,
      circuit.placed left.gate = .ok onLeft ∧ circuit.placed right.gate = .ok onRight ∧
        level = 1 + max onLeft.level onRight.level) :
    (circuit.withGate gate level).WellFormed where
  input number other known := by
    rcases placed_withGate_iff.mp known with old | ⟨_, new⟩
    · exact wellFormed.input number other old
    · cases new
      exact input rfl
  and number left right other known := by
    rcases placed_withGate_iff.mp known with old | ⟨last, new⟩
    · obtain ⟨onLeft, onRight, leftPlaced, rightPlaced, rest⟩ :=
        wellFormed.and number left right other old
      exact ⟨onLeft, onRight, placed_withGate_iff.mpr (Or.inl leftPlaced),
        placed_withGate_iff.mpr (Or.inl rightPlaced), rest⟩
    · cases new
      obtain ⟨onLeft, onRight, leftPlaced, rightPlaced, above⟩ := and left right rfl
      have leftBound := (placed_bounds leftPlaced).2
      have rightBound := (placed_bounds rightPlaced).2
      exact ⟨onLeft, onRight, placed_withGate_iff.mpr (Or.inl leftPlaced),
        placed_withGate_iff.mpr (Or.inl rightPlaced), by omega, by omega, above⟩
  output wire member := by
    obtain ⟨placedGate, known⟩ := wellFormed.output wire member
    exact ⟨placedGate, placed_withGate_iff.mpr (Or.inl known)⟩

theorem WellFormed.step (wellFormed : before.WellFormed) (step : Step before after) :
    after.WellFormed := by
  cases step with
  | input => exact wellFormed.withGate (fun _ => rfl) fun _ _ same => nomatch same
  | and conjoins =>
    cases conjoins with
    | placed leftPlaced rightPlaced =>
      refine wellFormed.withGate (fun same => nomatch same) fun left right same => ?_
      cases same
      exact ⟨_, _, leftPlaced, rightPlaced, rfl⟩
  | @output wire placedGate known =>
    refine { wellFormed with output := fun other member => ?_ }
    rcases Array.mem_push.mp member with old | rfl
    · exact wellFormed.output other old
    · exact ⟨placedGate, known⟩

theorem WellFormed.grow (wellFormed : before.WellFormed) (grows : Grows before after) :
    after.WellFormed := by
  induction grows with
  | refl => exact wellFormed
  | tail _ step ih => exact ih.step step

/-! ## Additions are steps -/

theorem push_eq_ok (gate : Gate) (level : Nat) (circuit : Circuit) :
    push gate level circuit = .ok circuit.nextWire (circuit.withGate gate level) := by
  have nonzero : (circuit.withGate gate level).size ≠ 0 := by
    rw [size_withGate]
    exact Nat.succ_ne_zero _
  have made : Wire.ofGate (circuit.withGate gate level).size false = .ok circuit.nextWire := by
    rw [Wire.ofGate, if_neg nonzero, size_withGate]
    rfl
  exact read_ok made (circuit.withGate gate level)

theorem level_eq_ok (answer : circuit.level number = .ok level) :
    ∃ placedGate, circuit.placed number = .ok placedGate ∧ placedGate.level = level := by
  unfold Circuit.level at answer
  cases known : circuit.placed number with
  | ok placedGate =>
    rw [known] at answer
    exact ⟨placedGate, rfl, Except.ok.inj answer⟩
  | error fault =>
    rw [known] at answer
    cases answer

theorem addAnd_eq_ok (run : addAnd left right before = .ok wire after) :
    before.Conjoins left right after ∧ wire = before.nextWire := by
  unfold addAnd at run
  obtain ⟨leftLevel, leftAnswer, run⟩ := read_bind_eq_ok (get_bind_eq_ok run)
  obtain ⟨rightLevel, rightAnswer, run⟩ := read_bind_eq_ok (get_bind_eq_ok run)
  rw [push_eq_ok] at run
  cases run
  obtain ⟨onLeft, leftPlaced, rfl⟩ := level_eq_ok leftAnswer
  obtain ⟨onRight, rightPlaced, rfl⟩ := level_eq_ok rightAnswer
  exact ⟨.placed leftPlaced rightPlaced, rfl⟩

theorem addOr_eq_ok (run : addOr left right before = .ok wire after) :
    before.Conjoins left.invert right.invert after ∧ wire = before.nextWire.invert := by
  obtain ⟨_, _, adds, rest⟩ := bind_eq_ok run
  cases rest
  obtain ⟨conjoins, rfl⟩ := addAnd_eq_ok adds
  exact ⟨conjoins, rfl⟩

/-- Exclusive or takes three conjunctions. -/
theorem addXor_eq_ok (run : addXor left right before = .ok wire after) :
    ∃ first second, before.Conjoins left right.invert first ∧
      first.Conjoins left.invert right second ∧
        second.Conjoins before.nextWire.invert first.nextWire.invert after ∧
          wire = second.nextWire.invert := by
  obtain ⟨_, first, onlyLeft, run⟩ := bind_eq_ok run
  obtain ⟨_, second, onlyRight, run⟩ := bind_eq_ok run
  obtain ⟨onFirst, rfl⟩ := addAnd_eq_ok onlyLeft
  obtain ⟨onSecond, rfl⟩ := addAnd_eq_ok onlyRight
  exact ⟨first, second, onFirst, onSecond, addOr_eq_ok run⟩

theorem addOutput_eq_ok (run : addOutput wire before = .ok () after) :
    ∃ placedGate, before.placed wire.gate = .ok placedGate ∧ after = before.withOutput wire := by
  unfold addOutput at run
  obtain ⟨placedGate, known, run⟩ := read_bind_eq_ok (get_bind_eq_ok run)
  cases run
  exact ⟨placedGate, known, rfl⟩

theorem addMiter_eq_ok (run : addMiter left right before = .ok wire after) :
    ∃ middle placedGate, addXor left right before = .ok wire middle ∧
      middle.placed wire.gate = .ok placedGate ∧ after = middle.withOutput wire := by
  obtain ⟨_, middle, adds, run⟩ := bind_eq_ok run
  obtain ⟨_, _, outputs, run⟩ := bind_eq_ok run
  cases run
  obtain ⟨placedGate, known, rfl⟩ := addOutput_eq_ok outputs
  exact ⟨middle, placedGate, adds, known, rfl⟩

theorem addXor_grows (run : addXor left right before = .ok wire after) : Grows before after := by
  obtain ⟨_, _, onFirst, onSecond, onBoth, _⟩ := addXor_eq_ok run
  exact ((Relation.ReflTransGen.single (.and onFirst)).tail (.and onSecond)).tail (.and onBoth)

theorem addMiter_grows (run : addMiter left right before = .ok wire after) :
    Grows before after := by
  obtain ⟨_, _, adds, known, rfl⟩ := addMiter_eq_ok run
  exact (addXor_grows adds).tail (.output known)

theorem discard_eq_ok {Result : Type} {action : Action Result}
    (run : (action >>= fun _ => pure ()) before = .ok () after) :
    ∃ result, action before = .ok result after := by
  obtain ⟨result, _, acts, rest⟩ := bind_eq_ok run
  cases rest
  exact ⟨result, acts⟩

theorem perform_grows {addition : Addition} (run : addition.perform before = .ok () after) :
    Grows before after := by
  cases addition with
  | input =>
    obtain ⟨_, adds⟩ := discard_eq_ok run
    rw [addInput, push_eq_ok] at adds
    cases adds
    exact .single .input
  | and left right =>
    obtain ⟨_, adds⟩ := discard_eq_ok run
    exact .single (.and (addAnd_eq_ok adds).1)
  | or left right =>
    obtain ⟨_, adds⟩ := discard_eq_ok run
    exact .single (.and (addOr_eq_ok adds).1)
  | xor left right =>
    obtain ⟨_, adds⟩ := discard_eq_ok run
    exact addXor_grows adds
  | miter first second =>
    obtain ⟨_, adds⟩ := discard_eq_ok run
    exact addMiter_grows adds
  | output wire =>
    obtain ⟨_, known, rfl⟩ := addOutput_eq_ok run
    exact .single (.output known)

theorem BuiltFrom.grows (built : BuiltFrom before after) : Grows before after := by
  induction built with
  | start => exact .refl
  | added addition _ run ih => exact ih.trans (perform_grows run)

theorem Built.wellFormed (built : circuit.Built) : circuit.WellFormed :=
  wellFormed_empty.grow (BuiltFrom.grows built)

end Circuit

end DecisionDiagram
