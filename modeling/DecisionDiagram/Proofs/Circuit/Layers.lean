import DecisionDiagram.Proofs.Circuit.Growth

/-!
# Selections of gates

The numbers of the gates that satisfy a condition, in particular of the inputs and of the gates of a
layer. A number is selected exactly when its gate satisfies the condition, and its place among the
selected numbers is the number of such gates before it.
-/

set_option autoImplicit false

namespace DecisionDiagram.Circuit

/-- The numbers of the items that satisfy a condition, counted from `start` on. -/
def selectFrom (condition : PlacedGate → Bool) : Nat → List PlacedGate → List Nat
  | _, [] => []
  | start, first :: rest =>
    if condition first then start :: selectFrom condition (start + 1) rest
    else selectFrom condition (start + 1) rest

/-- The gates of a level. -/
def layer (circuit : Circuit) (level : Nat) : List Nat :=
  circuit.select fun placed => placed.level = level

/-- The number of layers. -/
def depth (circuit : Circuit) : Nat :=
  circuit.gates.foldl (fun depth placed => max depth (placed.level + 1)) 0

variable {circuit : Circuit} {condition : PlacedGate → Bool} {number place : Nat}
  {placedGate : PlacedGate}

theorem selectFrom_eq (condition : PlacedGate → Bool) (start : Nat) (items : List PlacedGate) :
    ((List.range' start items.length).zip items).filterMap
      (fun (number, placed) => if condition placed then some number else none) =
        selectFrom condition start items := by
  induction items generalizing start with
  | nil => rfl
  | cons first rest ih =>
    rw [List.length_cons, List.range'_succ, List.zip_cons_cons, List.filterMap_cons, ih, selectFrom]
    by_cases holds : condition first <;> simp [holds]

theorem select_eq (circuit : Circuit) (condition : PlacedGate → Bool) :
    circuit.select condition = selectFrom condition 1 circuit.gates.toList :=
  selectFrom_eq condition 1 circuit.gates.toList

theorem length_selectFrom (condition : PlacedGate → Bool) (start : Nat) (items : List PlacedGate) :
    (selectFrom condition start items).length = items.countP condition := by
  induction items generalizing start with
  | nil => rfl
  | cons first rest ih =>
    rw [selectFrom, List.countP_cons]
    split <;> simp [ih]

/-- A selected number splits the items. -/
theorem selectFrom_getElem? {start : Nat} {items : List PlacedGate}
    (found : (selectFrom condition start items)[place]? = some number) :
    ∃ front placedGate back, items = front ++ placedGate :: back ∧
      number = start + front.length ∧ condition placedGate ∧ place = front.countP condition := by
  induction items generalizing start place with
  | nil => cases found
  | cons first rest ih =>
    rw [selectFrom] at found
    cases holds : condition first with
    | true =>
      rw [holds, if_pos rfl] at found
      cases place with
      | zero =>
        cases found
        exact ⟨[], first, rest, rfl, rfl, holds, rfl⟩
      | succ place =>
        rw [List.getElem?_cons_succ] at found
        obtain ⟨front, placedGate, back, rfl, rfl, satisfied, rfl⟩ := ih found
        refine ⟨first :: front, placedGate, back, rfl, ?_, satisfied, ?_⟩
        · simp only [List.length_cons]
          omega
        · simp [holds]
    | false =>
      rw [holds, if_neg Bool.false_ne_true] at found
      obtain ⟨front, placedGate, back, rfl, rfl, satisfied, rfl⟩ := ih found
      refine ⟨first :: front, placedGate, back, rfl, ?_, satisfied, ?_⟩
      · simp only [List.length_cons]
        omega
      · simp [holds]

theorem mem_selectFrom {start : Nat} {front back : List PlacedGate}
    (satisfied : condition placedGate) :
    start + front.length ∈ selectFrom condition start (front ++ placedGate :: back) := by
  induction front generalizing start with
  | nil => simp [selectFrom, satisfied]
  | cons first rest ih =>
    have member := @ih (start + 1)
    rw [Nat.add_assoc, Nat.add_comm 1] at member
    rw [List.cons_append, selectFrom, List.length_cons]
    split
    · exact List.mem_cons_of_mem _ member
    · exact member

/-! ## Gates and their places -/

theorem placed_iff_splits : circuit.placed number = .ok placedGate ↔
    ∃ front back, circuit.gates.toList = front ++ placedGate :: back ∧ number = 1 + front.length := by
  rw [placed_eq_ok_iff, ← Array.getElem?_toList]
  constructor
  · intro known
    obtain ⟨nonzero, found⟩ := known
    obtain ⟨inside, value⟩ := List.getElem?_eq_some_iff.mp found
    refine ⟨circuit.gates.toList.take (number - 1), circuit.gates.toList.drop (number - 1 + 1), ?_, ?_⟩
    · rw [← value, List.getElem_cons_drop, List.take_append_drop]
    · rw [List.length_take]
      omega
  · intro splits
    obtain ⟨front, back, whole, rfl⟩ := splits
    exact ⟨by omega, by simp [whole]⟩

theorem mem_select_iff : number ∈ circuit.select condition ↔
    ∃ placedGate, circuit.placed number = .ok placedGate ∧ condition placedGate := by
  rw [select_eq]
  constructor
  · intro member
    obtain ⟨place, found⟩ := List.getElem?_of_mem member
    obtain ⟨front, placedGate, back, whole, rfl, satisfied, _⟩ := selectFrom_getElem? found
    exact ⟨placedGate, placed_iff_splits.mpr ⟨front, back, whole, rfl⟩, satisfied⟩
  · intro satisfied
    obtain ⟨placedGate, known, holds⟩ := satisfied
    obtain ⟨front, back, whole, rfl⟩ := placed_iff_splits.mp known
    rw [whole]
    exact mem_selectFrom holds

theorem mem_layer_iff {level : Nat} : number ∈ circuit.layer level ↔
    ∃ placedGate, circuit.placed number = .ok placedGate ∧ placedGate.level = level := by
  simp only [layer, mem_select_iff, decide_eq_true_eq]

/-! ## Layers -/

theorem layers_eq (circuit : Circuit) :
    circuit.layers = (List.range circuit.depth).map circuit.layer := rfl

/-- All layers but the lowest. -/
theorem layers_drop_one (circuit : Circuit) :
    circuit.layers.drop 1 = (List.range' 1 (circuit.depth - 1)).map circuit.layer := by
  rw [layers_eq, ← List.map_drop, List.range_eq_range', List.drop_range']

theorem lt_foldl_level {items : List PlacedGate} {start : Nat}
    (within : placedGate.level < start ∨ placedGate ∈ items) :
    placedGate.level < items.foldl (fun depth placed => max depth (placed.level + 1)) start := by
  induction items generalizing start with
  | nil => exact within.resolve_right List.not_mem_nil
  | cons first rest ih =>
    rw [List.foldl_cons]
    apply ih
    rcases within with below | member
    · exact Or.inl (Nat.lt_of_lt_of_le below (Nat.le_max_left _ _))
    · rcases List.mem_cons.mp member with rfl | later
      · exact Or.inl (Nat.lt_of_lt_of_le (Nat.lt_succ_self _) (Nat.le_max_right _ _))
      · exact Or.inr later

theorem level_lt_depth (known : circuit.placed number = .ok placedGate) :
    placedGate.level < circuit.depth := by
  obtain ⟨front, back, whole, _⟩ := placed_iff_splits.mp known
  rw [depth, ← Array.foldl_toList]
  apply lt_foldl_level
  simp [whole]

end DecisionDiagram.Circuit
