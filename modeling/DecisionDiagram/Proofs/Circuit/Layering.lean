import DecisionDiagram.Proofs.Circuit.Layers
import Mathlib.Data.List.Nodup

/-!
# Layers partition a circuit

Every gate stands in exactly one layer. Going down from a gate of a level, one meets a gate of every
lower level, so no layer is empty, and a gate reads lower layers only, among them the one just below.
-/

set_option autoImplicit false

namespace DecisionDiagram.Circuit

variable {circuit : Circuit} {condition other : PlacedGate → Bool} {number level start : Nat}
  {items : List PlacedGate} {placedGate : PlacedGate}

/-- A layer that is there holds the number. -/
def StandsIn (circuit : Circuit) (number level : Nat) : Prop :=
  ∃ layer, circuit.layers[level]? = some layer ∧ number ∈ layer

/-- Layers hold every number once, in increasing order. The lowest one holds the inputs. The others
hold gates over lower layers, at least one of them just below. -/
structure Layered (circuit : Circuit) : Prop where
  partition : circuit.layers.flatten.Perm circuit.numbers
  increasing : ∀ layer ∈ circuit.layers, layer.Pairwise (· < ·)
  nonempty : ∀ layer ∈ circuit.layers, layer ≠ []
  bottom : circuit.layers.headD [] = circuit.inputs
  descends : ∀ number level, 0 < level → circuit.StandsIn number level →
    ∃ left right, circuit.gate number = .ok (.and left right) ∧
      (∃ below < level, circuit.StandsIn left.gate below) ∧
      (∃ below < level, circuit.StandsIn right.gate below) ∧
      (circuit.StandsIn left.gate (level - 1) ∨ circuit.StandsIn right.gate (level - 1))

/-! ## Selections are increasing -/

theorem selectFrom_sublist (condition : PlacedGate → Bool) (start : Nat) (items : List PlacedGate) :
    (selectFrom condition start items).Sublist (List.range' start items.length) := by
  induction items generalizing start with
  | nil => exact List.Sublist.slnil
  | cons first rest ih =>
    rw [List.length_cons, List.range'_succ, selectFrom]
    split
    · exact (ih (start + 1)).cons_cons start
    · exact (ih (start + 1)).cons start

theorem selectFrom_congr (agree : ∀ placed ∈ items, condition placed = other placed) :
    selectFrom condition start items = selectFrom other start items := by
  induction items generalizing start with
  | nil => rfl
  | cons first rest ih =>
    simp only [List.forall_mem_cons] at agree
    simp only [selectFrom, agree.1, ih agree.2]

theorem pairwise_select (circuit : Circuit) (condition : PlacedGate → Bool) :
    (circuit.select condition).Pairwise (· < ·) := by
  rw [select_eq]
  exact List.Pairwise.sublist (selectFrom_sublist condition 1 _) List.pairwise_lt_range'

theorem nodup_layer (circuit : Circuit) (level : Nat) : (circuit.layer level).Nodup :=
  (circuit.pairwise_select _).imp Nat.ne_of_lt

theorem placed_of_mem (member : placedGate ∈ circuit.gates.toList) :
    ∃ number, circuit.placed number = .ok placedGate := by
  obtain ⟨front, back, whole⟩ := List.append_of_mem member
  exact ⟨_, placed_iff_splits.mpr ⟨front, back, whole, rfl⟩⟩

/-! ## Each gate has one layer -/

theorem layers_getElem? (inside : level < circuit.depth) :
    circuit.layers[level]? = some (circuit.layer level) := by
  simp [layers_eq, inside]

theorem standsIn_iff : circuit.StandsIn number level ↔
    ∃ placedGate, circuit.placed number = .ok placedGate ∧ placedGate.level = level := by
  constructor
  · intro stands
    obtain ⟨layer, found, member⟩ := stands
    obtain ⟨inside, rfl⟩ := List.getElem?_eq_some_iff.mp found
    simp only [layers_eq, List.getElem_map, List.getElem_range] at member
    exact mem_layer_iff.mp member
  · intro known
    have inside : level < circuit.depth := by
      obtain ⟨placedGate, placed, rfl⟩ := known
      exact level_lt_depth placed
    exact ⟨circuit.layer level, layers_getElem? inside, mem_layer_iff.mpr known⟩

theorem mem_flatten_layers_iff : number ∈ circuit.layers.flatten ↔ number ∈ circuit.numbers := by
  have numbered : number ∈ circuit.numbers ↔ 1 ≤ number ∧ number ≤ circuit.size := by
    simp only [numbers, List.mem_range'_1]
    omega
  rw [numbered, layers_eq, List.mem_flatten]
  constructor
  · intro member
    obtain ⟨layer, isLayer, member⟩ := member
    obtain ⟨level, _, rfl⟩ := List.mem_map.mp isLayer
    obtain ⟨placedGate, known, _⟩ := mem_layer_iff.mp member
    exact placed_bounds known
  · intro bounds
    obtain ⟨placedGate, known⟩ := exists_placed bounds.1 bounds.2
    have inside := List.mem_range.mpr (level_lt_depth known)
    exact ⟨_, List.mem_map_of_mem inside, mem_layer_iff.mpr ⟨placedGate, known, rfl⟩⟩

theorem disjoint_layers {first second : Nat} (different : first ≠ second) :
    List.Disjoint (circuit.layer first) (circuit.layer second) := by
  intro number onFirst onSecond
  obtain ⟨placedGate, known, rfl⟩ := mem_layer_iff.mp onFirst
  obtain ⟨same, sameKnown, rfl⟩ := mem_layer_iff.mp onSecond
  rw [known] at sameKnown
  cases sameKnown
  exact different rfl

theorem nodup_flatten_layers (circuit : Circuit) : circuit.layers.flatten.Nodup := by
  rw [layers_eq, List.nodup_flatten]
  constructor
  · intro layer isLayer
    obtain ⟨level, _, rfl⟩ := List.mem_map.mp isLayer
    exact circuit.nodup_layer level
  · rw [List.pairwise_map]
    exact List.Pairwise.imp disjoint_layers List.nodup_range

theorem flatten_layers_perm (circuit : Circuit) : circuit.layers.flatten.Perm circuit.numbers :=
  (List.perm_ext_iff_of_nodup circuit.nodup_flatten_layers List.nodup_range').mpr
    fun _ => mem_flatten_layers_iff

/-! ## No level is left out -/

theorem exists_level_ge
    (inside : level < items.foldl (fun depth placed => max depth (placed.level + 1)) start) :
    level < start ∨ ∃ placed ∈ items, level ≤ placed.level := by
  induction items generalizing start with
  | nil => exact Or.inl inside
  | cons first rest ih =>
    rcases ih inside with below | ⟨placed, member, above⟩
    · have within : level < max start (first.level + 1) := below
      by_cases high : level ≤ first.level
      · exact Or.inr ⟨first, List.mem_cons_self, high⟩
      · exact Or.inl (by omega)
    · exact Or.inr ⟨placed, List.mem_cons_of_mem _ member, above⟩

/-- A gate above the inputs reads two lower gates, one of them on the level just below. -/
theorem WellFormed.below (wellFormed : circuit.WellFormed)
    (known : circuit.placed number = .ok placedGate) (above : 0 < placedGate.level) :
    ∃ left right onLeft onRight, placedGate.gate = .and left right ∧
      circuit.placed left.gate = .ok onLeft ∧ circuit.placed right.gate = .ok onRight ∧
        placedGate.level = 1 + max onLeft.level onRight.level := by
  obtain ⟨gate, level⟩ := placedGate
  cases gate with
  | input =>
    have bottom := wellFormed.input number level known
    simp only [bottom, Nat.lt_irrefl] at above
  | and left right =>
    obtain ⟨onLeft, onRight, leftPlaced, rightPlaced, _, _, height⟩ :=
      wellFormed.and number left right level known
    exact ⟨left, right, onLeft, onRight, rfl, leftPlaced, rightPlaced, height⟩

/-- Below a gate there are gates of all lower levels. -/
theorem WellFormed.exists_level (wellFormed : circuit.WellFormed)
    (known : circuit.placed number = .ok placedGate) (low : level ≤ placedGate.level) :
    ∃ number placedGate, circuit.placed number = .ok placedGate ∧ placedGate.level = level := by
  -- the higher one of the two gates below is one level lower, and not yet below the level sought
  induction height : placedGate.level - level generalizing number placedGate with
  | zero => exact ⟨number, placedGate, known, by omega⟩
  | succ height ih =>
    obtain ⟨left, right, onLeft, onRight, _, leftPlaced, rightPlaced, above⟩ :=
      wellFormed.below known (by omega)
    rcases Nat.le_total onRight.level onLeft.level with leftHigher | rightHigher
    · exact ih leftPlaced (by omega) (by omega)
    · exact ih rightPlaced (by omega) (by omega)

theorem WellFormed.layer_ne_nil (wellFormed : circuit.WellFormed) (inside : level < circuit.depth) :
    circuit.layer level ≠ [] := by
  rw [depth, ← Array.foldl_toList] at inside
  rcases exists_level_ge inside with none | ⟨placedGate, member, low⟩
  · exact absurd none (Nat.not_lt_zero level)
  · obtain ⟨_, known⟩ := placed_of_mem member
    obtain ⟨number, onLevel, found, same⟩ := wellFormed.exists_level known low
    exact List.ne_nil_of_mem (mem_layer_iff.mpr ⟨onLevel, found, same⟩)

theorem WellFormed.level_eq_zero_iff (wellFormed : circuit.WellFormed)
    (known : circuit.placed number = .ok placedGate) :
    placedGate.level = 0 ↔ placedGate.gate = .input := by
  constructor
  · intro bottom
    obtain ⟨gate, level⟩ := placedGate
    cases gate with
    | input => rfl
    | and left right =>
      obtain ⟨_, _, _, _, _, _, height⟩ := wellFormed.and number left right level known
      simp only at bottom
      omega
  · intro isInput
    obtain ⟨gate, level⟩ := placedGate
    cases isInput
    exact wellFormed.input number level known

theorem WellFormed.layer_zero (wellFormed : circuit.WellFormed) :
    circuit.layer 0 = circuit.inputs := by
  rw [layer, inputs, select_eq, select_eq]
  apply selectFrom_congr
  intro placedGate member
  obtain ⟨number, known⟩ := placed_of_mem member
  exact decide_eq_decide.mpr (wellFormed.level_eq_zero_iff known)

theorem WellFormed.layers_headD (wellFormed : circuit.WellFormed) :
    circuit.layers.headD [] = circuit.inputs := by
  rw [← wellFormed.layer_zero, layers_eq]
  cases deep : circuit.depth with
  | succ depth => simp [List.range_succ_eq_map]
  | zero =>
    -- without a layer there is no gate that could stand in one
    refine (List.eq_nil_iff_forall_not_mem.mpr fun number member => ?_).symm
    obtain ⟨placedGate, known, _⟩ := mem_layer_iff.mp member
    have inside := level_lt_depth known
    omega

theorem WellFormed.layered (wellFormed : circuit.WellFormed) : circuit.Layered where
  partition := circuit.flatten_layers_perm
  increasing layer isLayer := by
    obtain ⟨level, _, rfl⟩ := List.mem_map.mp isLayer
    exact circuit.pairwise_select _
  nonempty layer isLayer := by
    obtain ⟨level, inside, rfl⟩ := List.mem_map.mp isLayer
    exact wellFormed.layer_ne_nil (List.mem_range.mp inside)
  bottom := wellFormed.layers_headD
  descends number level above stands := by
    obtain ⟨placedGate, known, rfl⟩ := standsIn_iff.mp stands
    obtain ⟨left, right, onLeft, onRight, isAnd, leftPlaced, rightPlaced, height⟩ :=
      wellFormed.below known above
    have leftStands := standsIn_iff.mpr ⟨onLeft, leftPlaced, rfl⟩
    have rightStands := standsIn_iff.mpr ⟨onRight, rightPlaced, rfl⟩
    refine ⟨left, right, ?_, ⟨_, by omega, leftStands⟩, ⟨_, by omega, rightStands⟩, ?_⟩
    · rw [gate, known, ← isAnd]
      rfl
    · rcases Nat.le_total onRight.level onLeft.level with leftHigher | rightHigher
      · left
        rwa [height, Nat.max_eq_left leftHigher, Nat.add_sub_cancel_left]
      · right
        rwa [height, Nat.max_eq_right rightHigher, Nat.add_sub_cancel_left]

/-- **Layers partition every circuit** that can be built. -/
theorem built_layered (built : circuit.Built) : circuit.Layered :=
  built.wellFormed.layered

/-- The second input comes after two gates, and a miter compares it with the higher one. -/
theorem layered_late_input : ∃ circuit : Circuit, circuit.Built ∧
    circuit.layers = [[1, 4], [2], [3], [5, 6], [7]] ∧ circuit.Layered := by
  have built : ∃ circuit : Circuit, circuit.Built ∧ circuit = ⟨#[⟨.input, 0⟩,
      ⟨.and ⟨1, false⟩ ⟨1, true⟩, 1⟩, ⟨.and ⟨2, true⟩ ⟨1, false⟩, 2⟩, ⟨.input, 0⟩,
      ⟨.and ⟨3, false⟩ ⟨4, true⟩, 3⟩, ⟨.and ⟨3, true⟩ ⟨4, false⟩, 3⟩,
      ⟨.and ⟨5, true⟩ ⟨6, true⟩, 4⟩], #[⟨7, true⟩]⟩ :=
    ⟨_, .added (.miter ⟨3, false⟩ ⟨4, false⟩) (.added .input (.added (.and ⟨2, true⟩ ⟨1, false⟩)
      (.added (.and ⟨1, false⟩ ⟨1, true⟩) (.added .input .start rfl) rfl) rfl) rfl) rfl, rfl⟩
  obtain ⟨circuit, built, rfl⟩ := built
  exact ⟨_, built, by decide, built_layered built⟩

end DecisionDiagram.Circuit
