import Mathlib.Data.List.Lex
import Mathlib.Order.Bounds.Basic
import DecisionDiagram.Proofs.Manager.ModelSearch
import DecisionDiagram.Proofs.Run.Equality
import DecisionDiagram.Proofs.Run.Yields

/-!
# The model that a search finds

In every state of every run, the search for a model finds one for every edge but the constant false.
However its open variables are chosen, the edge is true, and with all of them true it is the last
assignment in the order of lists that makes the edge true: the search makes a variable false only where
no assignment goes on with true.

A model over no variables is the empty list, which stands for the lack of a model, too. So the list is
empty for the constant false and for both constants if no variable is asked for.
-/

set_option autoImplicit false

namespace DecisionDiagram.Manager

variable {manager : Manager} {edge : Edge} {count : Nat} {path : List (Nat × Bool)}

/-- The assignment that makes all open variables true. -/
def withOpenTrue (cells : PartialAssignment) : List Bool := cells.map fun cell => cell.getD true

theorem completedBy_withOpenTrue (cells : PartialAssignment) :
    CompletedBy cells (withOpenTrue cells) := by
  refine ⟨by simp [withOpenTrue], fun place value decided => ?_⟩
  simp [withOpenTrue, decided]

/-- An assignment that makes the edge true does not come after the path. At the first difference it
would make a variable true that had to be false. -/
theorem le_withOpenTrue (canonical : manager.store.Canonical) (leads : manager.store.Path edge path)
    (inRange : ∀ choice ∈ path, choice.1 ≤ count) {inputs : List Bool}
    (isLong : inputs.length = count)
    (isTrue : manager.store.denote edge (valuationOf inputs) = true) :
    inputs ≤ withOpenTrue (layOut count path) := by
  have completed := completedBy_withOpenTrue (layOut count path)
  by_contra greater
  rcases List.lt_iff_exists.mp (not_le.mp greater) with ⟨_, shorter⟩ | difference
  · rw [completed.1, length_layOut, isLong] at shorter
    exact Nat.lt_irrefl count shorter
  obtain ⟨place, inside, alsoInside, before, less⟩ := difference
  obtain ⟨isFalse, leaves⟩ := Bool.lt_iff.mp less
  have decided : (layOut count path)[place]? = some (some false) := by
    have cell : place < (layOut count path).length := completed.1 ▸ inside
    rw [List.getElem?_eq_getElem cell]
    simp only [withOpenTrue, List.getElem_map] at isFalse
    cases known : (layOut count path)[place] <;> simp_all
  have member := mem_of_layOut canonical leads inRange decided
  have denied : manager.store.denote edge (valuationOf inputs) = false := by
    apply leads.denote_eq_false canonical member rfl
    · intro earlier known first
      have positive := canonical.tests_pos (leads.tests known)
      have earlierPlace : earlier.1 - 1 < place := by omega
      rw [← valuationOf_of_completedBy canonical leads inRange completed known]
      simp [valuationOf, List.getD_eq_getElem?_getD, before _ earlierPlace,
        earlierPlace.trans inside, earlierPlace.trans alsoInside]
    · simp [valuationOf, alsoInside, leaves]
  rw [isTrue] at denied
  cases denied

theorem model_zero (manager : Manager) (count : Nat) : manager.model .zero count = .ok [] := rfl

/-- Every other edge has a path to the constant true, and the model is its layout. -/
theorem model_path (canonical : manager.store.Canonical) (live : manager.store.Live edge)
    (satisfiable : edge ≠ .zero) (within : ∀ var, manager.store.Tests edge var → var ≤ count) :
    ∃ path, manager.model edge count = .ok (layOut count path) ∧
      manager.store.Path edge path ∧ ∀ choice ∈ path, choice.1 ≤ count := by
  have depends := (canonical.dependsOn_tests live).mono within
  obtain ⟨path, found, leads, inRange⟩ :=
    model?_path canonical live.represents depends satisfiable
  refine ⟨path, ?_, leads, inRange⟩
  rw [model, found]
  rfl

/-- **The greatest model is found.** Lists are compared at their first difference, where true is
greater. -/
theorem attained_findsGreatest {config : Config} (attained : Attained config manager)
    (live : manager.store.Live edge) (satisfiable : edge ≠ .zero)
    (within : ∀ var, manager.store.Tests edge var → var ≤ count) :
    ∃ cells, manager.model edge count = .ok cells ∧ cells.length = count ∧
      (∀ inputs, CompletedBy cells inputs → manager.value edge inputs = .ok true) ∧
      IsGreatest {inputs | inputs.length = count ∧ manager.value edge inputs = .ok true}
        (withOpenTrue cells) := by
  have canonical := attained.sound.canonical
  obtain ⟨path, found, leads, inRange⟩ := model_path canonical live satisfiable within
  have isLong := length_layOut count path
  have completes : ∀ inputs, CompletedBy (layOut count path) inputs →
      manager.value edge inputs = .ok true := by
    intro inputs completed
    have covers := covers_of_length within (completed.1.trans isLong)
    rw [value_spec canonical live.represents covers]
    exact congrArg Except.ok (denote_of_completedBy canonical leads inRange completed)
  have completed := completedBy_withOpenTrue (layOut count path)
  refine ⟨layOut count path, found, isLong, completes,
    ⟨completed.1.trans isLong, completes _ completed⟩, ?_⟩
  intro inputs member
  obtain ⟨inputsLong, isTrue⟩ := member
  rw [value_spec canonical live.represents (covers_of_length within inputsLong)] at isTrue
  exact le_withOpenTrue canonical leads inRange inputsLong (Except.ok.inj isTrue)

/-- The complement of a conjunction is true with the first variable if the second one is false, and a
third one is left open. -/
theorem findsGreatest_of_complement : Attained ⟨3, 1, 1⟩ twoVariables ∧
    twoVariables.model ⟨-3, by decide⟩ 3 = .ok [some true, some false, none] ∧
    ∃ cells, twoVariables.model ⟨-3, by decide⟩ 3 = .ok cells ∧ cells.length = 3 ∧
      (∀ inputs, CompletedBy cells inputs →
        twoVariables.value ⟨-3, by decide⟩ inputs = .ok true) ∧
      IsGreatest {inputs | inputs.length = 3 ∧
        twoVariables.value ⟨-3, by decide⟩ inputs = .ok true} (withOpenTrue cells) := by
  have live : twoVariables.store.Live ⟨-3, by decide⟩ := Store.live_neg.mpr live_twoVariables.2
  exact ⟨attained_twoVariables, rfl, attained_findsGreatest attained_twoVariables live (by decide)
    fun var tests => (tests_twoVariables tests).trans (by decide)⟩

/-! ## Empty models -/

/-- Every assignment that covers the edge makes it false. -/
def AlwaysFalse (manager : Manager) (edge : Edge) : Prop :=
  ∀ assignment, Covers manager.store assignment edge → manager.value edge assignment = .ok false

theorem model_eq_nil_iff (canonical : manager.store.Canonical) (live : manager.store.Live edge)
    (satisfiable : edge ≠ .zero) (within : ∀ var, manager.store.Tests edge var → var ≤ count) :
    manager.model edge count = .ok [] ↔ count = 0 := by
  obtain ⟨path, found, _, _⟩ := model_path canonical live satisfiable within
  have isLong := length_layOut count path
  rw [found]
  constructor
  · intro isEmpty
    rw [← isLong, Except.ok.inj isEmpty, List.length_nil]
  · intro none
    rw [List.eq_nil_of_length_eq_zero (isLong.trans none)]

/-- **The model is empty** for a function that is false everywhere, and where no variable is asked
for. -/
theorem attained_model_eq_nil_iff {config : Config} (attained : Attained config manager)
    (live : manager.store.Live edge)
    (within : ∀ var, manager.store.Tests edge var → var ≤ count) :
    (∃ cells, manager.model edge count = .ok cells) ∧
      (manager.model edge count = .ok [] ↔ manager.AlwaysFalse edge ∨ count = 0) := by
  have canonical := attained.sound.canonical
  have isZero : edge = .zero ↔ manager.AlwaysFalse edge :=
    eq_constant_iff canonical live rfl canonical.represents_zero
  rw [← isZero]
  by_cases satisfiable : edge = .zero
  · rw [satisfiable]
    exact ⟨⟨[], model_zero manager count⟩, iff_of_true (model_zero manager count) (Or.inl rfl)⟩
  · obtain ⟨path, found, _, _⟩ := model_path canonical live satisfiable within
    refine ⟨⟨_, found⟩, ?_⟩
    rw [model_eq_nil_iff canonical live satisfiable within, or_iff_right satisfiable]

/-- The complement of a conjunction has a model over both variables, which is not empty. -/
theorem model_of_complement_eq_nil_iff : Attained ⟨3, 1, 1⟩ twoVariables ∧
    twoVariables.store.Live ⟨-3, by decide⟩ ∧
    (∀ var, twoVariables.store.Tests ⟨-3, by decide⟩ var → var ≤ 2) ∧
    (∃ cells, twoVariables.model ⟨-3, by decide⟩ 2 = .ok cells) ∧
    (twoVariables.model ⟨-3, by decide⟩ 2 = .ok [] ↔
      twoVariables.AlwaysFalse ⟨-3, by decide⟩ ∨ 2 = 0) := by
  have live : twoVariables.store.Live ⟨-3, by decide⟩ := Store.live_neg.mpr live_twoVariables.2
  exact ⟨attained_twoVariables, live, fun _ => tests_twoVariables,
    attained_model_eq_nil_iff attained_twoVariables live fun _ => tests_twoVariables⟩

/-- An empty model does not tell the constants apart: over no variables, the constant true has one. -/
theorem model_of_one_eq_nil : Attained ⟨3, 1, 1⟩ twoVariables ∧ twoVariables.store.Live .one ∧
    (∀ var, ¬twoVariables.store.Tests .one var) ∧
    ¬(twoVariables.model .one 0 = .ok [] ↔ twoVariables.AlwaysFalse .one) := by
  have canonical := attained_twoVariables.sound.canonical
  have covers : ∀ assignment, Covers twoVariables.store assignment .one :=
    covers_of_terminal canonical rfl
  refine ⟨attained_twoVariables, canonical.live_one, fun var tests => ?_, fun agree => ?_⟩
  · have inside := covers [] var tests
    exact absurd (canonical.tests_pos tests) (Nat.not_lt.mpr inside)
  · have isFalse := agree.mp rfl [] (covers [])
    rw [value_spec canonical canonical.represents_one (covers [])] at isFalse
    cases isFalse

end DecisionDiagram.Manager
