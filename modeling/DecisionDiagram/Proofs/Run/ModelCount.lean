import DecisionDiagram.Proofs.Manager.ModelCount
import DecisionDiagram.Proofs.Run.Yields

/-!
# Model counts are exact

In every state of every run a count returns, for every number of variables: an edge and its complement
share all assignments between them. As soon as there are as many variables as the edge has, whichever
they are, the share is the number of the values of these variables that make the edge true, once for
each way of choosing the remaining ones.
-/

set_option autoImplicit false

namespace DecisionDiagram.Manager

variable {manager : Manager} {edge : Edge} {vars : Finset Nat} {count : Nat}

/-- The variables that an edge tests. -/
def varsOf (manager : Manager) (edge : Edge) : Set Nat := {var | manager.store.Tests edge var}

/-- The values of the variables of an edge that make it true. -/
def satisfying (manager : Manager) (edge : Edge) : Set (manager.varsOf edge → Bool) :=
  {values | ∃ assignment : List Bool,
    (∀ var : manager.varsOf edge, assignment[var.val - 1]? = some (values var)) ∧
      manager.value edge assignment = .ok true}

/-- What it is to count the models of an edge. -/
structure CountsModels (manager : Manager) (edge : Edge) : Prop where
  /-- An edge and its complement share all assignments, however few variables are counted. -/
  complement : ∀ count, ∃ models others, manager.modelCount edge count = .ok models ∧
    manager.modelCount (-edge) count = .ok others ∧ models ≤ 2 ^ count ∧
      models + others = 2 ^ count
  finite : (manager.varsOf edge).Finite
  /-- The variables that are counted need not be those of the edge, if there are enough of them. -/
  satisfying : ∀ count, (manager.varsOf edge).ncard ≤ count → manager.modelCount edge count =
    .ok (2 ^ (count - (manager.varsOf edge).ncard) * (manager.satisfying edge).ncard)
  /-- If they are, the models are assignments. -/
  assignments : ∀ count, (∀ var ∈ manager.varsOf edge, var ≤ count) →
    manager.modelCount edge count =
      .ok {assignment : List Bool | assignment.length = count ∧
        manager.value edge assignment = .ok true}.ncard

theorem varsOf_subset (manager : Manager) (edge : Edge) :
    manager.varsOf edge ⊆ ↑manager.store.testedVars := by
  intro var tests
  exact Finset.mem_coe.mpr (Store.Canonical.tests_mem_testedVars tests)

theorem finite_varsOf (manager : Manager) (edge : Edge) : (manager.varsOf edge).Finite :=
  manager.store.testedVars.finite_toSet.subset (manager.varsOf_subset edge)

theorem assignmentOf_getElem? (valuation : Valuation) {var : Nat} (positive : 0 < var)
    (inside : var ≤ count) : (assignmentOf valuation count)[var - 1]? = some (valuation var) := by
  have place : var - 1 < count := by omega
  have next : var - 1 + 1 = var := by omega
  simp [assignmentOf, place, next]

/-- Where an assignment gives values to the variables of an edge, it makes the edge true exactly if the
function is true for these values. -/
theorem value_of_variables (canonical : manager.store.Canonical) (live : manager.store.Live edge)
    {assignment : List Bool} {valuation : Valuation}
    (given : ∀ var ∈ manager.varsOf edge, assignment[var - 1]? = some (valuation var)) :
    manager.value edge assignment = .ok (manager.store.denote edge valuation) := by
  have covers : Covers manager.store assignment edge := by
    intro var tests
    have inside := List.getElem?_eq_some_iff.mp (given var tests)
    obtain ⟨place, _⟩ := inside
    omega
  rw [value_spec canonical live.represents covers]
  apply congrArg Except.ok
  apply canonical.dependsOn_tests live
  intro var tests
  rw [valuationOf, List.getD_eq_getElem?_getD, given var tests, Option.getD_some]

/-- A model of the function is given by the values of the variables of the edge. -/
theorem image_models_variables (canonical : manager.store.Canonical)
    (live : manager.store.Live edge) (isVars : ↑vars = manager.varsOf edge) :
    (fun trues (var : manager.varsOf edge) => valuationIn trues var.val) ''
        (models vars (manager.store.denote edge) : Set (Finset Nat)) =
      manager.satisfying edge := by
  ext values
  constructor
  · intro member
    obtain ⟨trues, isModel, rfl⟩ := member
    obtain ⟨count, within⟩ := manager.store.testedVars.exists_nat_subset_range
    have given : ∀ var ∈ manager.varsOf edge,
        (assignmentOf (valuationIn trues) count)[var - 1]? = some (valuationIn trues var) := by
      intro var tests
      have inside := Finset.mem_range.mp (within (manager.varsOf_subset edge tests))
      exact assignmentOf_getElem? _ (canonical.tests_pos tests) (Nat.le_of_lt inside)
    refine ⟨_, fun var => given var.val var.property, ?_⟩
    rw [value_of_variables canonical live given, (mem_models.mp isModel).2]
  · intro member
    obtain ⟨assignment, given, isTrue⟩ := member
    let trues := vars.filter fun var => valuationOf assignment var
    have chosen : ∀ var : manager.varsOf edge, valuationIn trues var.val = values var := by
      intro var
      have member : var.val ∈ vars := by
        rw [← Finset.mem_coe, isVars]
        exact var.property
      simp [valuationIn, trues, member, valuationOf, given var]
    refine ⟨trues, mem_models.mpr ⟨Finset.filter_subset _ _, ?_⟩, funext chosen⟩
    rw [value_of_variables canonical live fun var tests =>
      (given ⟨var, tests⟩).trans (congrArg some (chosen ⟨var, tests⟩).symm)] at isTrue
    exact Except.ok.inj isTrue

theorem ncard_satisfying (canonical : manager.store.Canonical) (live : manager.store.Live edge)
    (isVars : ↑vars = manager.varsOf edge) :
    (manager.satisfying edge).ncard = (models vars (manager.store.denote edge)).card := by
  rw [← image_models_variables canonical live isVars, Set.InjOn.ncard_image, Set.ncard_coe_finset]
  intro left leftModel right rightModel same
  apply eq_of_valuationIn_eq (mem_models.mp leftModel).1 (mem_models.mp rightModel).1
  intro var member
  have tests : var ∈ manager.varsOf edge := isVars ▸ Finset.mem_coe.mpr member
  exact congrFun same ⟨var, tests⟩

/-- The lists of values of the first variables that make the function true are the assignments that
make the edge true. -/
theorem assignments_eq (canonical : manager.store.Canonical) (live : manager.store.Live edge)
    (within : ∀ var ∈ manager.varsOf edge, var ≤ count) :
    {inputs : List Bool | inputs.length = count ∧
        manager.store.denote edge (valuationOf inputs)} =
      {assignment : List Bool | assignment.length = count ∧
        manager.value edge assignment = .ok true} := by
  ext assignment
  apply and_congr_right
  intro isLong
  rw [value_spec canonical live.represents (covers_of_length within isLong)]
  exact ⟨congrArg Except.ok, Except.ok.inj⟩

theorem modelCount_complement (canonical : manager.store.Canonical)
    (live : manager.store.Live edge) (count : Nat) :
    ∃ models others, manager.modelCount edge count = .ok models ∧
      manager.modelCount (-edge) count = .ok others ∧ models ≤ 2 ^ count ∧
        models + others = 2 ^ count := by
  obtain ⟨share, counted, shares⟩ := modelCount_shares canonical live.represents count
  obtain ⟨other, otherCounted, otherShares⟩ :=
    modelCount_shares canonical live.represents.neg count
  have within := shares.le_total
  have rest := otherShares.unique shares.neg
  exact ⟨share, other, counted, otherCounted, within, by omega⟩

/-- **Model counts are exact**, after any run. -/
theorem attained_countsModels {config : Config} (attained : Attained config manager)
    (live : manager.store.Live edge) : CountsModels manager edge := by
  have canonical := attained.sound.canonical
  have finite := manager.finite_varsOf edge
  have isVars := finite.coe_toFinset
  have depends : DependsOn (manager.store.denote edge) ↑finite.toFinset := by
    rw [isVars]
    exact canonical.dependsOn_tests live
  have card := Set.ncard_eq_toFinset_card _ finite
  refine ⟨modelCount_complement canonical live, finite, ?_, ?_⟩
  · intro count enough
    rw [card] at enough ⊢
    rw [modelCount_spec canonical enough live.represents depends, modelShare,
      ncard_satisfying canonical live isVars]
  · intro count within
    have onFirst := (canonical.dependsOn_tests live).mono within
    rw [modelCount_inputs canonical live.represents onFirst, assignments_eq canonical live within]

/-- The complement of a conjunction of two variables. -/
theorem countsModels_of_complement : Attained ⟨3, 1, 1⟩ twoVariables ∧
    CountsModels twoVariables ⟨-3, by decide⟩ := by
  have live : twoVariables.store.Live ⟨-3, by decide⟩ := Store.live_neg.mpr live_twoVariables.2
  exact ⟨attained_twoVariables, attained_countsModels attained_twoVariables live⟩

end DecisionDiagram.Manager
