import DecisionDiagram.Proofs.Diagram.Residual
import DecisionDiagram.Proofs.Manager.Reach
import DecisionDiagram.Proofs.Run.Yields

/-!
# Sizes are forced by the functions

In every state of every run, the size of an edge is one more than the number of functions, up to
complement, that its function leaves when its first variables are fixed, constants apart. Each node
below the edge is there for one of them, so no diagram of the function could do without it.
-/

set_option autoImplicit false

namespace DecisionDiagram.Manager

open Std

variable {manager : Manager} {edge : Edge} {function : BoolFunction}

/-- The edge has the values of the function, which depends on the variables of the edge only. -/
structure Means (manager : Manager) (edge : Edge) (function : BoolFunction) : Prop where
  live : manager.store.Live edge
  value : ∀ assignment, Covers manager.store assignment edge →
    manager.value edge assignment = .ok (function (valuationOf assignment))
  depends : DependsOn function {var | manager.store.Tests edge var}

/-- The diagram of an edge has the nodes that its function asks for, and no others. -/
structure SizedByResiduals (manager : Manager) (edge : Edge) (function : BoolFunction)
    (found : HashSet Nat) : Prop where
  reachable : manager.reachable [edge] = .ok found
  finite : (classes function).Finite
  /-- One for each pair of complements, and one for the terminal. -/
  size : ∃ after, Manager.size edge manager = .ok (1 + (classes function).ncard) after
  /-- A reachable node has an edge that means a residual. -/
  forced : ∀ index, found.contains index → index ≠ 1 → ∃ name lower, name.index = index ∧
    lower ∈ residuals function ∧ manager.Means name lower
  /-- A residual is meant by an edge to a reachable node. -/
  stored : ∀ lower ∈ residuals function, ∃ name, manager.Means name lower ∧
    found.contains name.index ∧ name.index ≠ 1
  /-- Different nodes mean functions that are neither equal nor complements. -/
  apart : ∀ first second lower other, manager.Means first lower → manager.Means second other →
    pair lower = pair other → first.index = second.index

theorem means_iff_represents (canonical : manager.store.Canonical) :
    manager.Means edge function ↔ manager.store.Represents edge function := by
  constructor
  · intro means
    refine ⟨means.live, funext fun valuation => ?_⟩
    obtain ⟨count, within⟩ := manager.store.testedVars.exists_nat_subset_range
    have bound : ∀ var ∈ manager.store.testedVars, var ≤ count := fun var member =>
      Nat.le_of_lt (Finset.mem_range.mp (within member))
    have covers := covers_assignmentOf valuation bound edge
    have value := means.value _ covers
    rw [value_spec canonical means.live.represents covers,
      denote_assignmentOf canonical bound means.live] at value
    rw [Except.ok.inj value]
    refine means.depends fun var tests => ?_
    exact valuationOf_assignmentOf (canonical.tests_pos tests)
      (bound var (Store.Canonical.tests_mem_testedVars tests))
  · intro represents
    refine ⟨represents.live, fun assignment covers => value_spec canonical represents covers, ?_⟩
    rw [← represents.denote_eq]
    exact canonical.dependsOn_tests represents.live

theorem sizedByResiduals_of_represents (sound : manager.Sound)
    (represents : manager.store.Represents edge function) :
    ∃ found, manager.SizedByResiduals edge function found := by
  have canonical := sound.canonical
  obtain ⟨found, isFound, same⟩ :=
    reachable_spec canonical (List.forall_mem_singleton.mpr represents.live)
  obtain ⟨finite, count⟩ := represents.ncard_below_eq canonical
  refine ⟨found, isFound, finite, ?_, ?_, ?_, ?_⟩
  · rw [← count]
    exact size_eq_ok sound represents.live
  · intro index member inner
    obtain ⟨_, isEdge, reaches⟩ := ((same index).mp member).resolve_left inner
    rw [List.mem_singleton.mp isEdge] at reaches
    obtain ⟨name, lower, isSlot, isResidual, stands⟩ :=
      represents.residual_of_reaches canonical reaches inner
    exact ⟨name, lower, isSlot, isResidual, (means_iff_represents canonical).mpr stands⟩
  · intro lower isResidual
    obtain ⟨name, stands, reaches, inner⟩ := represents.reaches_of_residual canonical isResidual
    have member := (same name.index).mpr (Or.inr ⟨edge, List.mem_singleton_self edge, reaches⟩)
    exact ⟨name, (means_iff_represents canonical).mpr stands, member, inner⟩
  · intro first second lower other means otherMeans equal
    have onFirst := (means_iff_represents canonical).mp means
    exact onFirst.index_eq_of_pair_eq canonical ((means_iff_represents canonical).mp otherMeans) equal

/-- **Sizes are semantic, and diagrams are minimal.** -/
theorem attained_sizedByResiduals {config : Config} (attained : Attained config manager)
    (live : manager.store.Live edge) :
    ∃ function found, manager.Means edge function ∧
      (∀ other, manager.Means edge other → other = function) ∧
      manager.SizedByResiduals edge function found := by
  have sound := attained.sound
  have represents := live.represents
  have means := (means_iff_represents sound.canonical).mpr represents
  obtain ⟨found, sized⟩ := sizedByResiduals_of_represents sound represents
  refine ⟨_, found, means, fun other otherMeans => ?_, sized⟩
  have otherRepresents := (means_iff_represents sound.canonical).mp otherMeans
  exact otherRepresents.function_eq represents

/-- The complement of a conjunction. -/
theorem sizedByResiduals_of_complement : Attained ⟨3, 1, 1⟩ twoVariables ∧
    twoVariables.store.Live ⟨-3, by decide⟩ ∧
    ∃ function found, twoVariables.Means ⟨-3, by decide⟩ function ∧
      (∀ other, twoVariables.Means ⟨-3, by decide⟩ other → other = function) ∧
      twoVariables.SizedByResiduals ⟨-3, by decide⟩ function found := by
  have live : twoVariables.store.Live ⟨-3, by decide⟩ := Store.live_neg.mpr live_twoVariables.2
  exact ⟨attained_twoVariables, live, attained_sizedByResiduals attained_twoVariables live⟩

end DecisionDiagram.Manager
