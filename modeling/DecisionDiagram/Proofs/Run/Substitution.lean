import DecisionDiagram.Proofs.Run.Agreement

/-!
# Putting a function in the place of a variable

In every state of every run, composition gives an edge the values that it has when the variable is set
to the value of the replacement. The replacement may depend on the variable itself. Substitution, which
restricts first, comes to the same edge. If the replacement does not depend on the variable, the
variable is gone.
-/

set_option autoImplicit false

namespace DecisionDiagram.Manager

variable {manager before : Manager} {action : Action Edge} {edge replacement : Edge} {var : Nat}

/-- The values of the edge stay when the variable is set to something else. -/
def Ignores (manager : Manager) (edge : Edge) (var : Nat) : Prop :=
  ∀ (assignment : List Bool) (value : Bool), Covers manager.store assignment edge →
    manager.value edge (assignment.set (var - 1) value) = manager.value edge assignment

/-- What it is to put a function in the place of a variable. -/
structure Replaces (before : Manager) (action : Action Edge) (edge : Edge) (var : Nat)
    (replacement : Edge) : Prop where
  /-- Where an assignment covers both functions, the result has the value that the edge has with the
  variable set to the value of the replacement. -/
  value : ∀ result after, action before = .ok result after → ∀ assignment : List Bool,
    Covers before.store assignment edge → Covers before.store assignment replacement →
      ∃ chosen value, before.value replacement assignment = .ok chosen ∧
        before.value edge (assignment.set (var - 1) chosen) = .ok value ∧
          after.value result assignment = .ok value
  eliminates : ∀ result after, action before = .ok result after →
    before.Ignores replacement var → ¬after.store.Tests result var
  /-- Only a full store keeps the action from returning. -/
  fault : ∀ fault after, action before = .error fault after → OutOfSpace fault after

theorem denote_update_of_ignores (canonical : manager.store.Canonical)
    (live : manager.store.Live edge) (positive : var ≠ 0) (ignores : manager.Ignores edge var)
    (valuation : Valuation) (value : Bool) :
    manager.store.denote edge (Function.update valuation var value) =
      manager.store.denote edge valuation := by
  -- an assignment that is long enough stands for the valuation
  obtain ⟨count, within⟩ := manager.store.testedVars.exists_nat_subset_range
  have bound : ∀ tested ∈ manager.store.testedVars, tested ≤ count := fun tested member =>
    Nat.le_of_lt (Finset.mem_range.mp (within member))
  have covers := covers_assignmentOf valuation bound edge
  have same := ignores _ value covers
  rw [value_set canonical live.represents positive covers,
    value_spec canonical live.represents covers, denote_assignmentOf canonical bound live] at same
  rw [← Except.ok.inj same]
  refine canonical.dependsOn_tests live fun tested tests => ?_
  by_cases isVar : tested = var
  · rw [isVar, Function.update_self, Function.update_self]
  · rw [Function.update_of_ne isVar, Function.update_of_ne isVar,
      valuationOf_assignmentOf (canonical.tests_pos tests)
        (bound tested (Store.Canonical.tests_mem_testedVars tests))]

theorem dependsOn_of_ignores (canonical : manager.store.Canonical) (live : manager.store.Live edge)
    (positive : var ≠ 0) (ignores : manager.Ignores edge var) :
    DependsOn (manager.store.denote edge) {other | other ≠ var} := by
  intro first second agree
  rw [← denote_update_of_ignores canonical live positive ignores first (second var)]
  congr 1
  funext other
  by_cases isVar : other = var
  · rw [isVar, Function.update_self]
  · rw [Function.update_of_ne isVar, agree other isVar]

theorem replaces_of_constructs (sound : before.Sound) (live : before.store.Live edge)
    (replacementLive : before.store.Live replacement) (positive : var ≠ 0) {task : Task}
    (isComposed : task.target =
      composed var (before.store.denote edge) (before.store.denote replacement))
    (constructs : Constructs action before (fun result after => task.Done result after.store)
      fun _ => False) : Replaces before action edge var replacement where
  value result after run assignment covers replacementCovers := by
    obtain ⟨grows, done⟩ := constructs.result result after run
    have represents := done.represents
    rw [isComposed] at represents
    have canonical := sound.canonical
    have depends := (covers_iff_dependsOn canonical live.represents).mp covers
    have dependsReplacement :=
      (covers_iff_dependsOn canonical replacementLive.represents).mp replacementCovers
    exact ⟨_, _, value_spec canonical replacementLive.represents replacementCovers,
      value_set canonical live.represents positive covers _,
      value_of_dependsOn grows.sound.canonical represents
        (dependsOn_composed (depends.mono (Set.subset_insert _ _)) dependsReplacement)⟩
  eliminates result after run ignores tests := by
    obtain ⟨grows, done⟩ := constructs.result result after run
    have represents := done.represents
    rw [isComposed] at represents
    have anyVar : DependsOn (before.store.denote edge) (insert var {other | other ≠ var}) :=
      (dependsOn_univ _).mono fun other _ => Classical.em (other = var)
    have depends := dependsOn_composed anyVar
      (dependsOn_of_ignores sound.canonical replacementLive positive ignores)
    exact represents.mem_of_tests grows.sound.canonical depends tests rfl
  fault _ _ := constructs.outOfSpace

/-- **Composition is simultaneous**, and substitution comes to the same edge. -/
theorem attained_replaces {config : Config} (attained : Attained config manager)
    (live : manager.store.Live edge) (replacementLive : manager.store.Live replacement)
    (positive : var ≠ 0) :
    Replaces manager (compose edge var replacement) edge var replacement ∧
    Replaces manager (substitute edge var replacement) edge var replacement ∧
    SameLater (.compose edge var replacement) (.substitute edge var replacement) manager ∧
    SameLater (.substitute edge var replacement) (.compose edge var replacement) manager := by
  have sound := attained.sound
  have canonical := sound.canonical
  have bothLive : ∀ operand ∈ [edge, replacement], manager.store.Live operand :=
    List.forall_mem_cons.mpr ⟨live, List.forall_mem_singleton.mpr replacementLive⟩
  have composes := compose_confined var canonical live.represents replacementLive.represents
    (Task.covered_faultless positive)
  have substitutes := substitute_confined var canonical live.represents replacementLive.represents
    (Task.covered_faultless positive)
  refine ⟨?_, ?_, ?_, ?_⟩
  · exact replaces_of_constructs sound live replacementLive positive rfl
      (composes.constructs_faultless sound)
  · exact replaces_of_constructs sound live replacementLive positive rfl
      (substitutes.constructs_faultless sound)
  · exact @Instruction.sameLater (.compose edge var replacement) (.substitute edge var replacement)
      manager sound bothLive bothLive rfl
  · exact @Instruction.sameLater (.substitute edge var replacement) (.compose edge var replacement)
      manager sound bothLive bothLive rfl

/-- In an exclusive or, a variable that comes before the replaced one is put in its place. -/
theorem replaces_in_xor : ∃ manager, Attained ⟨3, 2, 2⟩ manager ∧
    Replaces manager (compose ⟨4, by decide⟩ 2 ⟨3, by decide⟩) ⟨4, by decide⟩ 2 ⟨3, by decide⟩ ∧
    Replaces manager (substitute ⟨4, by decide⟩ 2 ⟨3, by decide⟩) ⟨4, by decide⟩ 2 ⟨3, by decide⟩ ∧
    SameLater (.compose ⟨4, by decide⟩ 2 ⟨3, by decide⟩)
      (.substitute ⟨4, by decide⟩ 2 ⟨3, by decide⟩) manager ∧
    SameLater (.substitute ⟨4, by decide⟩ 2 ⟨3, by decide⟩)
      (.compose ⟨4, by decide⟩ 2 ⟨3, by decide⟩) manager := by
  have made : ∃ manager, Attained ⟨3, 2, 2⟩ manager ∧ manager.store.Live ⟨4, by decide⟩ ∧
      manager.store.Live ⟨3, by decide⟩ := by
    refine ⟨_, .called (.node 1 ⟨-2, by decide⟩ ⟨2, by decide⟩) (.called (.literal 1)
      (.called (.literal 2) (.created rfl) (Call.admissible_of_no_edges rfl _))
      (Call.admissible_of_no_edges rfl _)) ?_, ⟨⟨1, ⟨-2, by decide⟩, ⟨2, by decide⟩⟩, ?_⟩,
      ⟨1, .zero, .one⟩, ?_⟩
    · refine List.forall_mem_cons.mpr ⟨⟨⟨2, .zero, .one⟩, ?_⟩,
        List.forall_mem_singleton.mpr ⟨⟨2, .zero, .one⟩, ?_⟩⟩
      all_goals decide +kernel
    all_goals decide +kernel
  obtain ⟨manager, attained, live, replacementLive⟩ := made
  exact ⟨manager, attained, attained_replaces attained live replacementLive (by decide)⟩

end DecisionDiagram.Manager
