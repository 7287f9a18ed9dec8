import DecisionDiagram.Proofs.Manager.Literal
import DecisionDiagram.Proofs.Run.Yields

/-!
# Where all ways to a literal agree

In every state of every run that has a free slot, cubes and clauses of one literal return the edge of
the literal. So do all other ways to ask for it, unless they have to negate the least number: then they
fault, and cubes and clauses return still.
-/

set_option autoImplicit false

namespace DecisionDiagram.Manager

/-- The ways to a literal that never negate its number. -/
def joiningWays (number : Int) : List (Action Edge) := [cube [number], clause [number]]

/-- The ways to a literal that negate its number if it is negative. -/
def negatingWays (number : Int) : List (Action Edge) :=
  [literal number, weightedSum .atLeast [1] [number] 1,
    do (← weightedSum .atMost [1] [number] 0).negate]

/-- All the ways return the edge of the literal, and none of them can be told from another. -/
structure SameLiteral (before : Manager) (number : Int) (ways : List (Action Edge)) (edge : Edge)
    (after : Manager) : Prop where
  returns : ∀ way ∈ ways, way before = .ok edge after
  value : ∀ assignment : List Bool, number.natAbs ≤ assignment.length →
    after.value edge assignment = .ok (literalFunction number (valuationOf assignment))
  /-- Taken again at any time until there is a collection, a way returns the same and stores nothing. -/
  again : ∀ calls, Uncollected calls after → ∀ way ∈ ways, ∃ last,
    way (leavesAll calls after) = .ok edge last ∧ last.store = (leavesAll calls after).store

variable {manager after : Manager} {number : Int} {way : Action Edge} {ways : List (Action Edge)}
  {edge : Edge}

/-- In sound managers the action does what `literalNode` does. -/
def MakesLiteral (number : Int) (way : Action Edge) : Prop :=
  ∀ manager : Manager, manager.Sound → way manager = literalNode number manager

theorem makesLiteral_of_joining (nonzero : number ≠ 0) :
    ∀ way ∈ joiningWays number, MakesLiteral number way := by
  have joins : ∀ absorbing, MakesLiteral number (joinLiterals absorbing [number]) :=
    fun absorbing _ _ => by rw [joinLiterals_singleton absorbing nonzero]
  refine List.forall_mem_cons.mpr ⟨?_, List.forall_mem_singleton.mpr ?_⟩
  · rw [cube_eq]
    exact joins false
  · rw [clause_eq]
    exact joins true

theorem makesLiteral_of_negating (proper : Literal number) :
    ∀ way ∈ negatingWays number, MakesLiteral number way := by
  have plain : MakesLiteral number (literal number) :=
    fun _ _ => by rw [literal_eq_literalNode proper]
  refine List.forall_mem_cons.mpr ⟨plain, List.forall_mem_cons.mpr
    ⟨?_, List.forall_mem_singleton.mpr ?_⟩⟩
  · rw [weightedSum_atLeast_one proper.1]
    exact plain
  · exact fun _ sound => weightedSum_atMost_zero_negate sound proper

theorem sameLiteral_of_makes (sound : manager.Sound) (nonzero : number ≠ 0)
    (returned : literalNode number manager = .ok edge after) (grows : manager.GrowsTo after)
    (represents : after.store.Represents edge (literalFunction number))
    (makes : ∀ way ∈ ways, MakesLiteral number way) : SameLiteral manager number ways edge after where
  returns way member := (makes way member manager sound).trans returned
  value _ inside :=
    value_of_dependsOn grows.sound.canonical represents (dependsOn_literalFunction inside)
  again calls run way member := by
    have repeatable := literalNode_repeatable sound.canonical nonzero
      (Task.covered_of (Scope.mem_faultless (literalFunction number)))
    have laterSound := leavesAll_sound grows.sound run.admissible
    rw [makes way member _ laterSound]
    exact repeatable.run_again sound returned laterSound (run.grown grows.sound)

theorem negatingWays_leastCode (manager : Manager) :
    ∀ way ∈ negatingWays leastCode, way manager = .error .negateOverflow manager := by
  have nonzero : leastCode ≠ 0 := by decide
  have refused := literal_leastCode manager
  refine List.forall_mem_cons.mpr ⟨refused, List.forall_mem_cons.mpr
    ⟨?_, List.forall_mem_singleton.mpr ?_⟩⟩
  · rw [weightedSum_atLeast_one nonzero, refused]
  · rw [weightedSum_atMost_zero nonzero]
    exact bind_error (bind_error refused)

/-- **All ways to a literal agree where none of them has to negate the least number.** One free slot is
enough for them. -/
theorem attained_sameLiteral {config : Config} (attained : Attained config manager)
    (room : ¬manager.store.Full) (nonzero : number ≠ 0) :
    ∃ edge after, SameLiteral manager number (joiningWays number) edge after ∧
      (number ≠ leastCode → SameLiteral manager number (negatingWays number) edge after) ∧
      (number = leastCode →
        ∀ way ∈ negatingWays number, way manager = .error .negateOverflow manager) := by
  have sound := attained.sound
  obtain ⟨edge, after, returned, grows, represents⟩ := literalNode_returns sound room nonzero
  refine ⟨edge, after, ?_, fun notLeast => ?_, ?_⟩
  · exact sameLiteral_of_makes sound nonzero returned grows represents
      (makesLiteral_of_joining nonzero)
  · exact sameLiteral_of_makes sound nonzero returned grows represents
      (makesLiteral_of_negating ⟨nonzero, notLeast⟩)
  · rintro rfl
    exact negatingWays_leastCode manager

/-- The complement of a variable that the manager has not seen. -/
theorem sameLiteral_of_complement : Attained ⟨3, 1, 1⟩ twoVariables ∧ ¬twoVariables.store.Full ∧
    ∃ edge after, SameLiteral twoVariables (-3) (joiningWays (-3)) edge after ∧
      SameLiteral twoVariables (-3) (negatingWays (-3)) edge after := by
  obtain ⟨edge, after, joining, negating, _⟩ :=
    @attained_sameLiteral twoVariables (-3) _ attained_twoVariables room_twoVariables (by decide)
  exact ⟨attained_twoVariables, room_twoVariables, edge, after, joining, negating (by decide)⟩

/-- The least number is a literal that cubes and clauses take and no other way does. -/
theorem negatingWays_of_least_fault : Attained ⟨3, 1, 1⟩ twoVariables ∧
    ¬twoVariables.store.Full ∧ leastCode ≠ 0 ∧ InWord leastCode ∧
    (∃ after, ∀ way ∈ joiningWays leastCode, way twoVariables = .ok ⟨-4, by decide⟩ after) ∧
    ∀ way ∈ negatingWays leastCode, way twoVariables = .error .negateOverflow twoVariables := by
  have nonzero : leastCode ≠ 0 := by decide
  have inWord : InWord leastCode := ⟨by decide, by decide⟩
  have returned : ∃ after, literalNode leastCode twoVariables = .ok ⟨-4, by decide⟩ after :=
    ⟨_, by with_unfolding_all rfl⟩
  obtain ⟨after, returned⟩ := returned
  have makes := makesLiteral_of_joining nonzero
  have joining : ∀ way ∈ joiningWays leastCode, way twoVariables = .ok ⟨-4, by decide⟩ after :=
    fun way member => (makes way member twoVariables attained_twoVariables.sound).trans returned
  exact ⟨attained_twoVariables, room_twoVariables, nonzero, inWord, ⟨after, joining⟩,
    negatingWays_leastCode twoVariables⟩

end DecisionDiagram.Manager
