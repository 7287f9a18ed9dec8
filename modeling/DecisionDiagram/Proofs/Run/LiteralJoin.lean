import DecisionDiagram.Proofs.Run.Yields

/-!
# Cubes and clauses of any literals

In every state of every run, a list of literals, in any order and with repeats, is joined to the edge
that stands for their conjunction or their disjunction. The edge is constant exactly if a variable
comes with both signs, and the set of the literals alone decides which edge it is. The least number is
a literal like all others: it comes first in the order, so that no test negates it.
-/

set_option autoImplicit false

namespace DecisionDiagram.Manager

variable {manager before : Manager} {literals : List Int} {absorbing : Bool}

/-- What it is to join literals. `absorber` is the edge of the value that one literal is enough for. -/
structure JoinsLiterals (before : Manager) (action : Action Edge) (literals : List Int)
    (combine : (Int → Bool) → Bool) (absorber : Edge) : Prop where
  /-- Under every assignment of the variables of the literals, the result has the value that is
  combined of theirs. -/
  value : ∀ result after, action before = .ok result after → ∀ assignment : List Bool,
    (∀ number ∈ literals, number.natAbs ≤ assignment.length) →
      after.value result assignment =
        .ok (combine fun number => literalFunction number (valuationOf assignment))
  /-- The result is constant in this way exactly if some variable comes with both signs. -/
  absorbs : ∀ result after, action before = .ok result after →
    (result = absorber ↔ ∃ number ∈ literals, -number ∈ literals)
  /-- Only a full store keeps the action from returning. -/
  fault : ∀ fault after, action before = .error fault after → OutOfSpace fault after

theorem dependsOn_junction {count : Nat} (inside : ∀ number ∈ literals, number.natAbs ≤ count) :
    DependsOn (junction absorbing literals) {var | var ≤ count} := by
  intro first second agree
  have same : ∀ number ∈ literals, literalFunction number first = literalFunction number second :=
    fun number member => dependsOn_literalFunction (inside number member) agree
  have iff : (∃ number ∈ literals, literalFunction number first = absorbing) ↔
      ∃ number ∈ literals, literalFunction number second = absorbing :=
    exists_congr fun number => and_congr_right fun member => by rw [same number member]
  simp only [junction, iff]

theorem joinLiterals_joins {combine : (Int → Bool) → Bool} (sound : before.Sound)
    (each : ∀ number ∈ literals, number ≠ 0 ∧ InWord number)
    (pointwise : ∀ valuation, junction absorbing literals valuation =
      combine fun number => literalFunction number valuation) :
    JoinsLiterals before (joinLiterals absorbing literals) literals combine
      (constant absorbing) := by
  have nonzero : 0 ∉ literals := fun zero => (each 0 zero).1 rfl
  have sorts := sortedLiterals_eq_ok nonzero fun number member => (each number member).2
  have confined := Instruction.literals_confined absorbing literals sound.canonical
    (Task.covered_faultless sorts)
  have constructs : Constructs (joinLiterals absorbing literals) before
      (fun result after => (∃ outcome, sortedLiterals literals = .ok outcome) ∧
        after.store.Represents result (junction absorbing literals)) fun _ => False :=
    confined.constructs_faultless sound
  constructor
  · intro result after returned assignment inside
    obtain ⟨grows, _, represents⟩ := constructs.result result after returned
    rw [← pointwise]
    exact value_of_dependsOn grows.sound.canonical represents (dependsOn_junction inside)
  · intro result after returned
    obtain ⟨grows, _, represents⟩ := constructs.result result after returned
    have canonical := grows.sound.canonical
    rw [represents.eq_iff canonical (represents_constant canonical absorbing)]
    exact junction_eq_absorbing_iff nonzero
  · exact fun _ _ => constructs.outOfSpace

/-- **Cubes and clauses are exact**, whatever list of 32-bit literals they are made of. Lists with the
same literals are one action, and in a run they lead to one edge. -/
theorem attained_joinsLiterals {config : Config} (attained : Attained config manager)
    (each : ∀ number ∈ literals, number ≠ 0 ∧ InWord number) :
    JoinsLiterals manager (cube literals) literals (fun holds => literals.all holds) .zero ∧
    JoinsLiterals manager (clause literals) literals (fun holds => literals.any holds) .one ∧
    ∀ others : List Int, (∀ number, number ∈ others ↔ number ∈ literals) →
      cube others = cube literals ∧ clause others = clause literals ∧
      Concur (.cube others) (.cube literals) manager ∧
      Concur (.clause others) (.clause literals) manager := by
  have sound := attained.sound
  refine ⟨?_, ?_, ?_⟩
  · rw [cube_eq]
    exact joinLiterals_joins sound each (junction_false literals)
  · rw [clause_eq]
    exact joinLiterals_joins sound each (junction_true literals)
  · intro others same
    have sameFunction : ∀ absorbing, junction absorbing others = junction absorbing literals :=
      fun _ => junction_congr same
    refine ⟨?_, ?_, ?_, ?_⟩
    · rw [cube_eq, cube_eq, joinLiterals_congr false same]
    · rw [clause_eq, clause_eq, joinLiterals_congr true same]
    · exact @concur_of_target_eq manager (.cube others) (.cube literals) sound
        fun _ => sameFunction false
    · exact @concur_of_target_eq manager (.clause others) (.clause literals) sound
        fun _ => sameFunction true

/-- The least number is one of the literals, and one variable comes with both signs. -/
theorem joinsLiterals_of_least : ∃ literals : List Int, literals = [-1, 2, -2147483648, 1, 2] ∧
    Attained ⟨3, 1, 1⟩ twoVariables ∧ (∀ number ∈ literals, number ≠ 0 ∧ InWord number) ∧
    JoinsLiterals twoVariables (cube literals) literals (fun holds => literals.all holds) .zero ∧
    JoinsLiterals twoVariables (clause literals) literals (fun holds => literals.any holds) .one ∧
    cube [2, 1, -1, -2147483648] = cube literals := by
  obtain ⟨literals, isList⟩ : ∃ literals : List Int, literals = [-1, 2, -2147483648, 1, 2] :=
    ⟨_, rfl⟩
  have each : ∀ number ∈ literals, number ≠ 0 ∧ InWord number := by
    simp [isList, InWord, leastCode]
  obtain ⟨onCube, onClause, onSame⟩ := attained_joinsLiterals attained_twoVariables each
  have same : ∀ number, number ∈ [2, 1, -1, -2147483648] ↔ number ∈ literals := by
    intro number
    simp only [isList, List.mem_cons, List.not_mem_nil, or_false]
    omega
  exact ⟨literals, isList, attained_twoVariables, each, onCube, onClause, (onSame _ same).1⟩

end DecisionDiagram.Manager
