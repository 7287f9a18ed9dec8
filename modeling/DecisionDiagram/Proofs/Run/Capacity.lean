import DecisionDiagram.Proofs.Manager.Run

/-!
# Only a full store stops the algebra

The operations on functions accept all edges in use. With arguments that make sense they return an
edge in use or run out of slots: they split their operands on the first variable of all of them, so
that the halves have later ones and can be joined again.
-/

set_option autoImplicit false

namespace DecisionDiagram

open Manager

/-- The operations of the algebra, with variables that are not zero and with literals that are
numbers of 32 bits other than zero. -/
def Call.Algebraic : Call → Prop
  | apply _ _ _ | iff _ _ | imp _ _ | ite _ _ _ => True
  | andAll _ | orAll _ | andSmallestFirst _ => True
  | compose _ var _ | substitute _ var _ | restrict _ var _ => var ≠ 0
  | restrictMany _ _ => True
  | existsVars _ vars | forallVars _ vars | relProduct _ _ vars => 0 ∉ vars
  | cube literals | clause literals => ∀ number ∈ literals, number ≠ 0 ∧ InWord number
  | _ => False

theorem Call.builds_of_algebraic {call : Call} (algebraic : call.Algebraic) : call.Builds := by
  cases call with
  | translate _ _ | pin _ | unpin _ | collect _ => exact algebraic.elim
  | _ => trivial

/-- What the operations of the algebra have to come to can be done. -/
theorem Instruction.proper_of_algebraic {instruction : Instruction Edge}
    (algebraic : instruction.call.Algebraic) (meaning : Edge → BoolFunction) :
    (instruction.map meaning).task.proper := by
  have sorts : ∀ {literals : List Int}, (∀ number ∈ literals, number ≠ 0 ∧ InWord number) →
      ∃ outcome, sortedLiterals literals = .ok outcome := fun each =>
    sortedLiterals_eq_ok (fun zero => (each 0 zero).1 rfl) fun number member => (each number member).2
  cases instruction with
  | node _ _ _ | literal _ | weightedSum _ _ _ _ => exact algebraic.elim
  | cube literals => exact sorts algebraic
  | clause literals => exact sorts algebraic
  | andAll edges => exact joinTask_proper _ _ _
  | orAll edges => exact joinTask_proper _ _ _
  | compose _ _ _ | substitute _ _ _ | restrict _ _ _ => exact algebraic
  | existsVars _ _ | forallVars _ _ | relProduct _ _ _ => exact algebraic
  | _ => trivial

/-- An operation of the algebra never fails while there is space. -/
theorem Call.algebra_confined {store : Store Node} {call : Call} (canonical : store.Canonical)
    (live : ∀ edge ∈ call.edges, store.Live edge) (algebraic : call.Algebraic) :
    Confined steady .faultless call.perform store
      fun answer after => ∃ edge, answer = .edges [edge] ∧ after.Live edge := by
  cases Call.way_of_builds (Call.builds_of_algebraic algebraic) with
  | instruction instruction =>
    rw [instruction.edges_call] at live
    have proper := Instruction.proper_of_algebraic algebraic store.denote
    apply (instruction.perform_confined canonical live (Task.covered_faultless proper)).weaken
    rintro _ after _ ⟨edge, rfl, done⟩
    exact ⟨edge, rfl, done.live⟩
  | andSmallestFirst edges =>
    apply (andSmallestFirst_repeatable canonical Scope.mem_faultless live).confined.bind
    intro edge after grown represents
    exact Confined.pure grown.canonical ⟨edge, rfl, represents.live⟩
  | clauses _ | translate _ | size _ => exact algebraic.elim

namespace Manager

/-- **Capacity is the only limit of the algebra.** In every state of every run its operations return
an edge in use, or the store is full. -/
theorem attained_returns_or_full {config : Config} {manager : Manager} {call : Call}
    (attained : Attained config manager) (algebraic : call.Algebraic)
    (admissible : call.Admissible manager) :
    (∃ edge after, call.perform manager = .ok (.edges [edge]) after ∧ after.store.Live edge) ∨
      ∃ after, call.perform manager = .error (.storageFull after.store.capacity) after ∧
        after.store.Full := by
  have constructs := (Call.algebra_confined attained.sound.canonical admissible algebraic).constructs
    attained.sound fun _ impossible => impossible
  cases run : call.perform manager with
  | ok answer after =>
    obtain ⟨_, edge, rfl, live⟩ := constructs.result answer after run
    exact Or.inl ⟨edge, after, rfl, live⟩
  | error fault after =>
    obtain ⟨_, ⟨rfl, full⟩ | impossible⟩ := constructs.fault fault after run
    · exact Or.inr ⟨after, rfl, full⟩
    · exact impossible.elim

/-- The relational product of a literal and a complemented one, over the variable of the first. -/
theorem relProduct_returns_or_full : ∃ manager, Attained ⟨3, 2, 2⟩ manager ∧
    ((∃ edge after, (Call.relProduct ⟨2, by decide⟩ ⟨-3, by decide⟩ [1]).perform manager =
        .ok (.edges [edge]) after ∧ after.store.Live edge) ∨
      ∃ after, (Call.relProduct ⟨2, by decide⟩ ⟨-3, by decide⟩ [1]).perform manager =
        .error (.storageFull after.store.capacity) after ∧ after.store.Full) := by
  obtain ⟨manager, attained, live, secondLive, _⟩ := attained_literals
  have negLive : manager.store.Live ⟨-3, by decide⟩ := Store.live_neg.mpr secondLive
  have nonzero : (Call.relProduct ⟨2, by decide⟩ ⟨-3, by decide⟩ [1]).Algebraic := by
    show 0 ∉ [1]
    decide
  exact ⟨manager, attained, attained_returns_or_full attained nonzero
    (List.forall_mem_cons.mpr ⟨live, List.forall_mem_singleton.mpr negLive⟩)⟩

end Manager

end DecisionDiagram
