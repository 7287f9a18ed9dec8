import DecisionDiagram.Proofs.Manager.Termination
import DecisionDiagram.Proofs.Manager.Traversal
import DecisionDiagram.Proofs.Run.Yields
import DecisionDiagram.Proofs.Store.Walks

/-!
# Everything ends

In every manager that is met in a run, between two calls or within one, each recursion over edges in use
ends, no deeper than there are variables below them, and each walk along a chain takes no more steps than
there are slots in use. So nothing ever comes of the bounds that the operations set themselves.
-/

set_option autoImplicit false

namespace DecisionDiagram.Manager

variable {config : Config} {start manager : Manager}

/-- All recursions and all walks end in this manager.

To end is to have calls that descend, no more of them within each other than there are variables below
the operands, and an outcome that does not depend on the bound (`Recursion.Terminates`). The outcome of
an operation is a result, unless the store is full. -/
structure Terminating (manager : Manager) : Prop where
  operations : ∀ descent : Descent, descent.Admissible manager → descent.Ends manager
  value : ∀ assignment edge, manager.store.Live edge →
    manager.Answers (manager.evaluating assignment) id edge
  model : ∀ count edge, manager.store.Live edge → manager.Answers (manager.searching count) id edge
  modelCount : ∀ total counts edge, manager.store.Live edge →
    manager.Answers (manager.counting total) (· counts) edge
  tree : ∀ edge, manager.store.Live edge → manager.Answers manager.unfolding id edge
  /-- The bound that an operation sets itself is large enough. -/
  enough : ∀ edges, (manager.store.varsBelow edges).card < manager.depthBound
  /-- A collection sweeps one bucket after the other. -/
  walks : ∀ marked during, Store.Sweeping marked manager.store during →
    during.WalksEnd ∧ during.liveCount ≤ manager.store.liveCount

theorem Sound.terminating (sound : manager.Sound) : manager.Terminating where
  operations _ := Descent.ends sound
  value assignment _ := value_answers assignment sound.canonical
  model count _ := path_answers count sound.canonical
  modelCount total counts _ := count_answers total counts sound.canonical
  tree _ := tree_answers sound.canonical
  enough edges := by
    have few := Store.card_varsBelow_le manager.store edges
    have bound := card_testedVars_lt_depthBound sound.canonical
    rw [← depthBound_of_bare rfl] at bound
    exact Nat.lt_of_le_of_lt few bound
  walks marked during sweeping := by
    have orderly := sound.canonical.threaded.sweeping sound.canonical.allotted sweeping
    exact ⟨orderly.threaded.walksEnd orderly.allotted, orderly.liveCount_le⟩

/-- The managers that are met on the way from `start`: what whole calls leave, and what the recursions
leave that a call is made of. -/
inductive Meets (start : Manager) : Manager → Prop
  | start : Meets start start
  | call {manager : Manager} (call : Call) : Meets start manager → call.Admissible manager →
      Meets start (call.leaves manager)
  | recursion {manager : Manager} (descent : Descent) (fuel : Nat) : Meets start manager →
      descent.Admissible manager → descent.depth manager.store < fuel →
        Meets start (descent.leaves fuel manager)

theorem Meets.sound (meets : Meets start manager) (sound : start.Sound) : manager.Sound := by
  induction meets with
  | start => exact sound
  | call call _ admissible ih => exact call.leaves_sound ih admissible
  | recursion descent fuel _ admissible enough ih => exact (descent.grows ih admissible enough).sound

/-- **All recursions and all walks end in every manager that is met in a run.** -/
theorem attained_terminating (attained : Attained config start) (meets : Meets start manager) :
    manager.Terminating :=
  (meets.sound attained.sound).terminating

/-- In the middle of a call, after an exclusive or has been worked out in at most three nested steps. -/
theorem terminating_after_xor : Attained ⟨3, 1, 1⟩ twoVariables ∧
    Meets twoVariables ((Descent.apply .xor ⟨2, by decide⟩ ⟨3, by decide⟩).leaves 3 twoVariables) ∧
    ((Descent.apply .xor ⟨2, by decide⟩ ⟨3, by decide⟩).leaves 3 twoVariables).Terminating := by
  have live : ∀ edge ∈ (Descent.apply .xor ⟨2, by decide⟩ ⟨3, by decide⟩).edges,
      twoVariables.store.Live edge :=
    List.forall_mem_cons.mpr ⟨live_twoVariables.1, List.forall_mem_singleton.mpr live_twoVariables.2⟩
  have few : twoVariables.store.testedVars.card ≤ 2 := by decide +kernel
  have meets := Meets.recursion _ 3 .start ⟨live, trivial⟩
    (Nat.lt_succ_of_le ((Store.card_varsBelow_le _ _).trans few))
  exact ⟨attained_twoVariables, meets, attained_terminating attained_twoVariables meets⟩

end DecisionDiagram.Manager
