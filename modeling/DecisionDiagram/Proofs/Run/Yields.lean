import DecisionDiagram.Proofs.Run.Agreement

/-!
# What is returned in a run

A run is looked at from its end. Whenever a call was made in it, if nothing was collected, the edge
that the call returned is still in use and stands for what the call was to come to. So two calls that
come to the same function returned the same edge, in whatever order they were made and whatever was
called in between.
-/

set_option autoImplicit false

namespace DecisionDiagram

theorem Call.perform_of_outcome {call : Call} {manager : Manager} {answer : Answer}
    (ends : call.outcome manager = .ok answer) :
    call.perform manager = .ok answer (call.leaves manager) := by
  unfold outcome at ends
  unfold leaves
  cases run : call.perform manager with
  | ok found after =>
    rw [run] at ends
    rw [Except.ok.inj ends]
  | error fault after =>
    rw [run] at ends
    cases ends

namespace Manager

/-- At some point of the run the call is made, and it returns the edge. -/
inductive Yields : List Call → Manager → Call → Edge → Prop
  | here {manager : Manager} {call : Call} {rest : List Call} {edge : Edge} :
      call.outcome manager = .ok (.edges [edge]) → Yields (call :: rest) manager call edge
  | later {manager : Manager} {first call : Call} {rest : List Call} {edge : Edge} :
      Yields rest (first.leaves manager) call edge → Yields (first :: rest) manager call edge

/-- A run of calls about edges in use, in which nothing is collected. -/
structure Uncollected (calls : List Call) (manager : Manager) : Prop where
  admissible : AdmissibleRun calls manager
  spares : SparingRun calls manager

/-- Whenever both calls return in one run without collections, they return the same. -/
def Concur (first second : Call) (manager : Manager) : Prop :=
  ∀ calls, Uncollected calls manager → ∀ result other, Yields calls manager first result →
    Yields calls manager second other → result = other

variable {calls rest : List Call} {manager : Manager} {call : Call} {edge same : Edge}
  {instruction other : Instruction Edge}

theorem Uncollected.tail (run : Uncollected (call :: rest) manager) :
    Uncollected rest (call.leaves manager) :=
  ⟨run.admissible.2, run.spares.2⟩

theorem Uncollected.grown (run : Uncollected calls manager) (sound : manager.Sound) :
    manager.store.Grown (leavesAll calls manager).store :=
  leavesAll_grown sound run.admissible run.spares

namespace Yields

/-- The moment at which the call returns the edge: what the run started with is still there, and what
the call leaves stays to the end. -/
theorem moment (yields : Yields calls manager call edge) (sound : manager.Sound)
    (run : Uncollected calls manager) :
    ∃ before after : Manager, before.Sound ∧ manager.store.Grown before.store ∧
      call.Admissible before ∧ call.perform before = .ok (.edges [edge]) after ∧
        after.store.Grown (leavesAll calls manager).store := by
  induction yields with
  | @here manager call rest edge returned =>
    have later := run.tail.grown (call.leaves_sound sound run.admissible.1)
    exact ⟨manager, call.leaves manager, sound, .refl sound.canonical, run.admissible.1,
      Call.perform_of_outcome returned, later⟩
  | @later manager first call rest edge _ ih =>
    have step := Call.leaves_grown sound run.admissible.1 run.spares.1
    obtain ⟨before, after, beforeSound, grown, rest⟩ :=
      ih (first.leaves_sound sound run.admissible.1) run.tail
    exact ⟨before, after, beforeSound, step.trans grown, rest⟩

/-- At the end of the run, the edge that the call returned has done the task of its operands. -/
theorem done (yields : Yields calls manager instruction.call edge) (sound : manager.Sound)
    (run : Uncollected calls manager) :
    (instruction.map (leavesAll calls manager).store.denote).task.Done edge
      (leavesAll calls manager).store := by
  obtain ⟨before, after, beforeSound, _, live, returned, later⟩ := yields.moment sound run
  rw [Call.Admissible, instruction.edges_call] at live
  obtain ⟨grows, _, isEdge, done⟩ := Instruction.done_of_returned beforeSound live returned
  cases isEdge
  have whole := (grows.grown beforeSound).trans later
  rw [Instruction.map_denote_eq whole live]
  exact done.grow later

theorem represents (yields : Yields calls manager instruction.call edge) (sound : manager.Sound)
    (run : Uncollected calls manager) :
    (leavesAll calls manager).store.Represents edge
      (instruction.map (leavesAll calls manager).store.denote).task.target :=
  (yields.done sound run).represents

/-- What stands for the function that a call was to come to is what the call returned. -/
theorem eq_of_represents (yields : Yields calls manager instruction.call edge)
    (sound : manager.Sound) (run : Uncollected calls manager)
    (represents : (leavesAll calls manager).store.Represents same
      (instruction.map (leavesAll calls manager).store.denote).task.target) : edge = same :=
  (yields.represents sound run).unique (leavesAll_sound sound run.admissible).canonical represents

end Yields

theorem concur_of_target_eq (sound : manager.Sound)
    (equal : ∀ meaning : Edge → BoolFunction,
      (instruction.map meaning).task.target = (other.map meaning).task.target) :
    Concur instruction.call other.call manager := by
  intro calls run result answer yields otherYields
  refine yields.eq_of_represents sound run ?_
  rw [equal]
  exact otherYields.represents sound run

/-! ## Calls that change nothing -/

/-- The call finds the edge in the manager, which stays as it is. -/
structure Finds (manager : Manager) (call : Call) (edge : Edge) : Prop where
  admissible : call.Admissible manager
  spares : call.Spares manager
  returns : call.perform manager = .ok (.edges [edge]) manager

variable {found : List (Call × Edge)}

theorem Uncollected.of_finds (all : ∀ step ∈ found, manager.Finds step.1 step.2) :
    Uncollected (found.map Prod.fst) manager := by
  induction found with
  | nil => exact ⟨trivial, trivial⟩
  | cons step rest ih =>
    obtain ⟨finds, others⟩ := List.forall_mem_cons.mp all
    have run := ih others
    rw [← Call.leaves_of_ok finds.returns] at run
    exact ⟨⟨finds.admissible, run.admissible⟩, finds.spares, run.spares⟩

theorem Yields.of_finds (all : ∀ step ∈ found, manager.Finds step.1 step.2) :
    ∀ step ∈ found, Yields (found.map Prod.fst) manager step.1 step.2 := by
  induction found with
  | nil => exact fun _ member => absurd member List.not_mem_nil
  | cons step rest ih =>
    obtain ⟨finds, others⟩ := List.forall_mem_cons.mp all
    have later := ih others
    rw [← Call.leaves_of_ok finds.returns] at later
    refine List.forall_mem_cons.mpr ⟨.here ?_, fun other member => .later (later other member)⟩
    rw [Call.outcome, finds.returns]

/-! ## A small manager -/

/-- The second variable lies in slot 2, and its conjunction with the first one in slot 3. -/
def twoVariables : Manager where
  store :=
    { slots := #[⟨.terminal, 0, true⟩, ⟨.terminal, 0, true⟩, ⟨⟨2, .zero, .one⟩, 3, true⟩,
        ⟨⟨1, .zero, ⟨2, by decide⟩⟩, 0, true⟩, ⟨.terminal, 0, false⟩, ⟨.terminal, 0, false⟩,
        ⟨.terminal, 0, false⟩, ⟨.terminal, 0, false⟩]
      buckets := #[0, 2]
      minFree := 4
      lastUsed := 3
      liveCount := 3 }
  caches := .empty true
  pinned := []
  recalls := true

theorem live_twoVariables : twoVariables.store.Live ⟨2, by decide⟩ ∧
    twoVariables.store.Live ⟨3, by decide⟩ :=
  ⟨⟨⟨2, .zero, .one⟩, rfl⟩, ⟨⟨1, .zero, ⟨2, by decide⟩⟩, rfl⟩⟩

theorem room_twoVariables : ¬twoVariables.store.Full := by
  intro full
  obtain ⟨_, held⟩ := full 4 (by decide) (by decide)
  cases held

theorem tests_twoVariables {var : Nat} (tests : twoVariables.store.Tests edge var) : var ≤ 2 := by
  have bound : ∀ tested ∈ twoVariables.store.testedVars, tested ≤ 2 := by decide +kernel
  exact bound var (Store.Canonical.tests_mem_testedVars tests)

theorem attained_twoVariables : Attained ⟨3, 1, 1⟩ twoVariables := by
  have made : ∃ manager, Attained ⟨3, 1, 1⟩ manager ∧ manager = twoVariables := by
    refine ⟨_, .called (.node 1 .zero ⟨2, by decide⟩) (.called (.literal 2) (.created rfl)
      (Call.admissible_of_no_edges rfl _)) ?_, by with_unfolding_all rfl⟩
    exact List.forall_mem_cons.mpr ⟨⟨.terminal, by decide +kernel⟩,
      List.forall_mem_singleton.mpr ⟨⟨2, .zero, .one⟩, by decide +kernel⟩⟩
  obtain ⟨_, attained, rfl⟩ := made
  exact attained

end Manager

end DecisionDiagram
