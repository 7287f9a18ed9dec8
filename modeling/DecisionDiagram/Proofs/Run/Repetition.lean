import DecisionDiagram.Proofs.Run.Sequence

/-!
# Doing a call again is free

All that a call has stored on its way is found again as long as nothing is collected, also where the
work of the first time was skipped because an answer was remembered. So the second time needs no slot.
-/

set_option autoImplicit false

namespace DecisionDiagram.Manager

/-- **Doing a call again is free**, whatever was called in between, if nothing was collected: the
answer is the same, and the store is left as it is. -/
theorem attained_repeats {config : Config} {manager after : Manager} {call : Call} {answer : Answer}
    {calls : List Call} (attained : Attained config manager) (admissible : call.Admissible manager)
    (builds : call.Builds) (returned : call.perform manager = .ok answer after)
    (run : AdmissibleRun calls after) (spares : SparingRun calls after) :
    ∃ last, call.perform (leavesAll calls after) = .ok answer last ∧
      last.store = (leavesAll calls after).store := by
  have afterSound : after.Sound := by
    rw [← Call.leaves_of_ok returned]
    exact call.leaves_sound attained.sound admissible
  have repeatable := Call.perform_repeatable attained.sound.canonical admissible builds
  exact repeatable.run_again attained.sound returned (leavesAll_sound afterSound run)
    (leavesAll_grown afterSound run spares)

/-- A node takes the last slot, a literal is refused, a translation has nothing to collect, and the
same node is had again. -/
theorem node_again_when_full : ∃ manager after last, Attained ⟨2, 1, 1⟩ manager ∧
    (Call.node 1 ⟨1, by decide⟩ ⟨-2, by decide⟩).perform manager =
      .ok (.edges [⟨-3, by decide⟩]) after ∧
    (Call.literal 3).outcome after = .error (.storageFull 4) ∧
    (Call.node 1 ⟨1, by decide⟩ ⟨-2, by decide⟩).perform
        (leavesAll [.literal 3, .translate .empty (some 4)] after) =
      .ok (.edges [⟨-3, by decide⟩]) last ∧
    last.store = (leavesAll [.literal 3, .translate .empty (some 4)] after).store := by
  have full : ∃ manager after, Attained ⟨2, 1, 1⟩ manager ∧
      (Call.node 1 ⟨1, by decide⟩ ⟨-2, by decide⟩).Admissible manager ∧
      (Call.node 1 ⟨1, by decide⟩ ⟨-2, by decide⟩).perform manager =
        .ok (.edges [⟨-3, by decide⟩]) after ∧
      (Call.literal 3).outcome after = .error (.storageFull 4) := by
    refine ⟨_, _, .called (.literal 2) (.created rfl) (Call.admissible_of_no_edges rfl _), ?_,
      by with_unfolding_all rfl, by with_unfolding_all rfl⟩
    refine List.forall_mem_cons.mpr ⟨⟨.terminal, ?_⟩, List.forall_mem_singleton.mpr
      ⟨⟨2, .zero, .one⟩, ?_⟩⟩
    all_goals decide +kernel
  obtain ⟨manager, after, attained, admissible, returned, refused⟩ := full
  have run : AdmissibleRun [.literal 3, .translate .empty (some 4)] after :=
    ⟨Call.admissible_of_no_edges rfl _, Call.admissible_of_no_edges rfl _, trivial⟩
  have spares : SparingRun [.literal 3, .translate .empty (some 4)] after := ⟨trivial, rfl, trivial⟩
  obtain ⟨last, again, unchanged⟩ :=
    attained_repeats attained admissible trivial returned run spares
  exact ⟨manager, after, last, attained, returned, refused, again, unchanged⟩

end DecisionDiagram.Manager
