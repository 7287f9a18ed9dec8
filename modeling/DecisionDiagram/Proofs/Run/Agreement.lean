import DecisionDiagram.Proofs.Run.Sequence

/-!
# Two ways to one function

Calls that come to the same function return the same edge, whichever is first and whatever is called
in between, as long as nothing is collected.
-/

set_option autoImplicit false

namespace DecisionDiagram

namespace Manager

/-- If the second call returns at some time after the first one has returned, with no collection in
between, it returns the same. -/
def SameLater (first second : Call) (manager : Manager) : Prop :=
  ∀ (answer : Answer) (after : Manager) (calls : List Call) (other : Answer) (last : Manager),
    first.perform manager = .ok answer after → AdmissibleRun calls after →
      SparingRun calls after → second.perform (leavesAll calls after) = .ok other last →
        other = answer

end Manager

namespace Instruction

open Manager

variable {instruction other : Instruction Edge} {manager after : Manager}

theorem done_of_returned {answer : Answer} (sound : manager.Sound)
    (live : ∀ edge ∈ instruction.operands, manager.store.Live edge)
    (run : instruction.call.perform manager = .ok answer after) :
    manager.GrowsTo after ∧
      Answers (instruction.map manager.store.denote).task answer after.store := by
  have confined := instruction.perform_confined sound.canonical live (Task.covered_any _)
  have constructs : Constructs instruction.call.perform manager
      (fun answer after => Answers (instruction.map manager.store.denote).task answer after.store)
      AnyFault := confined.constructs sound fun _ _ => trivial
  exact constructs.result answer after run

theorem sameLater (sound : manager.Sound)
    (live : ∀ edge ∈ instruction.operands, manager.store.Live edge)
    (otherLive : ∀ edge ∈ other.operands, manager.store.Live edge)
    (same : (instruction.map manager.store.denote).task.target =
      (other.map manager.store.denote).task.target) :
    SameLater instruction.call other.call manager := by
  intro answer after calls otherAnswer last run admissible spares otherRun
  obtain ⟨grows, edge, rfl, done⟩ := done_of_returned sound live run
  have between := leavesAll_grown grows.sound admissible spares
  have laterSound := leavesAll_sound grows.sound admissible
  have later := (grows.grown sound).trans between
  obtain ⟨more, result, rfl, otherDone⟩ :=
    done_of_returned laterSound (fun edge member => later.live (otherLive edge member)) otherRun
  -- the operands stand for the same functions still, so both tasks have one target
  rw [map_denote_eq later otherLive] at otherDone
  have represents := more.represents laterSound (between.represents done.represents)
  rw [same] at represents
  rw [otherDone.represents.unique more.sound.canonical represents]

end Instruction

end DecisionDiagram
