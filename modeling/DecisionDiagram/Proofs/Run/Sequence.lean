import DecisionDiagram.Proofs.Run.Preservation
import DecisionDiagram.Proofs.Run.Transparency

/-!
# What a run of calls leaves

The next call starts from what the last one left. What holds at the start of a run and is kept by
each of its calls holds at its end.
-/

set_option autoImplicit false

namespace DecisionDiagram

/-- Nothing is collected by the call in this manager: it is no collection, and if it is a translation
with a threshold, it ends as it does without one. -/
def Call.Spares (manager : Manager) : Call → Prop
  | collect _ => False
  | translate circuit threshold =>
    (translate circuit threshold).perform manager = (translate circuit none).perform manager
  | _ => True

/-- A call that collects nothing only extends the store. -/
theorem Call.leaves_grown {manager : Manager} {call : Call} (sound : manager.Sound)
    (admissible : call.Admissible manager) (spares : call.Spares manager) :
    manager.store.Grown (call.leaves manager).store := by
  refine ⟨sound.canonical, (call.leaves_sound sound admissible).canonical, ?_⟩
  cases call with
  | collect edges => exact spares.elim
  | translate circuit threshold =>
    have same : (translate circuit threshold).leaves manager =
        (translate circuit none).leaves manager := by
      unfold leaves
      rw [spares]
    rw [same]
    exact ((translate circuit none).leaves_extends sound admissible id).1
  | _ => exact (Call.leaves_extends _ sound admissible id).1

namespace Manager

/-- What the calls leave of a manager, one after the other. -/
def leavesAll : List Call → Manager → Manager
  | [], manager => manager
  | call :: rest, manager => leavesAll rest (call.leaves manager)

/-- Nothing is collected in a run. -/
def SparingRun : List Call → Manager → Prop
  | [], _ => True
  | call :: rest, manager => call.Spares manager ∧ SparingRun rest (call.leaves manager)

variable {manager : Manager} {calls : List Call}

theorem leavesAll_induction {motive : Manager → Prop} (sound : manager.Sound)
    (admissible : AdmissibleRun calls manager) (start : motive manager)
    (step : ∀ call ∈ calls, ∀ before : Manager, before.Sound → call.Admissible before →
      motive before → motive (call.leaves before)) : motive (leavesAll calls manager) := by
  induction calls generalizing manager with
  | nil => exact start
  | cons call rest ih =>
    obtain ⟨here, others⟩ := admissible
    have stepped := step call List.mem_cons_self manager sound here start
    exact ih (call.leaves_sound sound here) others stepped fun other member =>
      step other (List.mem_cons_of_mem call member)

theorem leavesAll_sound (sound : manager.Sound) (admissible : AdmissibleRun calls manager) :
    (leavesAll calls manager).Sound :=
  leavesAll_induction sound admissible sound fun call _ _ sound here _ => call.leaves_sound sound here

/-- Without collections, nothing is lost on the way. -/
theorem leavesAll_grown (sound : manager.Sound) (admissible : AdmissibleRun calls manager)
    (spares : SparingRun calls manager) : manager.store.Grown (leavesAll calls manager).store := by
  induction calls generalizing manager with
  | nil => exact .refl sound.canonical
  | cons call rest ih =>
    obtain ⟨here, others⟩ := admissible
    obtain ⟨sparesHere, sparesOthers⟩ := spares
    exact (Call.leaves_grown sound here sparesHere).trans
      (ih (call.leaves_sound sound here) others sparesOthers)

end Manager

end DecisionDiagram
