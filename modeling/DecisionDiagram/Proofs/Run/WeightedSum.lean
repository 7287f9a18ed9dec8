import DecisionDiagram.Proofs.Manager.Run
import DecisionDiagram.Proofs.Manager.TrueWeight

/-!
# Weighted sums are exact

In every state of every run, a weighted sum of literals is compared with a bound as the integers are,
for every assignment of the variables. The literals may come in any order, and a variable any number
of times and with both signs.
-/

set_option autoImplicit false

namespace DecisionDiagram.Manager

variable {manager : Manager} {weights literals : List Int} {edge : Edge}

/-- Under every assignment of the variables of the literals, the edge says how the sum of the weights
whose literals are true compares with the bound. -/
structure Weighs (manager : Manager) (threshold : Threshold) (weights literals : List Int)
    (edge : Edge) : Prop where
  live : manager.store.Live edge
  value : ∀ assignment : List Bool, (∀ literal ∈ literals, literal.natAbs ≤ assignment.length) →
    Covers manager.store assignment edge ∧ manager.value edge assignment =
      .ok (threshold.holds (trueWeight (valuationOf assignment) (weights.zip literals)))

theorem dependsOn_trueWeight {count : Nat} (inside : ∀ literal ∈ literals, literal.natAbs ≤ count)
    (threshold : Threshold) :
    DependsOn (fun valuation => threshold.holds (trueWeight valuation (weights.zip literals)))
      {var | var ≤ count} := by
  intro valuation other same
  refine congrArg threshold.holds (trueWeight_congr fun term member => ?_)
  exact same _ (inside term.2 (List.of_mem_zip member).2)

theorem weighs_of_represents {threshold : Threshold} (canonical : manager.store.Canonical)
    (represents : manager.store.Represents edge
      fun valuation => threshold.holds (trueWeight valuation (weights.zip literals))) :
    manager.Weighs threshold weights literals edge where
  live := represents.live
  value _ inside :=
    have depends := dependsOn_trueWeight inside threshold
    ⟨(covers_iff_dependsOn canonical represents).mpr depends,
      value_of_dependsOn canonical represents depends⟩

/-- **Weighted sums are exact**, and unless a literal cannot be asked for, only a full store is in the
way. -/
theorem attained_weighs {config : Config} (attained : Attained config manager)
    (well : WellWeighed weights literals) (comparison : Comparison) (bound : Int) :
    Leads (weightedSum comparison weights literals bound) manager
      (fun edge after => after.Weighs ⟨comparison, bound⟩ weights literals edge)
      fun fault after => OutOfSpace fault after ∨ leastCode ∈ literals := by
  have sound := attained.sound
  have covered : (weightedSumTask comparison weights literals bound).Covered
      ⟨Set.univ, closed_univ, fun _ => leastCode ∈ literals⟩ := by
    refine ⟨fun _ _ => trivial, fun improper _ => ?_⟩
    by_contra notLeast
    exact improper (well.task_proper comparison bound notLeast)
  have confined := weightedSum_confined comparison weights literals bound sound.canonical covered
  apply (confined.constructs sound fun _ least => least).mono
  · rintro edge after ⟨grows, done⟩
    apply weighs_of_represents grows.sound.canonical
    rw [← well.task_target done.proper]
    exact done.represents
  · exact fun fault after ⟨_, faulted⟩ => faulted

/-- A variable comes three times and with both signs, and not in the order of the variables. -/
theorem weighs_repeated_variable : ∃ manager, Attained ⟨3, 2, 2⟩ manager ∧
    Leads (weightedSum .atMost [2, 1, 3, 1] [2, -1, -2, 2] 4) manager
      (fun edge after => after.Weighs ⟨.atMost, 4⟩ [2, 1, 3, 1] [2, -1, -2, 2] edge)
      fun fault after => OutOfSpace fault after ∨ leastCode ∈ [2, -1, -2, 2] := by
  obtain ⟨manager, attained, _⟩ := attained_literals
  have well : WellWeighed [2, 1, 3, 1] [2, -1, -2, 2] :=
    ⟨rfl, by decide, by decide, by decide⟩
  exact ⟨manager, attained, attained_weighs attained well .atMost 4⟩

end DecisionDiagram.Manager
