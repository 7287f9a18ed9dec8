import DecisionDiagram.Proofs.Manager.Collect

/-!
# Managers that differ in what they remember

Twins are sound managers with the same store and the same pinned edges. An action is alike in twins
when it comes to the same outcome in both and leaves twins. Confined actions are alike, collections
are, and so is all that is made of them. A sound manager is a twin of itself, so that what is alike
in all twins leaves a sound manager.
-/

set_option autoImplicit false

namespace DecisionDiagram.Manager

structure Twins (first second : Manager) : Prop where
  sound : first.Sound
  other : second.Sound
  store : second.store = first.store
  pinned : second.pinned = first.pinned

theorem Twins.refl {manager : Manager} (sound : manager.Sound) : manager.Twins manager :=
  ⟨sound, sound, rfl, rfl⟩

variable {Result Next : Type} {first second : Manager} {action : Action Result}
  {next : Result → Action Next} {post : Result → Store Node → Prop}
  {atEnd : Next → Store Node → Prop}

/-- The action comes to one outcome in both managers and leaves twins, of which the second is still
forgetful if it was before. -/
def Alike (action : Action Result) (first second : Manager) (post : Result → Store Node → Prop) :
    Prop :=
  ∃ outcome later other, action first = ending outcome later ∧
    action second = ending outcome other ∧ later.Twins other ∧
      (second.Forgetful → other.Forgetful) ∧ ∀ result, outcome = .ok result → post result later.store

theorem Confined.alike {scope : Scope} (twins : first.Twins second)
    (confined : Confined steady scope action first.store post) : Alike action first second post := by
  obtain ⟨outcome, after, run, built⟩ := confined
  obtain ⟨_, later, ran, grows, isAfter, rfl⟩ := run first twins.sound rfl
  obtain ⟨_, other, otherRan, otherGrows, isOther, rfl⟩ := run second twins.other twins.store
  refine ⟨_, later, other, ran, otherRan, ⟨grows.sound, otherGrows.sound, ?_, ?_⟩, ?_, ?_⟩
  · rw [isAfter, isOther]
  · rw [grows.pinned, otherGrows.pinned, twins.pinned]
  · exact fun forgetful =>
      ⟨otherGrows.recalls.trans forgetful.recalls, otherGrows.forgetful forgetful.caches⟩
  · rw [isAfter]
    exact built.returned

namespace Alike

theorem of_ok {result : Result} {later other : Manager} (run : action first = .ok result later)
    (otherRun : action second = .ok result other) (twins : later.Twins other)
    (forgets : second.Forgetful → other.Forgetful) (holds : post result later.store) :
    Alike action first second post := by
  refine ⟨.ok result, later, other, run, otherRun, twins, forgets, ?_⟩
  rintro _ ⟨⟩
  exact holds

theorem returns (twins : first.Twins second) {result : Result} (holds : post result first.store) :
    Alike (pure result) first second post :=
  of_ok rfl rfl twins id holds

theorem bind (alike : Alike action first second post)
    (rest : ∀ result later other, later.Twins other → post result later.store →
      Alike (next result) later other atEnd) : Alike (action >>= next) first second atEnd := by
  obtain ⟨outcome, later, other, run, otherRun, twins, forgets, holds⟩ := alike
  cases outcome with
  | ok result =>
    obtain ⟨last, final, otherFinal, ends, otherEnds, finalTwins, keepsForgetting, endHolds⟩ :=
      rest result later other twins (holds result rfl)
    exact ⟨last, final, otherFinal, (bind_ok run).trans ends, (bind_ok otherRun).trans otherEnds,
      finalTwins, keepsForgetting ∘ forgets, endHolds⟩
  | error fault =>
    exact ⟨.error fault, later, other, bind_error run, bind_error otherRun, twins, forgets,
      fun _ impossible => nomatch impossible⟩

end Alike

/-- A sweep does not look at the caches, and what it is to keep does not depend on them. -/
theorem collect_twins {edges : List Edge} (twins : first.Twins second)
    (live : ∀ edge ∈ edges, first.store.Live edge) :
    ∃ later other, collect edges first = .ok () later ∧ collect edges second = .ok () other ∧
      later.Twins other ∧ (second.Forgetful → other.Forgetful) ∧ Collected first edges later := by
  have otherLive : ∀ edge ∈ edges, second.store.Live edge := by
    rw [twins.store]
    exact live
  obtain ⟨marked, isMarked, sweeps⟩ := collect_eq_sweep twins.sound live
  obtain ⟨otherMarked, isOtherMarked, otherSweeps⟩ := collect_eq_sweep twins.other otherLive
  obtain ⟨later, run, collected⟩ := collect_spec twins.sound live
  obtain ⟨other, otherRun, otherCollected⟩ := collect_spec twins.other otherLive
  have sameMarks : otherMarked = marked := by
    funext index
    apply Bool.eq_iff_iff.mpr
    rw [isMarked, isOtherMarked, survivors, survivors, twins.store, twins.pinned]
  have sameStore : other.store = later.store := by
    rw [sweeps, onStore] at run
    rw [otherSweeps, onStore, sameMarks, twins.store] at otherRun
    cases swept : Store.sweep marked first.store with
    | error fault store =>
      rw [swept] at run
      cases run
    | ok _ store =>
      rw [swept] at run otherRun
      cases run
      cases otherRun
      rfl
  refine ⟨later, other, run, otherRun, ⟨collected.sound, otherCollected.sound, sameStore, ?_⟩, ?_,
    collected⟩
  · rw [collected.pinned, otherCollected.pinned, twins.pinned]
  · intro forgetful
    refine ⟨otherCollected.recalls.trans forgetful.recalls, ?_⟩
    rw [otherCollected.caches]
    exact forgetful.caches.clear

end DecisionDiagram.Manager
