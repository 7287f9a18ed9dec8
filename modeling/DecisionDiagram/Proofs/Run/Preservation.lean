import DecisionDiagram.Proofs.Manager.Run

/-!
# Calls that collect nothing disturb nothing

What a manager holds before a call it holds after it, at the same place and with the same values,
unless the call collects. It does not matter whether the call returns, is refused, or runs out of
slots halfway: new nodes go to free slots and to the ends of the chains.
-/

set_option autoImplicit false

namespace DecisionDiagram

namespace Manager

variable {before after : Manager}

/-- `after` holds what `before` holds, and perhaps more. -/
structure Preserves (before after : Manager) : Prop where
  contents : ∀ index node, before.store.contents index = some node →
    after.store.contents index = some node
  value : ∀ edge, before.store.Live edge → ∀ assignment,
    after.value edge assignment = before.value edge assignment
  lastUsed : before.store.lastUsed ≤ after.store.lastUsed
  liveCount : before.store.liveCount ≤ after.store.liveCount
  chain : ∀ number slots, before.store.chain number = .ok slots →
    ∃ more, after.store.chain number = .ok (slots ++ more)

theorem preserves_of_extends (sound : before.Sound) (afterSound : after.Sound)
    (grows : before.store.Extends after.store) : before.Preserves after where
  contents := grows.contents
  value edge live assignment :=
    value_eq_of_agree sound.canonical afterSound.canonical (grows.agreeBelow sound.canonical live)
      grows.lastUsed live assignment
  lastUsed := grows.lastUsed
  liveCount := grows.liveCount
  chain number slots read := by
    have chain := sound.canonical.threaded.chainOf_of_chain read
    obtain ⟨more, longer⟩ := grows.chain number slots chain
    exact ⟨more, afterSound.canonical.threaded.chain_eq_ok longer⟩

end Manager

open Manager

theorem Call.pinnedAfter_of_builds {call : Call} (builds : call.Builds) (pinned : List Edge) :
    call.pinnedAfter pinned = pinned := by
  cases call with
  | pin _ | unpin _ => exact builds.elim
  | _ => rfl

/-- Pins are the business of two calls, and only collections take nodes out of the store. -/
theorem Call.leaves_extends {before : Manager} (call : Call) (sound : before.Sound)
    (admissible : call.Admissible before) (keeps : ¬call.Collects) :
    before.store.Extends (call.leaves before).store ∧
      (call.leaves before).pinned = call.pinnedAfter before.pinned := by
  by_cases builds : call.Builds
  · have grows := Call.leaves_of_builds sound admissible builds
    exact ⟨grows.store, by rw [grows.pinned, call.pinnedAfter_of_builds builds]⟩
  · cases call with
    | pin edge => exact ⟨.refl _, rfl⟩
    | unpin edge => exact ⟨.refl _, rfl⟩
    | collect edges => exact absurd trivial keeps
    | translate circuit threshold =>
      cases threshold with
      | none => exact absurd trivial builds
      | some _ => exact absurd trivial keeps
    | _ => exact absurd trivial builds

namespace Manager

/-- **Calls that collect nothing disturb nothing**, whatever they are asked for and however they end,
in every state of every run. -/
theorem attained_preserves {config : Config} {manager : Manager} {call : Call}
    (attained : Attained config manager)
    (admissible : call.Admissible manager) (keeps : ¬call.Collects) :
    manager.Preserves (call.leaves manager) ∧
      (call.leaves manager).pinned = call.pinnedAfter manager.pinned := by
  have sound := attained.sound
  obtain ⟨grows, pins⟩ := call.leaves_extends sound admissible keeps
  exact ⟨preserves_of_extends sound (call.leaves_sound sound admissible) grows, pins⟩

/-- Room for one more node: the call stores the first of two literals, runs out of slots at the
second, and what was there before is untouched. -/
theorem preserves_when_full : ∃ manager after, Attained ⟨2, 1, 1⟩ manager ∧
    (Call.clauses [[2], [-3]]).perform manager = .error (.storageFull 4) after ∧
      manager.store.liveCount < after.store.liveCount ∧ manager.Preserves after := by
  have attained : ∃ manager after, Attained ⟨2, 1, 1⟩ manager ∧
      (Call.clauses [[2], [-3]]).perform manager = .error (.storageFull 4) after ∧
        manager.store.liveCount < after.store.liveCount := by
    refine ⟨_, _, .called (.literal 1) (.created rfl) ?_, by with_unfolding_all rfl, by decide +kernel⟩
    exact fun edge member => absurd member List.not_mem_nil
  obtain ⟨manager, after, attained, run, more⟩ := attained
  have preserves := (attained_preserves attained
    (fun edge member => absurd member List.not_mem_nil : (Call.clauses [[2], [-3]]).Admissible manager)
    (fun collects => collects : ¬(Call.clauses [[2], [-3]]).Collects)).1
  rw [Call.leaves_of_error run] at preserves
  exact ⟨manager, after, attained, run, more, preserves⟩

end Manager

end DecisionDiagram
