import DecisionDiagram.Proofs.Run.Sequence

/-!
# Pins last

An edge is pinned with its sign, and its slot is kept by every collection, whatever the other edges of
the slot are. Only unpinning the same edge ends that. So between a pin and an unpin nothing below the
edge is lost or used for something else, however the run goes on.
-/

set_option autoImplicit false

namespace DecisionDiagram

namespace Manager

variable {Result Next : Type} {before middle after : Manager} {edge : Edge}
  {action : Action Result} {next : Result → Action Next} {post : Result → Store Node → Prop}
  {atEnd : Next → Store Node → Prop}

/-- The edge is pinned in `after`, which holds below it what `before` holds. -/
structure Protects (edge : Edge) (before after : Manager) : Prop where
  pinned : edge ∈ after.pinned
  agree : before.store.AgreeBelow after.store edge
  lastUsed : before.store.lastUsed ≤ after.store.lastUsed

namespace Protects

theorem of_store_eq (same : after.store = before.store) (pinned : edge ∈ after.pinned) :
    Protects edge before after := by
  refine ⟨pinned, ?_, ?_⟩
  · rw [same]
    exact fun _ _ => rfl
  · rw [same]

theorem trans (first : Protects edge before middle) (second : Protects edge middle after) :
    Protects edge before after :=
  ⟨second.pinned, first.agree.trans second.agree, first.lastUsed.trans second.lastUsed⟩

end Protects

theorem GrowsTo.protects (grows : before.GrowsTo after) (sound : before.Sound)
    (pinned : edge ∈ before.pinned) : Protects edge before after where
  pinned := by
    rw [grows.pinned]
    exact pinned
  agree := grows.store.agreeBelow sound.canonical (sound.pinned edge pinned)
  lastUsed := grows.store.lastUsed

theorem Collected.protects {edges : List Edge} (collected : Collected before edges after)
    (sound : before.Sound) (pinned : edge ∈ before.pinned) : Protects edge before after where
  pinned := by
    rw [collected.pinned]
    exact pinned
  agree := collected.agreeBelow sound (Store.mem_below_of_mem (List.mem_append_right edges pinned))
  lastUsed := Nat.le_of_eq collected.lastUsed.symm

/-! ## Actions -/

/-- Whether it returns or faults, the action does no harm to a pinned edge. -/
def Guards (edge : Edge) (action : Action Result) (before : Manager)
    (post : Result → Store Node → Prop) : Prop :=
  Leads action before
    (fun result after => after.Sound ∧ Protects edge before after ∧ post result after.store)
    fun _ after => Protects edge before after

namespace Guards

theorem bind (first : Guards edge action before post)
    (rest : ∀ result middle, middle.Sound → edge ∈ middle.pinned → post result middle.store →
      Guards edge (next result) middle atEnd) : Guards edge (action >>= next) before atEnd := by
  cases run : action before with
  | ok result middle =>
    obtain ⟨sound, guarded, holds⟩ := first.result result middle run
    refine Leads.of_eq (bind_ok run) ((rest result middle sound guarded.pinned holds).mono ?_ ?_)
    · rintro _ _ ⟨endSound, guardedRest, atEnd⟩
      exact ⟨endSound, guarded.trans guardedRest, atEnd⟩
    · exact fun _ _ guardedRest => guarded.trans guardedRest
  | error fault after => exact Leads.of_error (bind_error run) (first.fault fault after run)

theorem leaves {call : Call} (guards : Guards edge call.perform before fun _ _ => True) :
    Protects edge before (call.leaves before) := by
  unfold Call.leaves
  cases run : call.perform before with
  | ok answer after => exact (guards.result answer after run).2.1
  | error fault after => exact guards.fault fault after run

end Guards

theorem Confined.guards {scope : Scope}
    (confined : Confined steady scope action before.store post) (sound : before.Sound)
    (pinned : edge ∈ before.pinned) : Guards edge action before post := by
  have constructs : Constructs action before (fun result after => post result after.store) AnyFault :=
    confined.constructs sound fun _ _ => trivial
  apply constructs.mono
  · rintro result after ⟨grows, holds⟩
    exact ⟨grows.sound, grows.protects sound pinned, holds⟩
  · rintro fault after ⟨grows, _⟩
    exact grows.protects sound pinned

theorem collect_guards {edges : List Edge} (sound : before.Sound)
    (live : ∀ edge ∈ edges, before.store.Live edge) (pinned : edge ∈ before.pinned) :
    Guards edge (collect edges) before fun _ after => ∀ edge ∈ edges, after.Live edge := by
  obtain ⟨after, run, collected⟩ := collect_spec sound live
  refine Leads.of_ok run ⟨collected.sound, collected.protects sound pinned, fun edge member => ?_⟩
  exact collected.live (Store.mem_below_of_mem (List.mem_append_left _ member)) (live edge member)

theorem translateLayers_guards (circuit : Circuit) (threshold : Option Nat)
    {layers : List (List Nat)} {translation : Translation} (sound : before.Sound)
    (pinned : edge ∈ before.pinned) (kept : LiveTranslation before.store translation) :
    Guards edge (translateLayers circuit threshold layers translation) before fun _ _ => True := by
  induction layers generalizing before translation with
  | nil => exact Leads.of_ok rfl ⟨sound, .of_store_eq rfl pinned, trivial⟩
  | cons layer rest ih =>
    rw [translateLayers]
    apply ((translateLayer_repeatable circuit sound.canonical kept).confined.guards sound pinned).bind
    intro translated middle sound pinned kept
    -- the edges of the translation stay in use, collected or not
    have collects : Guards edge (collectAbove threshold translated) middle
        fun _ after => LiveTranslation after translated := by
      rcases collectAbove_cases threshold translated middle.store with skips | collects
      · exact Leads.of_ok (skips middle rfl) ⟨sound, .of_store_eq rfl pinned, kept⟩
      · refine Leads.of_eq (collects middle rfl) ((collect_guards sound kept.roots pinned).mono ?_
          fun _ _ guarded => guarded)
        rintro _ _ ⟨sound, guarded, live⟩
        exact ⟨sound, guarded, fun number other found => live other (mem_roots_of_found found)⟩
    exact collects.bind fun _ _ sound pinned kept => ih sound pinned kept

theorem translate_guards (circuit : Circuit) (threshold : Option Nat) (sound : before.Sound)
    (pinned : edge ∈ before.pinned) :
    Guards edge (translate circuit threshold) before fun _ _ => True := by
  refine ((translateInputs_repeatable sound.canonical
    (liveTranslation_empty _)).confined.guards sound pinned).bind ?_
  intro translation middle sound pinned kept
  exact translateLayers_guards circuit threshold sound pinned kept

end Manager

open Manager

/-! ## Calls -/

/-- Every call but the one that unpins it does no harm to a pinned edge. -/
theorem Call.leaves_protects {before : Manager} {edge : Edge} (call : Call) (sound : before.Sound)
    (admissible : call.Admissible before) (keeps : call ≠ .unpin edge)
    (pinned : edge ∈ before.pinned) : Protects edge before (call.leaves before) := by
  by_cases builds : call.Builds
  · exact (Call.leaves_of_builds sound admissible builds).protects sound pinned
  · cases call with
    | pin other => exact .of_store_eq rfl (List.mem_insert_of_mem pinned)
    | unpin other =>
      have different : edge ≠ other := fun same => keeps (congrArg Call.unpin same.symm)
      exact .of_store_eq rfl ((List.mem_erase_of_ne different).mpr pinned)
    | collect edges =>
      apply Guards.leaves
      apply (collect_guards sound admissible pinned).bind
      exact fun _ _ sound pinned _ => Leads.of_ok rfl ⟨sound, .of_store_eq rfl pinned, trivial⟩
    | translate circuit threshold =>
      apply Guards.leaves
      apply (translate_guards circuit threshold sound pinned).bind
      exact fun _ _ sound pinned _ => Leads.of_ok rfl ⟨sound, .of_store_eq rfl pinned, trivial⟩
    | _ => exact absurd trivial builds

namespace Manager

variable {before after : Manager} {edge : Edge} {calls : List Call}

theorem leavesAll_protects {manager : Manager} (sound : manager.Sound)
    (admissible : AdmissibleRun calls manager) (pinned : edge ∈ manager.pinned)
    (keeps : Call.unpin edge ∉ calls) : Protects edge manager (leavesAll calls manager) := by
  refine leavesAll_induction sound admissible (Protects.of_store_eq rfl pinned) ?_
  intro call member before sound here guarded
  have other : call ≠ .unpin edge := fun same => keeps (same ▸ member)
  exact guarded.trans (call.leaves_protects sound here other guarded.pinned)

/-- All that is below the edge in `before` is in use in `after`, at the same places and with the same
contents, and the edge has the same values. -/
structure Keeps (edge : Edge) (before after : Manager) : Prop where
  live : after.store.Live edge
  reaches : ∀ index, after.store.Reaches edge.index index ↔ before.store.Reaches edge.index index
  contents : ∀ index, before.store.Reaches edge.index index →
    ∃ node, before.store.contents index = some node ∧ after.store.contents index = some node
  value : ∀ assignment, after.value edge assignment = before.value edge assignment

theorem Protects.keeps (guarded : Protects edge before after) (sound : before.Sound)
    (afterSound : after.Sound) (live : before.store.Live edge) : Keeps edge before after where
  live := afterSound.pinned edge guarded.pinned
  reaches := guarded.agree.reaches_iff
  contents index reaches := by
    obtain ⟨top, onTop⟩ := live
    obtain ⟨node, held⟩ := sound.canonical.reaches_live onTop reaches
    exact ⟨node, held, (guarded.agree index reaches).trans held⟩
  value assignment := value_eq_of_agree sound.canonical afterSound.canonical guarded.agree
    guarded.lastUsed live assignment

/-- **Pins last.** After any run that starts with a pin and does not undo it, whatever it collects, the
edge has all that it had below it, and the same values. -/
theorem attained_pin_keeps {config : Config} {manager : Manager}
    (attained : Attained config manager) (admissible : AdmissibleRun (.pin edge :: calls) manager)
    (keeps : Call.unpin edge ∉ calls) :
    Keeps edge manager (leavesAll (.pin edge :: calls) manager) := by
  have sound := attained.sound
  obtain ⟨here, others⟩ := admissible
  have live : manager.store.Live edge := List.forall_mem_singleton.mp here
  have pinSound : ((Call.pin edge).leaves manager).Sound := (Call.pin edge).leaves_sound sound here
  have pinned : Protects edge manager ((Call.pin edge).leaves manager) :=
    .of_store_eq rfl List.mem_insert_self
  have guarded := leavesAll_protects pinSound others pinned.pinned keeps
  exact (pinned.trans guarded).keeps sound (leavesAll_sound pinSound others) live

/-- The complement of a literal is pinned. The literal itself is pinned and unpinned, and then all that
is not pinned is collected, also by a translation. -/
theorem pin_keeps_complement : ∃ manager, Attained ⟨3, 2, 2⟩ manager ∧
    Keeps ⟨-3, by decide⟩ manager (leavesAll [.pin ⟨-3, by decide⟩, .pin ⟨3, by decide⟩,
      .unpin ⟨3, by decide⟩, .collect [], .literal 4, .translate .empty (some 0)] manager) := by
  obtain ⟨manager, attained, _, live, _⟩ := attained_literals
  have regular : ∀ edge ∈ [(⟨3, by decide⟩ : Edge)], manager.store.Live edge :=
    List.forall_mem_singleton.mpr live
  have complement : ∀ edge ∈ [(⟨-3, by decide⟩ : Edge)], manager.store.Live edge :=
    List.forall_mem_singleton.mpr (Store.live_neg.mpr live)
  have admissible : AdmissibleRun [.pin ⟨-3, by decide⟩, .pin ⟨3, by decide⟩,
      .unpin ⟨3, by decide⟩, .collect [], .literal 4, .translate .empty (some 0)] manager :=
    ⟨complement, regular, regular, Call.admissible_of_no_edges rfl _,
      Call.admissible_of_no_edges rfl _, Call.admissible_of_no_edges rfl _, trivial⟩
  exact ⟨manager, attained, attained_pin_keeps attained admissible (by simp)⟩

end Manager

end DecisionDiagram
