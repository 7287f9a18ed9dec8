import DecisionDiagram.Manager.Collect
import DecisionDiagram.Proofs.Manager.Construct
import DecisionDiagram.Proofs.Manager.Reach
import DecisionDiagram.Proofs.Store.Sweep

/-!
# What a collection leaves

A collection keeps the slots below the given edges and the pinned ones, and everything in them. The
marked slots are closed under children, so the store stays canonical, and every kept edge stands for
the function that it stood for before.
-/

set_option autoImplicit false

namespace DecisionDiagram.Manager

variable {before after : Manager} {edges : List Edge}

/-- The slots that a collection keeps. -/
def survivors (manager : Manager) (edges : List Edge) : Set Nat :=
  manager.store.below (edges ++ manager.pinned)

/-- `after` is what a collection with some edges leaves of `before`. -/
structure Collected (before : Manager) (edges : List Edge) (after : Manager) : Prop where
  sound : after.Sound
  kept : ∀ index ∈ before.survivors edges,
    after.store.contents index = before.store.contents index
  dropped : ∀ index, index ∉ before.survivors edges → after.store.contents index = none
  chain : ∀ marked : Nat → Bool, (∀ index, marked index ↔ index ∈ before.survivors edges) →
    ∀ number slots, before.store.ChainOf number slots →
      after.store.ChainOf number (slots.filter marked)
  capacity : after.store.capacity = before.store.capacity
  bucketCount : after.store.bucketCount = before.store.bucketCount
  lastUsed : after.store.lastUsed = before.store.lastUsed
  caches : after.caches = before.caches.clear
  pinned : after.pinned = before.pinned
  recalls : after.recalls = before.recalls

/-- What is left of a canonical store by a sweep that marks the terminal and the children of what it
marks. -/
theorem canonical_of_swept {store swept : Store Node} {marked : Nat → Bool}
    (canonical : store.Canonical) (threaded : swept.Threaded {1})
    (sweeps : store.Swept marked {index | index ∉ ({1} : Set Nat)} swept)
    (closed : ∀ parent child, marked parent → store.Child parent child → marked child) :
    swept.Canonical where
  allotted := sweeps.allotted
  threaded := threaded
  terminal := by
    rw [sweeps.kept 1 fun inner => absurd rfl inner]
    exact canonical.terminal
  capacity_le := by
    rw [sweeps.capacity]
    exact canonical.capacity_le
  normal := by
    intro index node held inner
    obtain ⟨heldBefore, safe⟩ := sweeps.contents_eq_some_iff.mp held
    have normal := canonical.normal index node heldBefore inner
    have above : ∀ edge, store.Child index edge.index → store.From (node.var + 1) edge →
        swept.From (node.var + 1) edge := by
      rintro edge follows ⟨child, childHeld, tests⟩
      refine ⟨child, sweeps.contents_eq_some_iff.mpr ⟨childHeld, fun _ => ?_⟩, tests⟩
      exact closed index edge.index (safe inner) follows
    exact
      { normal with
        low_from := above _ ⟨node, heldBefore, Or.inl rfl⟩ normal.low_from
        high_from := above _ ⟨node, heldBefore, Or.inr rfl⟩ normal.high_from }

/-- A collection is a sweep with emptied caches, and it marks what it is to keep. -/
theorem collect_eq_sweep (sound : before.Sound) (live : ∀ edge ∈ edges, before.store.Live edge) :
    ∃ marked : Nat → Bool, (∀ index, marked index ↔ index ∈ before.survivors edges) ∧
      collect edges before =
        onStore (Store.sweep marked) { before with caches := before.caches.clear } := by
  have rootsLive : ∀ edge ∈ edges ++ before.pinned, before.store.Live edge := by
    intro edge member
    rcases List.mem_append.mp member with given | pinned
    · exact live edge given
    · exact sound.pinned edge pinned
  let cleared : Manager := { before with caches := before.caches.clear }
  have clears : changeCaches Caches.clear before = .ok () cleared := rfl
  obtain ⟨marked, answer, isMarked⟩ := @reachable_spec cleared sound.canonical _ rootsLive
  have asked : ask (fun manager => manager.reachable (edges ++ manager.pinned)) cleared =
      .ok marked cleared := ask_ok answer
  refine ⟨marked.contains, isMarked, ?_⟩
  unfold collect
  rw [bind_ok clears, bind_ok asked]

theorem collect_spec (sound : before.Sound) (live : ∀ edge ∈ edges, before.store.Live edge) :
    ∃ after, collect edges before = .ok () after ∧ Collected before edges after := by
  have canonical := sound.canonical
  obtain ⟨marked, isMarked, sweepOnly⟩ := collect_eq_sweep sound live
  have closed : ∀ parent child, marked parent → before.store.Child parent child → marked child := by
    intro parent child member follows
    exact (isMarked child).mpr (canonical.child_mem_below ((isMarked parent).mp member) follows)
  obtain ⟨swept, run, threaded, sweeps, bucketCount, chains⟩ :=
    Store.sweep_spec marked canonical.threaded canonical.allotted
  have kept : ∀ index ∈ before.survivors edges,
      swept.contents index = before.store.contents index := fun index member =>
    sweeps.kept index fun _ => (isMarked index).mpr member
  refine ⟨{ before with caches := before.caches.clear, store := swept }, ?_, ?_⟩
  · rw [sweepOnly]
    exact onStore_ok run
  · refine ⟨⟨canonical_of_swept canonical threaded sweeps closed, .clear _ _, ?_⟩, kept, ?_, ?_,
      sweeps.capacity, bucketCount, sweeps.lastUsed, rfl, rfl, rfl⟩
    · intro edge pinned
      obtain ⟨node, held⟩ := sound.pinned edge pinned
      have survives : edge.index ∈ before.survivors edges :=
        Store.mem_below_of_mem (List.mem_append_right edges pinned)
      exact ⟨node, (kept _ survives).trans held⟩
    · intro index dead
      refine sweeps.dropped index (fun terminal => dead (Or.inl terminal)) ?_
      exact Bool.eq_false_of_not_eq_true fun member => dead ((isMarked index).mp member)
    · intro same isSame number slots chain
      have equal : slots.filter same = slots.filter marked := by
        refine List.filter_congr fun index _ => Bool.eq_iff_iff.mpr ?_
        rw [isSame, isMarked]
      rw [equal]
      exact chains number slots chain

namespace Collected

theorem agreeBelow (collected : Collected before edges after) (sound : before.Sound) {edge : Edge}
    (survives : edge.index ∈ before.survivors edges) : before.store.AgreeBelow after.store edge := by
  intro index reaches
  apply collected.kept index
  induction reaches with
  | refl => exact survives
  | tail _ follows ih => exact sound.canonical.child_mem_below ih follows

/-- The edges with a slot that is kept stand for the same functions as before. -/
theorem represents (collected : Collected before edges after) (sound : before.Sound) {edge : Edge}
    {function : BoolFunction} (survives : edge.index ∈ before.survivors edges)
    (represents : before.store.Represents edge function) :
    after.store.Represents edge function := by
  obtain ⟨node, held⟩ := represents.live
  refine ⟨⟨node, (collected.kept _ survives).trans held⟩, ?_⟩
  rw [sound.canonical.denote_eq_of_agree collected.sound.canonical
    (collected.agreeBelow sound survives) represents.live, represents.denote_eq]

theorem live (collected : Collected before edges after) {edge : Edge}
    (survives : edge.index ∈ before.survivors edges) (live : before.store.Live edge) :
    after.store.Live edge := by
  obtain ⟨node, held⟩ := live
  exact ⟨node, (collected.kept _ survives).trans held⟩

theorem functions_subset (collected : Collected before edges after) (sound : before.Sound) :
    after.store.functions ⊆ before.store.functions := by
  rintro function ⟨edge, represents⟩
  obtain ⟨node, held⟩ := represents.live
  have survives : edge.index ∈ before.survivors edges := by
    by_contra dead
    rw [collected.dropped edge.index dead] at held
    cases held
  have live : before.store.Live edge := ⟨node, (collected.kept _ survives).symm.trans held⟩
  have same := (collected.represents sound survives live.represents).function_eq represents
  rw [← same]
  exact live.represents.mem_functions

/-- What is left after a collection is what would be kept by another one. -/
theorem survivors_eq (collected : Collected before edges after) (sound : before.Sound) :
    after.survivors edges = before.survivors edges := by
  ext index
  unfold survivors
  rw [collected.pinned]
  refine or_congr_right (exists_congr fun edge => and_congr_right fun member => ?_)
  exact (collected.agreeBelow sound (Store.mem_below_of_mem member)).reaches_iff index

end Collected

end DecisionDiagram.Manager
