import DecisionDiagram.Proofs.Manager.Reach
import DecisionDiagram.Proofs.Run.Yields
import Mathlib.Data.List.Sort
import Mathlib.Order.Bounds.Basic

/-!
# What is marked from a list of edges

In every state of every run, the walk from a list of edges in use ends and reads slots in use only. It
finds the least set with the terminal and the slots of the list that is closed under low and high edges.
Repeats, signs, constants and the order of the list have no part in it. The size of an edge is the
number of the slots that are found from it, remembered or not.
-/

set_option autoImplicit false

namespace DecisionDiagram.Manager

open Std

variable {manager : Manager} {edges others : List Edge} {slots : Set Nat} {found other : HashSet Nat}

/-- The slots include the terminal, those of the edges, and with each node those of its children. -/
structure MarkClosed (manager : Manager) (edges : List Edge) (slots : Set Nat) : Prop where
  terminal : Edge.one.index ∈ slots
  roots : ∀ edge ∈ edges, edge.index ∈ slots
  low : ∀ index ∈ slots, ∀ node, manager.store.contents index = some node → node.low.index ∈ slots
  high : ∀ index ∈ slots, ∀ node, manager.store.contents index = some node → node.high.index ∈ slots

/-- The walk from some edges marks the slots that were found, and no others. -/
structure Marks (manager : Manager) (edges : List Edge) (found : HashSet Nat) : Prop where
  reachable : manager.reachable edges = .ok found
  /-- All slots that are read are in use, so that it does not matter what other slots hold, and the bound
  on the steps is never met. -/
  walk : ∃ steps, steps ≤ edges.length + 2 * manager.store.liveCount ∧
    Walk manager.store steps (roots edges).reverse terminalOnly found ∧
    ∀ other : Manager, (∀ index node, manager.store.contents index = some node →
      other.store.value index = .ok node) → ∀ fuel, steps ≤ fuel →
        other.visit fuel (roots edges).reverse terminalOnly = .ok found
  least : IsLeast {slots | manager.MarkClosed edges slots} {index | found.contains index}
  /-- Lists with the same slots mark the same. -/
  sameSlots : ∀ others, SameSlots others edges →
    (∃ same, manager.reachable others = .ok same ∧
      ∀ index, same.contains index ↔ found.contains index) ∧
    manager.reachableSlots others = manager.reachableSlots edges
  size : ∀ edge ∈ edges, ∃ single after, manager.reachable [edge] = .ok single ∧
    Manager.size edge manager = .ok single.size after ∧
      single.size = {index | single.contains index}.ncard

theorem markClosed_below (canonical : manager.store.Canonical) (edges : List Edge) :
    manager.MarkClosed edges (manager.store.below edges) where
  terminal := Or.inl rfl
  roots _ member := Store.mem_below_of_mem member
  low _ member node held := canonical.child_mem_below member ⟨node, held, Or.inl rfl⟩
  high _ member node held := canonical.child_mem_below member ⟨node, held, Or.inr rfl⟩

theorem MarkClosed.below_subset (closed : manager.MarkClosed edges slots) :
    manager.store.below edges ⊆ slots := by
  rintro index (rfl | ⟨edge, member, reaches⟩)
  · exact closed.terminal
  · induction reaches with
    | refl => exact closed.roots edge member
    | tail _ follows ih =>
      obtain ⟨node, held, rfl | rfl⟩ := follows
      · exact closed.low _ ih node held
      · exact closed.high _ ih node held

theorem isLeast_below (canonical : manager.store.Canonical) (edges : List Edge) :
    IsLeast {slots | manager.MarkClosed edges slots} (manager.store.below edges) :=
  ⟨markClosed_below canonical edges, fun _ closed => closed.below_subset⟩

theorem SameSlots.live {store : Store Node} (same : SameSlots others edges)
    (live : ∀ edge ∈ edges, store.Live edge) : ∀ edge ∈ others, store.Live edge := by
  intro edge member
  obtain ⟨known, isKnown, sameSlot⟩ := (same edge.index).mp ⟨edge, member, rfl⟩
  obtain ⟨node, held⟩ := live known isKnown
  exact ⟨node, sameSlot ▸ held⟩

theorem SameSlots.below_eq {store : Store Node} (same : SameSlots others edges) :
    store.below others = store.below edges := by
  have started : ∀ {first second : List Edge}, SameSlots first second →
      store.below first ⊆ store.below second := by
    rintro first second slots index (terminal | ⟨edge, member, reaches⟩)
    · exact Or.inl terminal
    · obtain ⟨known, isKnown, sameSlot⟩ := (slots edge.index).mp ⟨edge, member, rfl⟩
      exact Or.inr ⟨known, isKnown, sameSlot ▸ reaches⟩
  exact (started same).antisymm (started fun index => (same index).symm)

/-- In ascending order, sets with the same members are one list. -/
theorem mergeSort_toList_congr (same : ∀ index, other.contains index ↔ found.contains index) :
    other.toList.mergeSort = found.toList.mergeSort := by
  have members : ∀ index, index ∈ other.toList ↔ index ∈ found.toList := by
    intro index
    rw [HashSet.mem_toList, HashSet.mem_toList]
    exact same index
  have perm : other.toList.Perm found.toList :=
    (List.perm_ext_iff_of_nodup (nodup_toList other) (nodup_toList found)).mpr members
  have sorted := (List.mergeSort_perm other.toList (· ≤ ·)).trans
    (perm.trans (List.mergeSort_perm found.toList (· ≤ ·)).symm)
  exact sorted.eq_of_pairwise' (List.pairwise_mergeSort' _ _) (List.pairwise_mergeSort' _ _)

/-- **The walk marks the least closed set, and it ends.** -/
theorem attained_marks {config : Config} (attained : Attained config manager)
    (live : ∀ edge ∈ edges, manager.store.Live edge) : ∃ found, manager.Marks edges found := by
  have sound := attained.sound
  have canonical := sound.canonical
  obtain ⟨steps, found, few, walk, isFound⟩ := reachable_walk canonical live
  have finds := walk.explored.contains_iff canonical
  refine ⟨found, isFound, ⟨steps, few, walk, fun _ reads _ => walk.visit_eq reads⟩, ?_, ?_, ?_⟩
  · have isBelow : {index | found.contains index} = manager.store.below edges := Set.ext finds
    rw [isBelow]
    exact isLeast_below canonical edges
  · intro others sameSlots
    obtain ⟨other, isOther, otherFinds⟩ := reachable_spec canonical (sameSlots.live live)
    have same : ∀ index, other.contains index ↔ found.contains index := by
      intro index
      rw [otherFinds, finds, sameSlots.below_eq]
    refine ⟨⟨other, isOther, same⟩, ?_⟩
    rw [reachableSlots, reachableSlots, isOther, isFound, answer_bind, answer_bind,
      mergeSort_toList_congr same]
  · intro edge member
    obtain ⟨single, isSingle, singleFinds⟩ :=
      reachable_spec canonical (List.forall_mem_singleton.mpr (live edge member))
    obtain ⟨after, sized⟩ := size_eq_ok sound (live edge member)
    rw [← size_eq_ncard singleFinds] at sized
    exact ⟨single, after, isSingle, sized, size_eq_ncard fun _ => Iff.rfl⟩

/-- A list with a repeat, both signs and a constant. -/
theorem marks_of_repeats : ∃ edges : List Edge,
    edges = [⟨3, by decide⟩, .zero, ⟨-2, by decide⟩, ⟨3, by decide⟩] ∧
    Attained ⟨3, 1, 1⟩ twoVariables ∧ (∀ edge ∈ edges, twoVariables.store.Live edge) ∧
    ∃ found, twoVariables.Marks edges found := by
  obtain ⟨positive, conjunction⟩ := live_twoVariables
  have constant := attained_twoVariables.sound.canonical.live_zero
  have complement : twoVariables.store.Live ⟨-2, by decide⟩ := Store.live_neg.mpr positive
  obtain ⟨edges, isList⟩ : ∃ edges : List Edge,
      edges = [⟨3, by decide⟩, .zero, ⟨-2, by decide⟩, ⟨3, by decide⟩] := ⟨_, rfl⟩
  have live : ∀ edge ∈ edges, twoVariables.store.Live edge := by
    simp [isList, conjunction, constant, complement]
  exact ⟨edges, isList, attained_twoVariables, live, attained_marks attained_twoVariables live⟩

end DecisionDiagram.Manager
