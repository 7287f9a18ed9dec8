import DecisionDiagram.SortedList
import Mathlib.Data.List.Sort

/-!
# What sorting without repeats yields

The same elements, each smaller than all that follow it, which leaves one list for each set of
elements.
-/

set_option autoImplicit false

namespace DecisionDiagram

variable {Element : Type} [DecidableEq Element] {inOrder : Element → Element → Bool}

theorem mem_dropRepeats {element : Element} {elements : List Element} :
    element ∈ dropRepeats elements ↔ element ∈ elements := by
  induction elements using dropRepeats.induct with
  | case1 => rfl
  | case2 last => rfl
  | case3 second rest ih => simp [dropRepeats, ih]
  | case4 first second rest different ih => simp [dropRepeats, different, ih]

/-- A total order, given by its Boolean test. -/
structure OrderTest (inOrder : Element → Element → Bool) : Prop where
  trans : ∀ first second third, inOrder first second → inOrder second third → inOrder first third
  total : ∀ first second, inOrder first second || inOrder second first
  antisymm : ∀ first second, inOrder first second → inOrder second first → first = second

theorem pairwise_dropRepeats (order : OrderTest inOrder) {elements : List Element}
    (sorted : elements.Pairwise fun first second => inOrder first second) :
    (dropRepeats elements).Pairwise fun first second => inOrder first second ∧ first ≠ second := by
  induction elements using dropRepeats.induct with
  | case1 => exact List.Pairwise.nil
  | case2 last => exact List.pairwise_singleton _ _
  | case3 second rest ih =>
    rw [dropRepeats, if_pos rfl]
    exact ih sorted.of_cons
  | case4 first second rest different ih =>
    rw [dropRepeats, if_neg different, List.pairwise_cons]
    refine ⟨fun later member => ?_, ih sorted.of_cons⟩
    have known := mem_dropRepeats.mp member
    obtain ⟨before, tail⟩ := List.pairwise_cons.mp sorted
    refine ⟨before later known, fun same => ?_⟩
    -- the second element lies between the first and every later one
    rcases List.mem_cons.mp known with rfl | further
    · exact different same
    · have between := (List.pairwise_cons.mp tail).1 later further
      rw [← same] at between
      exact different (order.antisymm first second (before second List.mem_cons_self) between)

theorem mem_sortDistinct {element : Element} {elements : List Element} :
    element ∈ sortDistinct inOrder elements ↔ element ∈ elements := by
  rw [sortDistinct, mem_dropRepeats, List.mem_mergeSort]

theorem pairwise_sortDistinct (order : OrderTest inOrder) (elements : List Element) :
    (sortDistinct inOrder elements).Pairwise
      fun first second => inOrder first second ∧ first ≠ second :=
  pairwise_dropRepeats order (List.pairwise_mergeSort order.trans order.total elements)

/-- Only the set of the elements decides what they are sorted to. -/
theorem sortDistinct_congr (order : OrderTest inOrder) {elements others : List Element}
    (same : ∀ element, element ∈ others ↔ element ∈ elements) :
    sortDistinct inOrder others = sortDistinct inOrder elements := by
  let strictly (first second : Element) : Prop := inOrder first second ∧ first ≠ second
  have irreflexive : Std.Irrefl strictly := ⟨fun _ before => before.2 rfl⟩
  have antisymmetric : Std.Antisymm strictly :=
    ⟨fun first second before after => order.antisymm first second before.1 after.1⟩
  have ascending : (sortDistinct inOrder elements).Pairwise strictly :=
    pairwise_sortDistinct order elements
  have otherAscending : (sortDistinct inOrder others).Pairwise strictly :=
    pairwise_sortDistinct order others
  exact otherAscending.eq_of_mem_iff ascending fun element => by
    rw [mem_sortDistinct, mem_sortDistinct, same]

end DecisionDiagram
