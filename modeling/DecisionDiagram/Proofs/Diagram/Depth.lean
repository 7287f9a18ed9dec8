import DecisionDiagram.Proofs.Diagram.Represents

/-!
# Going down several diagrams at once

A recursion over several edges goes down by one variable at a time, the smallest one at the top of any
of them. Edges that have passed this variable are constant or test later variables only, so that no more
steps can follow each other than there are variables below the edges.
-/

set_option autoImplicit false

namespace DecisionDiagram

/-- The edges lie in the same slots. -/
def Manager.SameSlots (others edges : List Edge) : Prop :=
  ∀ index, (∃ edge ∈ others, edge.index = index) ↔ ∃ edge ∈ edges, edge.index = index

namespace Store

/-- The smallest variable at the top of those edges that are not constant. -/
structure FirstVar (store : Store Node) (edges : List Edge) (first : Nat) : Prop where
  above : ∀ edge ∈ edges, store.From first edge
  tested : ∃ edge ∈ edges, ∃ node,
    store.contents edge.index = some node ∧ edge.index ≠ 1 ∧ node.var = first

/-- Every edge of a callee is constant, or its variable comes after the first one of its caller. -/
def Descends (store : Store Node) (caller callee : List Edge) : Prop :=
  ∃ first, store.FirstVar caller first ∧ ∀ edge ∈ callee, store.From (first + 1) edge

open Classical in
/-- The variables that are tested at or below some edges. -/
noncomputable def varsBelow (store : Store Node) (edges : List Edge) : Finset Nat :=
  store.testedVars.filter fun var => ∃ edge ∈ edges, store.Tests edge var

variable {store after : Store Node} {edge : Edge} {edges others : List Edge} {first : Nat}

theorem FirstVar.congr (isFirst : store.FirstVar edges first) (same : Manager.SameSlots others edges) :
    store.FirstVar others first where
  above other member := by
    obtain ⟨edge, known, index⟩ := (same _).mp ⟨other, member, rfl⟩
    obtain ⟨node, held, tests⟩ := isFirst.above edge known
    rw [index] at held tests
    exact ⟨node, held, tests⟩
  tested := by
    obtain ⟨edge, known, node, held, inner, isVar⟩ := isFirst.tested
    obtain ⟨other, member, index⟩ := (same _).mpr ⟨edge, known, rfl⟩
    rw [← index] at held inner
    exact ⟨other, member, node, held, inner, isVar⟩

theorem Descends.grow {callee : List Edge} (descends : store.Descends edges callee)
    (grows : store.Extends after) : after.Descends edges callee := by
  obtain ⟨first, ⟨above, edge, member, node, held, inner, isVar⟩, below⟩ := descends
  refine ⟨first, ⟨fun edge member => grows.from_mono (above edge member), edge, member, node,
    grows.contents _ node held, inner, isVar⟩, fun edge member => grows.from_mono (below edge member)⟩

section

variable {node : Node}

theorem firstVar_of_inner (held : store.contents edge.index = some node) (inner : edge.index ≠ 1) :
    store.FirstVar [edge] node.var :=
  ⟨List.forall_mem_singleton.mpr ⟨node, held, Or.inr (Nat.le_refl _)⟩, edge,
    List.mem_singleton_self edge, node, held, inner, rfl⟩

/-- A child tests later variables than its parent. -/
theorem Canonical.descends_child (canonical : store.Canonical)
    (held : store.contents edge.index = some node) (inner : edge.index ≠ 1) (value negated : Bool) :
    store.Descends [edge] [(node.child value).flip negated] :=
  ⟨node.var, firstVar_of_inner held inner, List.forall_mem_singleton.mpr
    (((canonical.normal _ node held inner).child_from value).flip negated)⟩

end

/-! ## Counting the variables below -/

theorem mem_varsBelow {var : Nat} :
    var ∈ store.varsBelow edges ↔ ∃ edge ∈ edges, store.Tests edge var := by
  classical
  unfold varsBelow
  rw [Finset.mem_filter]
  refine and_iff_right_of_imp fun ⟨edge, _, tests⟩ => Canonical.tests_mem_testedVars tests

theorem card_varsBelow_le (store : Store Node) (edges : List Edge) :
    (store.varsBelow edges).card ≤ store.testedVars.card := by
  refine Finset.card_le_card fun var member => ?_
  obtain ⟨_, _, tests⟩ := mem_varsBelow.mp member
  exact Canonical.tests_mem_testedVars tests

/-- Below a child there is one variable less, that of its parent. -/
theorem Canonical.card_varsBelow_child (canonical : store.Canonical) {node : Node}
    (held : store.contents edge.index = some node) (inner : edge.index ≠ 1) (value negated : Bool) :
    (store.varsBelow [(node.child value).flip negated]).card < (store.varsBelow [edge]).card := by
  have here : node.var ∈ store.varsBelow [edge] :=
    mem_varsBelow.mpr ⟨edge, List.mem_singleton_self edge, tests_top held inner⟩
  refine Finset.card_lt_card (Finset.ssubset_iff_of_subset ?_ |>.mpr ⟨node.var, here, ?_⟩)
  · intro var member
    obtain ⟨child, known, tests⟩ := mem_varsBelow.mp member
    rw [List.mem_singleton.mp known] at tests
    exact mem_varsBelow.mpr ⟨edge, List.mem_singleton_self edge, tests.of_child held⟩
  · intro member
    obtain ⟨child, known, tests⟩ := mem_varsBelow.mp member
    rw [List.mem_singleton.mp known] at tests
    have above := ((canonical.normal _ node held inner).child_from value).flip negated
    exact Nat.not_succ_le_self _ (canonical.le_of_tests above tests)

/-- A function depends on the variables below its edge. -/
theorem Represents.dependsOn_varsBelow {function : BoolFunction} (canonical : store.Canonical)
    (represents : store.Represents edge function) (member : edge ∈ edges) :
    DependsOn function ↑(store.varsBelow edges) := by
  rw [← represents.denote_eq]
  refine (canonical.dependsOn_tests represents.live).mono fun var tests => ?_
  exact Finset.mem_coe.mpr (mem_varsBelow.mpr ⟨edge, member, tests⟩)

end Store

end DecisionDiagram
