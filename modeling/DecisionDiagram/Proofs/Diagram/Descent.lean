import DecisionDiagram.Proofs.Diagram.Functions

/-!
# Diagrams seen from their functions

A function tells the sign of its edge, whether the edge is constant, and which variable its node tests.
A descent from an edge thus meets the functions that `Below` describes, and there are as many slots
below the edge as there are such functions up to complement (`Represents.ncard_below`).
-/

set_option autoImplicit false

namespace DecisionDiagram

/-- Whether a function is false when all variables are true. -/
def flipped (function : BoolFunction) : Bool := !function fun _ => true

/-- The function or its complement, whichever is true when all variables are. -/
def regular (function : BoolFunction) : BoolFunction := fun valuation =>
  flipped function ^^ function valuation

theorem flipped_not (function : BoolFunction) :
    (flipped fun valuation => !function valuation) = !flipped function := rfl

theorem regular_not (function : BoolFunction) :
    (regular fun valuation => !function valuation) = regular function := by
  funext valuation
  simp [regular, flipped_not]

/-- What a descent meets, one of each pair of complements, and the constant at its end. -/
def shapes (function : BoolFunction) : Set BoolFunction :=
  insert (fun _ => true) (regular '' {lower | Below function lower})

theorem Top.ne_constant {function : BoolFunction} {top : Nat} (isTop : Top function top)
    (value : Bool) : function ≠ fun _ => value := by
  intro constant
  apply isTop.matters
  rw [constant]
  exact (dependsOn_const value).mono (Set.empty_subset _)

theorem Top.mem {function : BoolFunction} {top : Nat} {vars : Set Nat} (isTop : Top function top)
    (depends : DependsOn function vars) : top ∈ vars := by
  by_contra outside
  apply isTop.matters
  rw [← cofactor_of_notMem depends outside true]
  exact dependsOn_cofactor_Ioi isTop.depends true

namespace Store

variable {store : Store Node} {edge : Edge} {function lower : BoolFunction}

/-- High edges are regular, so the sign of an edge is seen where all variables are true. -/
theorem Canonical.denote_allTrue (canonical : store.Canonical) (live : store.Live edge) :
    store.denote edge (fun _ => true) = !edge.isNegated := by
  induction ranked : store.rank edge.index using Nat.strong_induction_on generalizing edge with
  | _ rank ih =>
    obtain ⟨node, held⟩ := live
    by_cases terminal : edge.index = 1
    · rcases Edge.eq_constant terminal with rfl | rfl
      · rw [canonical.denote_one]
        rfl
      · rw [canonical.denote_zero]
        rfl
    · have normal := canonical.normal _ node held terminal
      have lower := rank_lt_of_from held terminal normal.high_from
      have onHigh := ih _ (ranked ▸ lower) normal.high_from.live rfl
      have follows : node.follow (fun _ => true) = node.high := if_pos rfl
      rw [canonical.denote_follow held, follows, onHigh, normal.high_regular, Bool.not_false,
        Bool.xor_true]

theorem Canonical.finite_below (canonical : store.Canonical) (live : store.Live edge) :
    (store.below [edge]).Finite := by
  refine (Set.finite_lt_nat store.capacity).subset fun index member => ?_
  obtain ⟨node, held⟩ := canonical.below_live (List.forall_mem_singleton.mpr live) member
  exact lt_capacity_of_contents held

namespace Represents

/-- Variables count from one. -/
theorem dependsOn_positive (canonical : store.Canonical)
    (represents : store.Represents edge function) : DependsOn function (Set.Ioi 0) := by
  rw [← represents.denote_eq]
  exact (canonical.dependsOn_tests represents.live).mono fun _ tests => canonical.tests_pos tests

theorem isNegated_eq (canonical : store.Canonical) (represents : store.Represents edge function) :
    edge.isNegated = flipped function := by
  rw [flipped, ← represents.denote_eq, canonical.denote_allTrue represents.live, Bool.not_not]

theorem regular (canonical : store.Canonical) (represents : store.Represents edge function) :
    store.Represents (edge.flip edge.isNegated) (regular function) := by
  apply (represents.flip edge.isNegated).congr
  intro valuation
  rw [represents.isNegated_eq canonical]
  exact Bool.xor_comm _ _

theorem terminal_of_constant (canonical : store.Canonical) {value : Bool}
    (represents : store.Represents edge fun _ => value) : edge.index = 1 := by
  cases value with
  | true => exact congrArg Edge.index (represents.unique canonical canonical.represents_one)
  | false => exact congrArg Edge.index (represents.unique canonical canonical.represents_zero)

theorem constant_of_terminal (canonical : store.Canonical)
    (represents : store.Represents edge function) (terminal : edge.index = 1) :
    function = fun _ => !edge.isNegated := by
  rcases Edge.eq_constant terminal with rfl | rfl
  · exact represents.eq_true_of_one canonical rfl
  · exact represents.eq_false_of_zero canonical rfl

/-- The first variable that matters is tested at the edge's own node. -/
theorem node_of_top (canonical : store.Canonical) (represents : store.Represents edge function)
    {top : Nat} (isTop : Top function top) :
    ∃ node, store.contents edge.index = some node ∧ edge.index ≠ 1 ∧ node.var = top := by
  obtain ⟨node, held⟩ := represents.live
  have inner : edge.index ≠ 1 := fun terminal =>
    isTop.ne_constant _ (represents.constant_of_terminal canonical terminal)
  exact ⟨node, held, inner, (represents.top canonical held inner).unique isTop⟩

/-! ## What lies below -/

/-- Every slot below an edge is that of a function that a descent meets. -/
theorem below_of_reaches (canonical : store.Canonical) (represents : store.Represents edge function)
    {index : Nat} (reaches : store.Reaches edge.index index) :
    ∃ name lower, name.index = index ∧ store.Represents name lower ∧ Below function lower := by
  induction reaches with
  | refl => exact ⟨edge, function, rfl, represents, Relation.ReflTransGen.refl⟩
  | @tail parent child _ follows ih =>
    obtain ⟨name, lower, rfl, stands, met⟩ := ih
    by_cases terminal : name.index = 1
    · have same : child = 1 := canonical.child_one (terminal ▸ follows)
      exact ⟨name, lower, terminal.trans same.symm, stands, met⟩
    · obtain ⟨node, held, side⟩ := follows
      have branch : ∀ value, child = (node.child value).index → ∃ name lower, name.index = child ∧
          store.Represents name lower ∧ Below function lower := by
        intro value isChild
        refine ⟨_, _, ?_, stands.child canonical held terminal value,
          met.tail ⟨node.var, value, stands.top canonical held terminal, rfl⟩⟩
        rw [Edge.index_flip, isChild]
      exact side.elim (branch false) (branch true)

/-- Every function that a descent meets has an edge to a slot below. -/
theorem reaches_of_below (canonical : store.Canonical) (represents : store.Represents edge function)
    (below : Below function lower) :
    ∃ name, store.Represents name lower ∧ store.Reaches edge.index name.index := by
  induction below with
  | refl => exact ⟨edge, represents, Relation.ReflTransGen.refl⟩
  | tail _ step ih =>
    obtain ⟨top, value, isTop, rfl⟩ := step
    obtain ⟨name, stands, reaches⟩ := ih
    obtain ⟨node, held, inner, rfl⟩ := stands.node_of_top canonical isTop
    refine ⟨_, stands.child canonical held inner value, reaches.tail ?_⟩
    rw [Edge.index_flip]
    exact child_child held value

end Represents

/-- The function of the regular edge to a slot. -/
def slotFunction (store : Store Node) (index : Nat) : BoolFunction := fun valuation =>
  store.slotValue valuation store.capacity index

theorem Represents.regular_eq (canonical : store.Canonical)
    (represents : store.Represents edge function) :
    DecisionDiagram.regular function = store.slotFunction edge.index := by
  funext valuation
  rw [DecisionDiagram.regular, ← represents.isNegated_eq canonical, ← represents.denote_eq, denote,
    ← Bool.xor_assoc, Bool.xor_self, Bool.false_xor]
  rfl

theorem Canonical.slotFunction_one (canonical : store.Canonical) :
    store.slotFunction 1 = fun _ => true := by
  funext valuation
  exact canonical.slotValue_terminal valuation _

/-- Slots in use have different functions, even up to complement. -/
theorem Canonical.index_eq_of_slotFunction_eq (canonical : store.Canonical) {first second : Edge}
    (live : store.Live first) (otherLive : store.Live second)
    (same : store.slotFunction first.index = store.slotFunction second.index) :
    first.index = second.index := by
  have onFirst := live.represents.regular canonical
  have onSecond := otherLive.represents.regular canonical
  rw [live.represents.regular_eq canonical, same,
    ← otherLive.represents.regular_eq canonical] at onFirst
  have equal := congrArg Edge.index (onFirst.unique canonical onSecond)
  rwa [Edge.index_flip, Edge.index_flip] at equal

theorem Represents.image_below (canonical : store.Canonical)
    (represents : store.Represents edge function) :
    store.slotFunction '' store.below [edge] = shapes function := by
  ext shape
  constructor
  · rintro ⟨index, rfl | ⟨_, member, reaches⟩, rfl⟩
    · exact Or.inl canonical.slotFunction_one
    · rw [List.mem_singleton.mp member] at reaches
      obtain ⟨name, lower, rfl, stands, met⟩ := represents.below_of_reaches canonical reaches
      exact Or.inr ⟨lower, met, stands.regular_eq canonical⟩
  · rintro (rfl | ⟨lower, met, rfl⟩)
    · exact ⟨1, Or.inl rfl, canonical.slotFunction_one⟩
    · obtain ⟨name, stands, reaches⟩ := represents.reaches_of_below canonical met
      exact ⟨name.index, Or.inr ⟨edge, List.mem_singleton_self edge, reaches⟩,
        (stands.regular_eq canonical).symm⟩

/-- There are as many slots below an edge as a descent meets functions, up to complement. -/
theorem Represents.ncard_below (canonical : store.Canonical)
    (represents : store.Represents edge function) :
    (store.below [edge]).ncard = (shapes function).ncard := by
  have named : ∀ index ∈ store.below [edge], ∃ name : Edge, name.index = index ∧ store.Live name := by
    rintro index (rfl | ⟨_, member, reaches⟩)
    · exact ⟨.one, rfl, canonical.live_one⟩
    · rw [List.mem_singleton.mp member] at reaches
      obtain ⟨name, _, same, stands, _⟩ := represents.below_of_reaches canonical reaches
      exact ⟨name, same, stands.live⟩
  rw [← represents.image_below canonical]
  refine (Set.InjOn.ncard_image fun first isFirst second isSecond same => ?_).symm
  obtain ⟨name, rfl, live⟩ := named first isFirst
  obtain ⟨other, rfl, otherLive⟩ := named second isSecond
  exact canonical.index_eq_of_slotFunction_eq live otherLive same

end Store

end DecisionDiagram
