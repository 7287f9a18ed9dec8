import DecisionDiagram.Proofs.Diagram.Represents
import Mathlib.Data.Int.Interval
import Mathlib.Data.Set.Card

/-!
# The functions of a store

`functions` are the functions that have an edge. They are closed under complement and under the
cofactors that a descent takes. A new node adds its own function and the complement of it and
nothing else, so a store that has grown has grown by functions.
-/

set_option autoImplicit false

namespace DecisionDiagram

/-- Closed under complement and under fixing a variable before which nothing matters. -/
structure Closed (family : Set BoolFunction) : Prop where
  neg : ∀ function ∈ family, (fun valuation => !function valuation) ∈ family
  cofactor : ∀ function ∈ family, ∀ var, DependsOn function (Set.Ici var) → ∀ value,
    cofactor function var value ∈ family

theorem closed_univ : Closed Set.univ :=
  ⟨fun _ _ => trivial, fun _ _ _ _ _ => trivial⟩

theorem Closed.of_neg {family : Set BoolFunction} (closed : Closed family)
    {function : BoolFunction} (member : (fun valuation => !function valuation) ∈ family) :
    function ∈ family := by
  have back := closed.neg _ member
  simp only [Bool.not_not] at back
  exact back

theorem Closed.flip {family : Set BoolFunction} (closed : Closed family)
    {function : BoolFunction} (member : function ∈ family) (negated : Bool) :
    (fun valuation => function valuation ^^ negated) ∈ family := by
  cases negated with
  | false =>
    simp only [Bool.xor_false]
    exact member
  | true =>
    simp only [Bool.xor_true]
    exact closed.neg function member

/-! ## Descending through cofactors -/

/-- The first variable that matters to a function. -/
structure Top (function : BoolFunction) (top : Nat) : Prop where
  depends : DependsOn function (Set.Ici top)
  matters : ¬ DependsOn function (Set.Ioi top)

theorem Top.neg {function : BoolFunction} {top : Nat} (isTop : Top function top) :
    Top (fun valuation => !function valuation) top where
  depends := dependsOn_not isTop.depends
  matters later := by
    apply isTop.matters
    have back := dependsOn_not later
    simp only [Bool.not_not] at back
    exact back

theorem Top.unique {function : BoolFunction} {first second : Nat} (isFirst : Top function first)
    (isSecond : Top function second) : first = second := by
  have notBefore : ∀ {left right : Nat}, Top function left → Top function right → ¬ left < right :=
    fun isLeft isRight before =>
      isLeft.matters (isRight.depends.mono fun _ atLeast => Nat.lt_of_lt_of_le before atLeast)
  have := notBefore isFirst isSecond
  have := notBefore isSecond isFirst
  omega

/-- What a descent meets that always goes on with a cofactor by the first variable that matters. -/
def Below : BoolFunction → BoolFunction → Prop :=
  Relation.ReflTransGen fun function next =>
    ∃ top value, Top function top ∧ next = cofactor function top value

namespace Below

variable {function lower : BoolFunction} {top : Nat}

theorem head (isTop : Top function top) {value : Bool}
    (below : Below (cofactor function top value) lower) : Below function lower :=
  Relation.ReflTransGen.head ⟨top, value, isTop, rfl⟩ below

theorem of_top (below : Below function lower) (isTop : Top function top) :
    lower = function ∨ ∃ value, Below (cofactor function top value) lower := by
  rcases Relation.ReflTransGen.cases_head below with same | ⟨next, step, rest⟩
  · exact Or.inl same.symm
  · obtain ⟨other, value, alsoTop, rfl⟩ := step
    rw [alsoTop.unique isTop] at rest
    exact Or.inr ⟨value, rest⟩

theorem dependsOn (below : Below function lower) {vars : Set Nat}
    (depends : DependsOn function vars) : DependsOn lower vars := by
  induction below with
  | refl => exact depends
  | tail _ step ih =>
    obtain ⟨top, value, _, rfl⟩ := step
    exact (dependsOn_cofactor ih top value).mono Set.sdiff_subset

theorem mem (below : Below function lower) {family : Set BoolFunction} (closed : Closed family)
    (member : function ∈ family) : lower ∈ family := by
  induction below with
  | refl => exact member
  | tail _ step ih =>
    obtain ⟨top, value, isTop, rfl⟩ := step
    exact closed.cofactor _ ih top isTop.depends value

end Below

namespace Store

/-- The functions that an edge stands for. -/
def functions (store : Store Node) : Set BoolFunction :=
  {function | ∃ edge, store.Represents edge function}

variable {store before after : Store Node} {edge : Edge} {function : BoolFunction}

theorem Represents.mem_functions (represents : store.Represents edge function) :
    function ∈ store.functions :=
  ⟨edge, represents⟩

theorem Represents.top (canonical : store.Canonical) {node : Node}
    (represents : store.Represents edge function) (held : store.contents edge.index = some node)
    (inner : edge.index ≠ 1) : Top function node.var :=
  ⟨represents.dependsOn_top canonical held, fun later =>
    Nat.lt_irrefl _ (represents.mem_of_dependsOn canonical held inner later)⟩

theorem Represents.cofactor_mem (canonical : store.Canonical)
    (represents : store.Represents edge function) {var : Nat}
    (depends : DependsOn function (Set.Ici var)) (value : Bool) :
    cofactor function var value ∈ store.functions := by
  rcases represents.top_or_later canonical depends with ⟨node, held, inner, rfl⟩ | later
  · exact (represents.child canonical held inner value).mem_functions
  · rw [represents.cofactor_of_later canonical later]
    exact represents.mem_functions

theorem Canonical.closed_functions (canonical : store.Canonical) : Closed store.functions := by
  refine ⟨?_, ?_⟩
  · rintro function ⟨edge, represents⟩
    exact represents.neg.mem_functions
  · rintro function ⟨edge, represents⟩ var depends value
    exact represents.cofactor_mem canonical depends value

theorem Canonical.false_mem_functions (canonical : store.Canonical) :
    (fun _ => false) ∈ store.functions :=
  canonical.represents_zero.mem_functions

theorem Extends.functions_subset (grows : before.Extends after) (canonical : before.Canonical)
    (other : after.Canonical) : before.functions ⊆ after.functions := by
  rintro function ⟨edge, represents⟩
  exact (grows.represents canonical other represents).mem_functions

/-- Only the node of a branch has the function of the branch. -/
theorem Canonical.contents_of_branch (canonical : store.Canonical) {node : Node}
    {onHigh onLow : BoolFunction} (normal : store.Normal node)
    (high : store.Represents node.high onHigh) (low : store.Represents node.low onLow)
    (represents : store.Represents edge (branch node.var onHigh onLow)) :
    edge.index ≠ 1 ∧ store.contents edge.index = some node := by
  have highDepends : DependsOn onHigh (Set.Ioi node.var) :=
    high.dependsOn_Ici canonical normal.high_from
  have lowDepends : DependsOn onLow (Set.Ioi node.var) :=
    low.dependsOn_Ici canonical normal.low_from
  have cofactors := cofactor_branch highDepends lowDepends
  have different : onHigh ≠ onLow := fun same =>
    normal.low_ne_high (low.unique canonical (same ▸ high))
  -- the function depends on the node's variable and on nothing before it
  have attains : ¬ store.From (node.var + 1) edge := by
    intro later
    have ifTrue := cofactors true
    have ifFalse := cofactors false
    rw [represents.cofactor_of_later canonical later] at ifTrue ifFalse
    exact different (ifTrue.symm.trans ifFalse)
  obtain ⟨stored, held, inner, sameVar⟩ :=
    (represents.top_or_later canonical (dependsOn_branch highDepends lowDepends)).resolve_right attains
  have children := fun value => represents.child canonical held inner value
  rw [sameVar] at children
  have onTrue := children true
  have onFalse := children false
  rw [cofactors] at onTrue onFalse
  have sameHigh := onTrue.unique canonical high
  have sameLow := onFalse.unique canonical low
  have plain : edge.isNegated = false := by
    have signs := congrArg Edge.isNegated sameHigh
    rw [Edge.isNegated_flip] at signs
    simp only [Node.child, if_true, (canonical.normal _ stored held inner).high_regular,
      normal.high_regular, Bool.xor_false] at signs
    exact signs
  rw [plain] at sameHigh sameLow
  refine ⟨inner, held.trans (congrArg some ?_)⟩
  cases stored
  cases node
  simp_all [Node.child]

/-! ## Counting functions -/

theorem functions_eq_image (store : Store Node) :
    store.functions = store.denote '' {edge | store.Live edge} := by
  ext function
  constructor
  · rintro ⟨edge, represents⟩
    exact ⟨edge, represents.live, represents.denote_eq⟩
  · rintro ⟨edge, live, rfl⟩
    exact live.represents.mem_functions

theorem finite_live (store : Store Node) : {edge | store.Live edge}.Finite := by
  have bounded : Edge.code '' {edge | store.Live edge} ⊆
      Set.Icc (-store.capacity : Int) store.capacity := by
    rintro _ ⟨edge, ⟨node, held⟩, rfl⟩
    have inside := lt_capacity_of_contents held
    simp only [Edge.index] at inside
    exact ⟨by omega, by omega⟩
  exact ((Set.finite_Icc _ _).subset bounded).of_finite_image fun _ _ _ _ same =>
    Edge.eq_of_code_eq same

theorem Canonical.ncard_functions (canonical : store.Canonical) :
    store.functions.ncard = {edge | store.Live edge}.ncard := by
  rw [functions_eq_image]
  refine Set.InjOn.ncard_image fun _ live _ otherLive same => ?_
  exact canonical.eq_of_denote_eq live otherLive same

/-- A full store has all functions that a store of the same capacity can have. -/
theorem Full.functions_subset {larger : Store Node} (full : store.Full) (canonical : store.Canonical)
    (other : larger.Canonical) (sameCapacity : larger.capacity = store.capacity)
    (subset : store.functions ⊆ larger.functions) : larger.functions ⊆ store.functions := by
  have live : {edge | larger.Live edge} ⊆ {edge | store.Live edge} := by
    rintro edge ⟨node, held⟩
    have inside := lt_capacity_of_contents held
    rw [sameCapacity] at inside
    exact full edge.index (Nat.ne_of_gt edge.index_pos) inside
  have finite : larger.functions.Finite := by
    rw [functions_eq_image]
    exact larger.finite_live.image _
  have few : larger.functions.ncard ≤ store.functions.ncard := by
    rw [other.ncard_functions, canonical.ncard_functions]
    exact Set.ncard_le_ncard live store.finite_live
  exact (Set.eq_of_subset_of_ncard_le subset few finite).superset

/-! ## One more node -/

namespace Inserted

variable {index : Nat} {node : Node}

/-- The new function is that of the new node, up to complement. -/
theorem functions_subset (inserted : before.Inserted index node after)
    (lowest : before.LowestFree index) (canonical : before.Canonical) (other : after.Canonical)
    (represents : after.Represents edge function) (isNew : edge.index = index)
    {family : Set BoolFunction} (closed : Closed family) (member : function ∈ family) :
    after.functions ⊆ before.functions ∪ family := by
  have grows := inserted.extends lowest.free
  rintro known ⟨name, stands⟩
  obtain ⟨held, live⟩ := stands.live
  by_cases same : name.index = index
  · refine Or.inr ?_
    by_cases sameSign : name.isNegated = edge.isNegated
    · have equal := Edge.eq_of_index_of_isNegated (same.trans isNew.symm) sameSign
      rw [stands.eq_of_eq represents equal]
      exact member
    · have opposite : name = -edge := by
        refine Edge.eq_of_index_of_isNegated ?_ ?_
        · rw [Edge.index_neg, same, isNew]
        · rw [Edge.isNegated_neg]
          exact Bool.eq_not_of_ne sameSign
      rw [stands.eq_not_of_eq_neg represents opposite]
      exact closed.neg function member
  · refine Or.inl ⟨name, ?_⟩
    rw [inserted.contents, Function.update_of_ne same] at live
    have old : before.Live name := ⟨held, live⟩
    have value := (grows.represents canonical other old.represents).function_eq stands
    exact ⟨old, value⟩

end Inserted

end Store

end DecisionDiagram
