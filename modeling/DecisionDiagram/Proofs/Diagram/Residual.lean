import DecisionDiagram.Proofs.Diagram.Descent
import Mathlib.Data.List.GetD

/-!
# Residuals

What is left of a function when its first variables are fixed. A descent meets the residuals and nothing
else: where a variable does not matter, fixing it leaves the function as it is. So the slots below an
edge can be counted without a word about descents. Apart from the terminal there is one for each residual
that is not constant, up to complement (`Represents.ncard_below_eq`).
-/

set_option autoImplicit false

namespace DecisionDiagram

/-- The valuation with other values for the variables from the first one on. -/
def startingWith (values : List Bool) (valuation : Valuation) : Valuation
  | 0 => valuation 0
  | place + 1 => values.getD place (valuation (place + 1))

/-- The function with the variables from the first one on fixed. -/
def residual (function : BoolFunction) (values : List Bool) : BoolFunction := fun valuation =>
  function (startingWith values valuation)

/-- The residuals that are not constant. -/
def residuals (function : BoolFunction) : Set BoolFunction :=
  {lower | (∃ values, lower = residual function values) ∧ ∀ value, lower ≠ fun _ => value}

/-- A function and its complement. -/
def pair (function : BoolFunction) : Set BoolFunction :=
  {function, fun valuation => !function valuation}

/-- The residuals that are not constant, up to complement. -/
def classes (function : BoolFunction) : Set (Set BoolFunction) := pair '' residuals function

variable {function lower : BoolFunction} {values : List Bool}

/-! ## Fixing one variable after the other -/

theorem residual_nil (function : BoolFunction) : residual function [] = function := by
  funext valuation
  refine congrArg function (funext fun var => ?_)
  cases var <;> rfl

theorem startingWith_concat (values : List Bool) (value : Bool) (valuation : Valuation) :
    startingWith (values ++ [value]) valuation =
      startingWith values (Function.update valuation (values.length + 1) value) := by
  funext var
  cases var with
  | zero => exact (Function.update_of_ne (Nat.succ_ne_zero _).symm _ _).symm
  | succ place =>
    simp only [startingWith]
    by_cases last : place = values.length
    · subst last
      rw [Function.update_self, List.getD_append_right _ _ _ _ (Nat.le_refl _), Nat.sub_self,
        List.getD_eq_default _ _ (Nat.le_refl _)]
      rfl
    · have different : place + 1 ≠ values.length + 1 := mt Nat.succ.inj last
      rw [Function.update_of_ne different]
      by_cases inside : place < values.length
      · rw [List.getD_append _ _ _ _ inside, List.getD_eq_getElem _ _ inside]
      · rw [List.getD_eq_default _ _ (by simp; omega), List.getD_eq_default _ _ (by omega)]

theorem residual_concat (function : BoolFunction) (values : List Bool) (value : Bool) :
    residual function (values ++ [value]) =
      cofactor (residual function values) (values.length + 1) value :=
  funext fun valuation => congrArg function (startingWith_concat values value valuation)

theorem dependsOn_residual (depends : DependsOn function (Set.Ioi 0)) (values : List Bool) :
    DependsOn (residual function values) (Set.Ioi values.length) := by
  induction values using List.reverseRecOn with
  | nil =>
    rw [residual_nil]
    exact depends
  | append_singleton values value ih =>
    rw [residual_concat, List.length_append]
    exact dependsOn_cofactor_Ioi ih value

/-! ## Residuals are what a descent meets -/

theorem below_residual (depends : DependsOn function (Set.Ioi 0)) (values : List Bool) :
    Below function (residual function values) := by
  induction values using List.reverseRecOn with
  | nil =>
    rw [residual_nil]
    exact Relation.ReflTransGen.refl
  | append_singleton values value ih =>
    have here := dependsOn_residual depends values
    rw [residual_concat]
    -- the next variable is the first one that matters, unless it does not matter at all
    by_cases later : DependsOn (residual function values) (Set.Ioi (values.length + 1))
    · rw [cofactor_of_notMem later Set.self_notMem_Ioi]
      exact ih
    · exact ih.tail ⟨_, value, ⟨here, later⟩, rfl⟩

/-- Variables that do not matter may be fixed too. -/
theorem exists_padded {bound : Nat} (inside : values.length ≤ bound)
    (later : DependsOn (residual function values) (Set.Ioi bound)) :
    ∃ padded : List Bool, padded.length = bound ∧
      residual function padded = residual function values := by
  induction bound, inside using Nat.le_induction with
  | base => exact ⟨values, rfl, rfl⟩
  | succ bound inside ih =>
    obtain ⟨padded, rfl, same⟩ := ih (later.mono (Set.Ioi_subset_Ioi (Nat.le_succ bound)))
    refine ⟨padded ++ [false], List.length_append, ?_⟩
    rw [residual_concat, same, cofactor_of_notMem later Set.self_notMem_Ioi]

theorem residual_of_below (depends : DependsOn function (Set.Ioi 0))
    (below : Below function lower) : ∃ values, lower = residual function values := by
  induction below with
  | refl => exact ⟨[], (residual_nil function).symm⟩
  | tail _ step ih =>
    obtain ⟨top, value, isTop, rfl⟩ := step
    obtain ⟨values, rfl⟩ := ih
    have after : values.length < top := isTop.mem (dependsOn_residual depends values)
    -- the prefix ends at the last variable that was looked at, and the descent may have skipped some
    obtain ⟨before, rfl⟩ := Nat.exists_eq_succ_of_ne_zero (Nat.ne_zero_of_lt after)
    obtain ⟨padded, rfl, same⟩ := exists_padded (Nat.le_of_lt_succ after) isTop.depends
    exact ⟨padded ++ [value], by rw [residual_concat, same]⟩

theorem below_iff_residual (depends : DependsOn function (Set.Ioi 0)) :
    Below function lower ↔ ∃ values, lower = residual function values := by
  constructor
  · exact residual_of_below depends
  · rintro ⟨values, rfl⟩
    exact below_residual depends values

/-! ## Counting pairs of complements -/

theorem regular_allTrue (function : BoolFunction) : regular function (fun _ => true) = true := by
  simp [regular, flipped]

theorem eq_regular_or (function : BoolFunction) :
    regular function = function ∨ regular function = fun valuation => !function valuation := by
  unfold regular
  cases flipped function with
  | false => exact Or.inl (by simp)
  | true => exact Or.inr (by simp)

theorem regular_eq_true_iff :
    regular function = (fun _ => true) ↔ ∃ value, function = fun _ => value := by
  constructor
  · intro isTrue
    refine ⟨!flipped function, funext fun valuation => ?_⟩
    have value := congrFun isTrue valuation
    have different : function valuation ≠ flipped function := by
      intro same
      rw [regular, same, Bool.xor_self] at value
      cases value
    exact Bool.eq_not_of_ne different
  · rintro ⟨value, rfl⟩
    funext valuation
    exact regular_allTrue _

theorem pair_regular (function : BoolFunction) : pair (regular function) = pair function := by
  rcases eq_regular_or function with same | flips
  · rw [same]
  · rw [flips]
    simp only [pair, Bool.not_not]
    exact Set.pair_comm _ _

theorem regular_eq_of_pair_eq {other : BoolFunction}
    (same : pair (regular function) = pair (regular other)) : regular function = regular other := by
  have member : regular function ∈ pair (regular other) := same ▸ Set.mem_insert _ _
  rcases member with equal | flips
  · exact equal
  · have value := congrFun flips fun _ => true
    simp [regular_allTrue] at value

/-- Of the functions that a descent meets, those that are not constant are counted up to complement. -/
theorem shapes_eq (depends : DependsOn function (Set.Ioi 0)) :
    shapes function = insert (fun _ => true) (regular '' residuals function) := by
  ext shape
  constructor
  · rintro (rfl | ⟨lower, below, rfl⟩)
    · exact Or.inl rfl
    · by_cases constant : ∃ value, lower = fun _ => value
      · exact Or.inl (regular_eq_true_iff.mpr constant)
      · exact Or.inr ⟨lower, ⟨(below_iff_residual depends).mp below, not_exists.mp constant⟩, rfl⟩
  · rintro (rfl | ⟨lower, ⟨prefixed, _⟩, rfl⟩)
    · exact Or.inl rfl
    · exact Or.inr ⟨lower, (below_iff_residual depends).mpr prefixed, rfl⟩

theorem ncard_shapes (depends : DependsOn function (Set.Ioi 0)) (finite : (shapes function).Finite) :
    (classes function).Finite ∧ (shapes function).ncard = 1 + (classes function).ncard := by
  have isImage : classes function = pair '' (regular '' residuals function) := by
    rw [Set.image_image]
    simp only [pair_regular]
    rfl
  rw [shapes_eq depends] at finite ⊢
  have finite := finite.subset (Set.subset_insert _ _)
  have absent : (fun _ => true) ∉ regular '' residuals function := by
    rintro ⟨lower, ⟨_, varies⟩, isTrue⟩
    obtain ⟨value, constant⟩ := regular_eq_true_iff.mp isTrue
    exact varies value constant
  have apart : Set.InjOn pair (regular '' residuals function) := by
    rintro _ ⟨lower, _, rfl⟩ _ ⟨other, _, rfl⟩ same
    exact regular_eq_of_pair_eq same
  refine ⟨isImage ▸ finite.image _, ?_⟩
  rw [Set.ncard_insert_of_notMem absent finite, isImage, apart.ncard_image, Nat.add_comm]

/-! ## Residuals in a store -/

namespace Store.Represents

variable {store : Store Node} {edge first second : Edge} {other : BoolFunction}

/-- Every slot below an edge but the terminal is that of a residual. -/
theorem residual_of_reaches (canonical : store.Canonical) (represents : store.Represents edge function)
    {index : Nat} (reaches : store.Reaches edge.index index) (inner : index ≠ 1) :
    ∃ name lower, name.index = index ∧ lower ∈ residuals function ∧ store.Represents name lower := by
  obtain ⟨name, lower, rfl, stands, below⟩ := represents.below_of_reaches canonical reaches
  have prefixed := (below_iff_residual (represents.dependsOn_positive canonical)).mp below
  refine ⟨name, lower, rfl, ⟨prefixed, ?_⟩, stands⟩
  rintro value rfl
  exact inner (stands.terminal_of_constant canonical)

/-- Every residual that is not constant has an edge to a slot below. -/
theorem reaches_of_residual (canonical : store.Canonical) (represents : store.Represents edge function)
    (member : lower ∈ residuals function) :
    ∃ name, store.Represents name lower ∧ store.Reaches edge.index name.index ∧ name.index ≠ 1 := by
  obtain ⟨prefixed, varies⟩ := member
  have below := (below_iff_residual (represents.dependsOn_positive canonical)).mpr prefixed
  obtain ⟨name, stands, reaches⟩ := represents.reaches_of_below canonical below
  exact ⟨name, stands, reaches, fun terminal =>
    varies _ (stands.constant_of_terminal canonical terminal)⟩

theorem index_eq_of_pair_eq (canonical : store.Canonical) (represents : store.Represents first lower)
    (otherRepresents : store.Represents second other) (same : pair lower = pair other) :
    first.index = second.index := by
  have member : lower ∈ pair other := same ▸ Set.mem_insert _ _
  rcases member with rfl | rfl
  · rw [represents.unique canonical otherRepresents]
  · rw [represents.unique canonical otherRepresents.neg, Edge.index_neg]

/-- There is a slot below an edge for each pair of residuals, and the terminal. -/
theorem ncard_below_eq (canonical : store.Canonical) (represents : store.Represents edge function) :
    (classes function).Finite ∧ (store.below [edge]).ncard = 1 + (classes function).ncard := by
  have finite : (shapes function).Finite := by
    rw [← represents.image_below canonical]
    exact (canonical.finite_below represents.live).image _
  rw [represents.ncard_below canonical]
  exact ncard_shapes (represents.dependsOn_positive canonical) finite

end Store.Represents

end DecisionDiagram
