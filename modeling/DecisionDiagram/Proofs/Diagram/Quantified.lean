import DecisionDiagram.Proofs.Diagram.BoolFunction

/-!
# Functions with variables quantified away

`quantified` holds where some values of the variables make the function true. Of the variables only
those matter that the function depends on, and taken one at a time a quantified variable gives the
disjunction of its cofactors.
-/

set_option autoImplicit false

namespace DecisionDiagram

open Classical in
noncomputable def quantified (vars : Set Nat) (function : BoolFunction) : BoolFunction :=
  fun valuation =>
    decide (∃ other : Valuation, (∀ var ∉ vars, other var = valuation var) ∧ function other = true)

section

variable {vars others known : Set Nat} {function : BoolFunction} {valuation : Valuation}

theorem quantified_eq_true_iff : quantified vars function valuation = true ↔
    ∃ other : Valuation, (∀ var ∉ vars, other var = valuation var) ∧ function other = true :=
  @decide_eq_true_iff _ (Classical.propDecidable _)

open Classical in
/-- The values of one valuation for some variables, those of another for the rest. -/
noncomputable def merged (vars : Set Nat) (first second : Valuation) : Valuation :=
  fun var => if var ∈ vars then first var else second var

theorem merged_of_mem {var : Nat} (first second : Valuation) (member : var ∈ vars) :
    merged vars first second var = first var :=
  if_pos member

theorem merged_of_notMem {var : Nat} (first second : Valuation) (outside : var ∉ vars) :
    merged vars first second var = second var :=
  if_neg outside

theorem merged_eq (depends : DependsOn function known) (first second : Valuation) :
    function (merged known first second) = function first :=
  depends fun _ member => merged_of_mem first second member

/-- Only the variables matter that the function depends on. -/
theorem quantified_congr (depends : DependsOn function known)
    (same : ∀ var ∈ known, var ∈ vars ↔ var ∈ others) :
    quantified vars function = quantified others function := by
  have half : ∀ {left right : Set Nat}, (∀ var ∈ known, var ∈ left ↔ var ∈ right) →
      ∀ valuation, quantified left function valuation = true →
        quantified right function valuation = true := by
    intro left right agree valuation holds
    obtain ⟨other, outside, isTrue⟩ := quantified_eq_true_iff.mp holds
    refine quantified_eq_true_iff.mpr ⟨merged known other valuation, fun var notRight => ?_, ?_⟩
    · by_cases member : var ∈ known
      · rw [merged_of_mem _ _ member]
        exact outside var (mt (agree var member).mp notRight)
      · exact merged_of_notMem _ _ member
    · rw [merged_eq depends]
      exact isTrue
  funext valuation
  exact Bool.eq_iff_iff.mpr
    ⟨half same valuation, half (fun var member => (same var member).symm) valuation⟩

theorem quantified_empty (function : BoolFunction) : quantified ∅ function = function := by
  funext valuation
  refine Bool.eq_iff_iff.mpr ⟨fun holds => ?_, fun holds => ?_⟩
  · obtain ⟨other, same, isTrue⟩ := quantified_eq_true_iff.mp holds
    rw [← isTrue]
    exact congrArg function (funext fun var => (same var (Set.notMem_empty var)).symm)
  · exact quantified_eq_true_iff.mpr ⟨valuation, fun _ _ => rfl, holds⟩

theorem quantified_of_disjoint (depends : DependsOn function known)
    (disjoint : ∀ var ∈ known, var ∉ vars) : quantified vars function = function := by
  have same : ∀ var ∈ known, var ∈ vars ↔ var ∈ (∅ : Set Nat) := fun var member =>
    iff_of_false (disjoint var member) (Set.notMem_empty var)
  rw [quantified_congr depends same, quantified_empty]

theorem dependsOn_quantified (depends : DependsOn function known) (vars : Set Nat) :
    DependsOn (quantified vars function) known := by
  have half : ∀ {first second : Valuation}, (∀ var ∈ known, first var = second var) →
      quantified vars function first = true → quantified vars function second = true := by
    intro first second agree holds
    obtain ⟨other, outside, isTrue⟩ := quantified_eq_true_iff.mp holds
    refine quantified_eq_true_iff.mpr ⟨merged known other second, fun var notQuantified => ?_, ?_⟩
    · by_cases member : var ∈ known
      · rw [merged_of_mem _ _ member, outside var notQuantified, agree var member]
      · exact merged_of_notMem _ _ member
    · rw [merged_eq depends]
      exact isTrue
  intro first second agree
  exact Bool.eq_iff_iff.mpr ⟨half agree, half fun var member => (agree var member).symm⟩

/-- What is quantified does not matter any more. -/
theorem dependsOn_quantified_free (vars : Set Nat) (function : BoolFunction) :
    DependsOn (quantified vars function) {var | var ∉ vars} := by
  intro first second agree
  refine Bool.eq_iff_iff.mpr ?_
  rw [quantified_eq_true_iff, quantified_eq_true_iff]
  refine exists_congr fun other => and_congr_left fun _ => forall₂_congr fun var outside => ?_
  rw [agree var outside]

end

section

variable {vars : Set Nat} {top : Nat} (function : BoolFunction)

theorem update_of_eq {valuation : Valuation} {var : Nat} {value : Bool}
    (same : valuation var = value) : Function.update valuation var value = valuation := by
  rw [← same]
  exact Function.update_eq_self var valuation

/-- A variable that is not quantified may be fixed before or after. -/
theorem cofactor_quantified (free : top ∉ vars) (value : Bool) :
    cofactor (quantified vars function) top value = quantified vars (cofactor function top value) := by
  funext valuation
  refine Bool.eq_iff_iff.mpr ?_
  show quantified vars function (Function.update valuation top value) = true ↔ _
  rw [quantified_eq_true_iff, quantified_eq_true_iff]
  constructor
  · rintro ⟨other, outside, isTrue⟩
    have atTop : other top = value := by rw [outside top free, Function.update_self]
    refine ⟨Function.update other top (valuation top), fun var notQuantified => ?_, ?_⟩
    · by_cases same : var = top
      · rw [same, Function.update_self]
      · rw [Function.update_of_ne same, outside var notQuantified, Function.update_of_ne same]
    · show function (Function.update (Function.update other top (valuation top)) top value) = true
      rw [Function.update_idem, update_of_eq atTop]
      exact isTrue
  · rintro ⟨other, outside, isTrue⟩
    refine ⟨Function.update other top value, fun var notQuantified => ?_, isTrue⟩
    by_cases same : var = top
    · rw [same, Function.update_self, Function.update_self]
    · rw [Function.update_of_ne same, Function.update_of_ne same]
      exact outside var notQuantified

/-- A quantified variable is true or false. -/
theorem quantified_eq_or (member : top ∈ vars) : quantified vars function = fun valuation =>
    quantified vars (cofactor function top false) valuation ||
      quantified vars (cofactor function top true) valuation := by
  funext valuation
  refine Bool.eq_iff_iff.mpr ?_
  rw [Bool.or_eq_true, quantified_eq_true_iff, quantified_eq_true_iff, quantified_eq_true_iff]
  have back : ∀ value, (∃ other : Valuation, (∀ var ∉ vars, other var = valuation var) ∧
      cofactor function top value other = true) →
      ∃ other : Valuation, (∀ var ∉ vars, other var = valuation var) ∧ function other = true := by
    rintro value ⟨other, outside, isTrue⟩
    refine ⟨Function.update other top value, fun var notQuantified => ?_, isTrue⟩
    have different : var ≠ top := fun same => notQuantified (same ▸ member)
    rw [Function.update_of_ne different]
    exact outside var notQuantified
  constructor
  · rintro ⟨other, outside, isTrue⟩
    cases atTop : other top with
    | false => exact Or.inl ⟨other, outside, by rw [cofactor, update_of_eq atTop]; exact isTrue⟩
    | true => exact Or.inr ⟨other, outside, by rw [cofactor, update_of_eq atTop]; exact isTrue⟩
  · exact fun holds => holds.elim (back false) (back true)

end

end DecisionDiagram
