import Mathlib.Data.Finset.Basic
import Mathlib.Logic.Function.DependsOn
import Mathlib.Order.Interval.Set.Defs

/-!
# Boolean functions of infinitely many variables

What an edge stands for is a function of a valuation of all variables, whichever of them occur in
the diagram. A cofactor fixes one variable; a function is put together again from its two cofactors
(`shannon`).
-/

set_option autoImplicit false

namespace DecisionDiagram

abbrev Valuation := Nat → Bool

abbrev BoolFunction := Valuation → Bool

/-- The function with one variable fixed. -/
def cofactor (function : BoolFunction) (var : Nat) (value : Bool) : BoolFunction :=
  fun valuation => function (Function.update valuation var value)

/-- The function that a variable chooses. -/
def branch (var : Nat) (high low : BoolFunction) : BoolFunction :=
  fun valuation => if valuation var then high valuation else low valuation

theorem shannon (function : BoolFunction) (var : Nat) :
    branch var (cofactor function var true) (cofactor function var false) = function := by
  funext valuation
  unfold branch cofactor
  cases value : valuation var with
  | true => rw [if_pos rfl, ← value, Function.update_eq_self]
  | false => rw [if_neg Bool.false_ne_true, ← value, Function.update_eq_self]

section

variable {function : BoolFunction} {vars : Set Nat} {var : Nat}

theorem cofactor_of_notMem (depends : DependsOn function vars) (outside : var ∉ vars)
    (value : Bool) : cofactor function var value = function := by
  funext valuation
  refine depends fun other member => Function.update_of_ne ?_ _ _
  intro same
  exact outside (same ▸ member)

theorem dependsOn_cofactor (depends : DependsOn function vars) (var : Nat) (value : Bool) :
    DependsOn (cofactor function var value) (vars \ {var}) := by
  intro first second agree
  refine depends fun other member => ?_
  by_cases same : other = var
  · rw [same, Function.update_self, Function.update_self]
  · rw [Function.update_of_ne same, Function.update_of_ne same]
    exact agree other ⟨member, same⟩

theorem dependsOn_cofactor_Ioi (depends : DependsOn function (Set.Ici var)) (value : Bool) :
    DependsOn (cofactor function var value) (Set.Ioi var) := by
  apply (dependsOn_cofactor depends var value).mono
  rintro other ⟨atLeast, different⟩
  exact lt_of_le_of_ne atLeast (Ne.symm different)

theorem dependsOn_not (depends : DependsOn function vars) :
    DependsOn (fun valuation => !function valuation) vars :=
  fun _ _ agree => congrArg not (depends agree)

end

section

variable {high low : BoolFunction} {var : Nat}

theorem dependsOn_branch (onHigh : DependsOn high (Set.Ioi var))
    (onLow : DependsOn low (Set.Ioi var)) : DependsOn (branch var high low) (Set.Ici var) := by
  intro first second agree
  unfold branch
  have later : ∀ other ∈ Set.Ioi var, first other = second other := fun other after =>
    agree other (Nat.le_of_lt after)
  rw [agree var (Nat.le_refl var), onHigh later, onLow later]

/-- The cofactors of a branch are the functions that it chooses from. -/
theorem cofactor_branch (onHigh : DependsOn high (Set.Ioi var))
    (onLow : DependsOn low (Set.Ioi var)) (value : Bool) :
    cofactor (branch var high low) var value = if value then high else low := by
  have outside : var ∉ Set.Ioi var := lt_irrefl var
  funext valuation
  cases value with
  | true =>
    have kept := congrFun (cofactor_of_notMem onHigh outside true) valuation
    simpa [cofactor, branch] using kept
  | false =>
    have kept := congrFun (cofactor_of_notMem onLow outside false) valuation
    simpa [cofactor, branch] using kept

end

end DecisionDiagram
