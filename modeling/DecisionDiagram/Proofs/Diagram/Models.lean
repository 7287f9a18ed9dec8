import DecisionDiagram.Proofs.Diagram.BoolFunction
import Mathlib.Data.Finset.Powerset
import Mathlib.Data.Set.Card

/-!
# Models over finitely many variables

A model over a set of variables is the set of those that are true. A variable splits the models of a
function into those of its two cofactors (`card_models_insert`), which is what counting along a
diagram rests on.
-/

set_option autoImplicit false

namespace DecisionDiagram

/-- The valuation that makes some variables true. -/
def valuationIn (trues : Finset Nat) : Valuation := fun var => decide (var ∈ trues)

/-- The ways of making the function true with true variables among `vars`. -/
def models (vars : Finset Nat) (function : BoolFunction) : Finset (Finset Nat) :=
  vars.powerset.filter fun trues => function (valuationIn trues)

variable {vars : Finset Nat} {function : BoolFunction} {var : Nat}

theorem mem_models {trues : Finset Nat} :
    trues ∈ models vars function ↔ trues ⊆ vars ∧ function (valuationIn trues) := by
  simp [models]

theorem valuationIn_insert (trues : Finset Nat) (var : Nat) :
    valuationIn (insert var trues) = Function.update (valuationIn trues) var true := by
  funext other
  by_cases same : other = var <;> simp [valuationIn, same]

theorem valuationIn_of_notMem {trues : Finset Nat} (outside : var ∉ trues) :
    valuationIn trues = Function.update (valuationIn trues) var false := by
  funext other
  by_cases same : other = var <;> simp [valuationIn, same, outside]

/-- A set of variables is known from the values that it gives them. -/
theorem eq_of_valuationIn_eq {left right : Finset Nat} (leftInside : left ⊆ vars)
    (rightInside : right ⊆ vars)
    (same : ∀ var ∈ vars, valuationIn left var = valuationIn right var) : left = right := by
  ext var
  by_cases member : var ∈ vars
  · exact decide_eq_decide.mp (same var member)
  · exact iff_of_false (fun known => member (leftInside known))
      fun known => member (rightInside known)

/-- The models in which a variable is false, and those in which it is true. -/
theorem models_insert (fresh : var ∉ vars) (function : BoolFunction) :
    models (insert var vars) function = models vars (cofactor function var false) ∪
      (models vars (cofactor function var true)).image (insert var) := by
  unfold models
  rw [Finset.powerset_insert, Finset.filter_union, Finset.filter_image]
  congr 1
  · apply Finset.filter_congr
    intro trues inside
    have outside : var ∉ trues := fun member => fresh (Finset.mem_powerset.mp inside member)
    rw [cofactor, ← valuationIn_of_notMem outside]
  · refine congrArg _ (Finset.filter_congr fun trues _ => ?_)
    rw [cofactor, ← valuationIn_insert]

theorem card_models_insert (fresh : var ∉ vars) (function : BoolFunction) :
    (models (insert var vars) function).card =
      (models vars (cofactor function var false)).card +
        (models vars (cofactor function var true)).card := by
  have outside : ∀ trues ∈ vars.powerset, var ∉ trues := fun trues inside member =>
    fresh (Finset.mem_powerset.mp inside member)
  have apart : Disjoint (models vars (cofactor function var false))
      ((models vars (cofactor function var true)).image (insert var)) := by
    rw [Finset.disjoint_left]
    intro trues onFalse onTrue
    obtain ⟨rest, _, rfl⟩ := Finset.mem_image.mp onTrue
    exact outside _ (Finset.mem_filter.mp onFalse).1 (Finset.mem_insert_self var rest)
  have injective : Set.InjOn (insert var) (models vars (cofactor function var true) : Set (Finset Nat)) := by
    intro left leftModel right rightModel same
    have onLeft := outside left (Finset.mem_filter.mp leftModel).1
    have onRight := outside right (Finset.mem_filter.mp rightModel).1
    rw [← Finset.erase_insert onLeft, same, Finset.erase_insert onRight]
  rw [models_insert fresh, Finset.card_union_of_disjoint apart, Finset.card_image_of_injOn injective]

theorem cofactor_cofactor (function : BoolFunction) (var : Nat) (value other : Bool) :
    cofactor (cofactor function var value) var other = cofactor function var value := by
  funext valuation
  simp [cofactor]

/-- Over a set that has the variable, the cofactors have the models of the function twice. -/
theorem card_models_cofactors (member : var ∈ vars) (function : BoolFunction) :
    (models vars (cofactor function var false)).card +
      (models vars (cofactor function var true)).card = 2 * (models vars function).card := by
  have fresh := Finset.notMem_erase var vars
  rw [← Finset.insert_erase member, card_models_insert fresh, card_models_insert fresh,
    card_models_insert fresh]
  simp only [cofactor_cofactor]
  omega

theorem card_models_not (vars : Finset Nat) (function : BoolFunction) :
    (models vars fun valuation => !function valuation).card + (models vars function).card =
      2 ^ vars.card := by
  have complement : models vars (fun valuation => !function valuation) =
      vars.powerset.filter fun trues => ¬function (valuationIn trues) := by
    simp [models]
  rw [complement, Nat.add_comm, ← Finset.card_powerset]
  exact Finset.card_filter_add_card_filter_not _

theorem card_models_true (vars : Finset Nat) : (models vars fun _ => true).card = 2 ^ vars.card := by
  simp [models]

theorem card_models_false (vars : Finset Nat) : (models vars fun _ => false).card = 0 := by
  simp [models]

end DecisionDiagram
