import DecisionDiagram.Proofs.Manager.WeightedSum
import Mathlib.Algebra.Order.BigOperators.Group.List

/-!
# What a weighted sum says

Under one valuation, the weight of all true literals lies between the weight of the true ones that were
passed and that with all the literals to come. So a branch that ends early ends with the outcome of the
whole sum. Nothing is asked of the order of the literals, and a variable may come again, with either
sign. As no weight is negative, no sum leaves a word unless the sum of all weights does.
-/

set_option autoImplicit false

namespace DecisionDiagram

/-! ## Words -/

theorem addWords_eq_ok {first second : Int} (fits : fitsWord (first + second)) :
    addWords first second = .ok (first + second) := if_pos fits

theorem subtractWords_eq_ok {first second : Int} (fits : fitsWord (first - second)) :
    subtractWords first second = .ok (first - second) := if_pos fits

theorem fitsWord_iff {number : Int} :
    fitsWord number ↔ -9223372036854775808 ≤ number ∧ number ≤ 9223372036854775807 := by
  simp [fitsWord]

theorem fitsWord_of_le {number most : Int} (fits : fitsWord most) (nonnegative : 0 ≤ number)
    (below : number ≤ most) : fitsWord number := by
  rw [fitsWord_iff] at fits ⊢
  omega

/-! ## Comparisons -/

namespace Threshold

/-- A settled comparison comes out as it does for every sum that is still possible. -/
theorem holds_of_settled {threshold : Threshold} {sum left whole : Int} {value : Bool}
    (answer : threshold.settled? sum left = .ok (some value)) (above : sum ≤ whole)
    (below : whole ≤ sum + left) : threshold.holds whole = value := by
  obtain ⟨comparison, bound⟩ := threshold
  cases comparison with
  | atLeast =>
    show decide (bound ≤ whole) = value
    simp only [settled?] at answer
    split at answer
    · cases answer
      exact decide_eq_true (by omega)
    · obtain ⟨most, adds, answer⟩ := answer_bind_eq_ok answer
      rw [Manager.addWords_eq adds] at answer
      split at answer
      · cases answer
        exact decide_eq_false (by omega)
      · cases answer
  | atMost =>
    show decide (whole ≤ bound) = value
    simp only [settled?] at answer
    obtain ⟨most, adds, answer⟩ := answer_bind_eq_ok answer
    rw [Manager.addWords_eq adds] at answer
    split at answer
    · cases answer
      exact decide_eq_true (by omega)
    · split at answer
      · cases answer
        exact decide_eq_false (by omega)
      · cases answer

/-- A comparison can be asked for, and it is settled when nothing is left. -/
theorem settled?_eq_ok (threshold : Threshold) {sum left : Int} (fits : fitsWord (sum + left)) :
    ∃ outcome, threshold.settled? sum left = .ok outcome ∧ (left = 0 → outcome.isSome) := by
  obtain ⟨comparison, bound⟩ := threshold
  -- both comparisons ask the same two questions, in another order
  cases comparison
  all_goals
    simp only [settled?, addWords_eq_ok fits, answer_bind]
    split
    · exact ⟨_, rfl, fun _ => rfl⟩
    · split
      · exact ⟨_, rfl, fun _ => rfl⟩
      · exact ⟨_, rfl, fun _ => by omega⟩

end Threshold

namespace Manager

/-! ## The weight of the true literals -/

/-- The sum of the weights whose literals are true. -/
def trueWeight (valuation : Valuation) (terms : List (Int × Int)) : Int :=
  weightOf (terms.filter fun term => literalFunction term.2 valuation)

/-- No weight is negative. -/
def Weighed (terms : List (Int × Int)) : Prop := ∀ term ∈ terms, 0 ≤ term.1

section

variable {threshold : Threshold} {weight literal sum : Int} {rest terms : List (Int × Int)}
  {valuation : Valuation}

theorem weightOf_cons : weightOf ((weight, literal) :: rest) = weight + weightOf rest :=
  List.sum_cons

theorem trueWeight_taken (holds : literalFunction literal valuation) :
    trueWeight valuation ((weight, literal) :: rest) = weight + trueWeight valuation rest := by
  unfold trueWeight
  rw [List.filter_cons, if_pos holds, weightOf_cons]

theorem trueWeight_skipped (fails : ¬literalFunction literal valuation) :
    trueWeight valuation ((weight, literal) :: rest) = trueWeight valuation rest := by
  unfold trueWeight
  rw [List.filter_cons, if_neg fails]

theorem weightOf_nonneg (weighed : Weighed terms) : 0 ≤ weightOf terms := by
  apply List.sum_nonneg
  intro weight member
  obtain ⟨term, isTerm, rfl⟩ := List.mem_map.mp member
  exact weighed term isTerm

theorem trueWeight_nonneg (valuation : Valuation) (weighed : Weighed terms) :
    0 ≤ trueWeight valuation terms :=
  weightOf_nonneg fun term member => weighed term (List.mem_of_mem_filter member)

theorem trueWeight_le (valuation : Valuation) (weighed : Weighed terms) :
    trueWeight valuation terms ≤ weightOf terms := by
  induction terms with
  | nil => exact Int.le_refl _
  | cons term rest ih =>
    obtain ⟨weight, literal⟩ := term
    obtain ⟨nonnegative, weighedRest⟩ := List.forall_mem_cons.mp weighed
    have restLe := ih weighedRest
    rw [weightOf_cons]
    by_cases holds : literalFunction literal valuation
    · rw [trueWeight_taken holds]
      omega
    · rw [trueWeight_skipped holds]
      omega

theorem trueWeight_congr {other : Valuation}
    (same : ∀ term ∈ terms, valuation term.2.natAbs = other term.2.natAbs) :
    trueWeight valuation terms = trueWeight other terms := by
  unfold trueWeight
  congr 1
  refine List.filter_congr fun term member => ?_
  rw [literalFunction, literalFunction, same term member]

/-! ## Branches -/

theorem literalTask_target_taken {taken skipped : Task} (holds : literalFunction literal valuation) :
    (literalTask literal taken skipped).target valuation = taken.target valuation :=
  if_pos holds

theorem literalTask_target_skipped {taken skipped : Task}
    (fails : ¬literalFunction literal valuation) :
    (literalTask literal taken skipped).target valuation = skipped.target valuation :=
  if_neg fails

/-- What is settled is settled, and nothing else is once all literals have been passed. -/
theorem branchTask_nil (proper : (branchTask threshold [] sum).proper) :
    ∃ value, threshold.settled? sum 0 = .ok (some value) ∧
      branchTask threshold [] sum = .of fun _ => value := by
  unfold branchTask at proper ⊢
  rcases answer : threshold.settled? sum 0 with fault | _ | value
  · rw [answer] at proper
    exact proper.elim
  · rw [answer] at proper
    exact proper.elim
  · exact ⟨value, rfl, rfl⟩

theorem branchTask_cons (proper : (branchTask threshold ((weight, literal) :: rest) sum).proper) :
    (∃ value, threshold.settled? sum (weight + weightOf rest) = .ok (some value) ∧
      branchTask threshold ((weight, literal) :: rest) sum = .of fun _ => value) ∨
    branchTask threshold ((weight, literal) :: rest) sum =
      literalTask literal (branchTask threshold rest (sum + weight))
        (branchTask threshold rest sum) := by
  rw [branchTask] at proper ⊢
  rcases answer : threshold.settled? sum (weight + weightOf rest) with fault | _ | value
  · rw [answer] at proper
    exact proper.elim
  · rw [answer] at proper
    right
    cases subtracts : subtractWords (weight + weightOf rest) weight with
    | error fault =>
      rw [subtracts] at proper
      exact proper.elim
    | ok left =>
      cases adds : addWords sum weight with
      | error fault =>
        rw [subtracts, adds] at proper
        exact proper.elim
      | ok more =>
        rw [← addWords_eq adds]
  · exact Or.inl ⟨value, rfl, rfl⟩

/-- Under one valuation, a branch that can be done comes out as the whole sum does. -/
theorem branchTask_target (weighed : Weighed terms)
    (proper : (branchTask threshold terms sum).proper) :
    (branchTask threshold terms sum).target valuation =
      threshold.holds (sum + trueWeight valuation terms) := by
  -- one valuation for the whole induction, so that a variable that comes again is no special case
  induction terms generalizing sum with
  | nil =>
    obtain ⟨value, answer, isSettled⟩ := branchTask_nil proper
    have outcome : threshold.holds (sum + trueWeight valuation []) = value :=
      threshold.holds_of_settled answer (Int.le_of_eq (Int.add_zero sum).symm) (Int.le_refl _)
    rw [isSettled]
    exact outcome.symm
  | cons term rest ih =>
    obtain ⟨weight, literal⟩ := term
    have least := trueWeight_nonneg valuation weighed
    have most := trueWeight_le valuation weighed
    rw [weightOf_cons] at most
    rcases branchTask_cons proper with ⟨value, answer, isSettled⟩ | splits
    · have outcome := threshold.holds_of_settled answer (Int.le_add_of_nonneg_right least) (by omega)
      rw [isSettled]
      exact outcome.symm
    · rw [splits] at proper ⊢
      obtain ⟨_, properTaken, properSkipped⟩ := proper
      have weighedRest : Weighed rest := (List.forall_mem_cons.mp weighed).2
      by_cases holds : literalFunction literal valuation
      · rw [literalTask_target_taken holds, ih weighedRest properTaken, trueWeight_taken holds,
          Int.add_assoc]
      · rw [literalTask_target_skipped holds, ih weighedRest properSkipped, trueWeight_skipped holds]

/-- While sums stay within a word, only literals that cannot be asked for are in the way. -/
theorem branchTask_proper (weighed : Weighed terms) (literals : ∀ term ∈ terms, Literal term.2)
    (nonnegative : 0 ≤ sum) (fits : fitsWord (sum + weightOf terms)) :
    (branchTask threshold terms sum).proper := by
  induction terms generalizing sum with
  | nil =>
    have alone : fitsWord (sum + 0) := fits
    obtain ⟨outcome, answer, settled⟩ := threshold.settled?_eq_ok alone
    obtain ⟨value, rfl⟩ := Option.isSome_iff_exists.mp (settled rfl)
    rw [branchTask, answer]
    trivial
  | cons term rest ih =>
    obtain ⟨weight, literal⟩ := term
    obtain ⟨isWeight, weighedRest⟩ := List.forall_mem_cons.mp weighed
    obtain ⟨isLiteral, literalsRest⟩ := List.forall_mem_cons.mp literals
    have restNonneg := weightOf_nonneg weighedRest
    rw [weightOf_cons] at fits
    obtain ⟨outcome, answer, _⟩ := threshold.settled?_eq_ok fits
    rw [branchTask, answer]
    cases outcome with
    | some value => trivial
    | none =>
      have subtracts : subtractWords (weight + weightOf rest) weight = .ok (weightOf rest) := by
        rw [subtractWords_eq_ok, add_sub_cancel_left]
        exact fitsWord_of_le fits (by omega) (by omega)
      have adds : addWords sum weight = .ok (sum + weight) :=
        addWords_eq_ok (fitsWord_of_le fits (Int.add_nonneg nonnegative isWeight) (by omega))
      rw [subtracts, adds]
      refine ⟨isLiteral, ih weighedRest literalsRest (Int.add_nonneg nonnegative isWeight) ?_,
        ih weighedRest literalsRest nonnegative (fitsWord_of_le fits (by omega) (by omega))⟩
      rw [Int.add_assoc]
      exact fits

end

/-! ## All terms -/

/-- Weights that are not negative and add up to a word, one for each literal. -/
structure WellWeighed (weights literals : List Int) : Prop where
  sameLength : weights.length = literals.length
  nonnegative : ∀ weight ∈ weights, 0 ≤ weight
  nonzero : 0 ∉ literals
  fits : fitsWord weights.sum

/-- Numbers that are not negative are added one by one if all of them together can be added. -/
theorem foldlM_addWords_eq {weights : List Int} {start : Int}
    (nonnegative : ∀ weight ∈ weights, 0 ≤ weight) (above : 0 ≤ start) (fits : fitsWord start) :
    weights.foldlM addWords start = addWords start weights.sum := by
  induction weights generalizing start with
  | nil =>
    rw [List.sum_nil, addWords_eq_ok (by rwa [Int.add_zero]), Int.add_zero]
    rfl
  | cons weight rest ih =>
    obtain ⟨isWeight, others⟩ := List.forall_mem_cons.mp nonnegative
    have restNonneg := List.sum_nonneg others
    have more := Int.add_nonneg above isWeight
    rw [List.foldlM_cons, List.sum_cons]
    by_cases within : fitsWord (start + weight)
    · rw [addWords_eq_ok within, answer_bind, ih others more within, addWords, addWords,
        Int.add_assoc]
    · have beyond : ¬fitsWord (start + (weight + rest.sum)) := fun whole =>
        within (fitsWord_of_le whole more (by omega))
      rw [addWords, if_neg within, addWords, if_neg beyond]
      rfl

theorem totalWeight_eq_addWords {weights : List Int}
    (nonnegative : ∀ weight ∈ weights, 0 ≤ weight) : totalWeight weights = addWords 0 weights.sum :=
  foldlM_addWords_eq nonnegative (Int.le_refl 0) (by decide)

/-- Nothing is refused but what the checks look at: the lengths, the signs of the weights, and zero. -/
theorem weightedLiterals_eq_zip {weights literals : List Int}
    (sameLength : weights.length = literals.length) (nonnegative : ∀ weight ∈ weights, 0 ≤ weight)
    (nonzero : 0 ∉ literals) : weightedLiterals weights literals = .ok (weights.zip literals) := by
  unfold weightedLiterals
  simp only [if_pos sameLength]
  rw [forM_eq_ok]
  · rfl
  rintro ⟨weight, literal⟩ member
  obtain ⟨isWeight, isLiteral⟩ := List.of_mem_zip member
  have notNegative : ¬weight < 0 := Int.not_lt.mpr (nonnegative weight isWeight)
  have notZero : literal ≠ 0 := fun zero => nonzero (zero ▸ isLiteral)
  simp only [if_neg notNegative, if_neg notZero]
  rfl

namespace WellWeighed

variable {weights literals : List Int}

theorem weighed (well : WellWeighed weights literals) : Weighed (weights.zip literals) :=
  fun term member => well.nonnegative term.1 (List.of_mem_zip member).1

theorem weightOf_eq (well : WellWeighed weights literals) :
    weightOf (weights.zip literals) = weights.sum :=
  weightOf_zip well.sameLength

theorem weightedLiterals_eq_ok (well : WellWeighed weights literals) :
    weightedLiterals weights literals = .ok (weights.zip literals) :=
  weightedLiterals_eq_zip well.sameLength well.nonnegative well.nonzero

theorem totalWeight_eq_ok (well : WellWeighed weights literals) :
    totalWeight weights = .ok weights.sum := by
  have fits : fitsWord (0 + weights.sum) := by
    rw [Int.zero_add]
    exact well.fits
  rw [totalWeight_eq_addWords well.nonnegative, addWords_eq_ok fits, Int.zero_add]

theorem task_eq (well : WellWeighed weights literals) (comparison : Comparison) (bound : Int) :
    weightedSumTask comparison weights literals bound =
      branchTask ⟨comparison, bound⟩ (weights.zip literals) 0 := by
  rw [weightedSumTask, well.weightedLiterals_eq_ok, well.totalWeight_eq_ok]

theorem task_target (well : WellWeighed weights literals) {comparison : Comparison} {bound : Int}
    (proper : (weightedSumTask comparison weights literals bound).proper) :
    (weightedSumTask comparison weights literals bound).target = fun valuation =>
      Threshold.holds ⟨comparison, bound⟩ (trueWeight valuation (weights.zip literals)) := by
  rw [well.task_eq] at proper ⊢
  funext valuation
  rw [branchTask_target well.weighed proper, Int.zero_add]

theorem task_proper (well : WellWeighed weights literals) (comparison : Comparison) (bound : Int)
    (notLeast : leastCode ∉ literals) :
    (weightedSumTask comparison weights literals bound).proper := by
  rw [well.task_eq]
  refine branchTask_proper well.weighed (fun term member => ?_) (Int.le_refl 0) ?_
  · have isLiteral := (List.of_mem_zip member).2
    exact ⟨fun zero => well.nonzero (zero ▸ isLiteral), fun least => notLeast (least ▸ isLiteral)⟩
  · rw [well.weightOf_eq, Int.zero_add]
    exact well.fits

end WellWeighed

end Manager

end DecisionDiagram
