import DecisionDiagram.Proofs.Manager.TrueWeight
import Mathlib.Logic.Relation

/-!
# Searches stay within words

A search for a weighted sum adds and subtracts without a look at the range of words. It need not look:
in every branch that it comes to, the weight still to come is that of the literals still to come, and
together with the sum so far it is at most the sum of all weights. So once that sum is known to fit,
nothing leaves a word, whatever the bound is, and the position and the sum tell a branch.

`Reached` follows the calls that a branch makes itself. Nothing else matters to a search
(`eq_search_of_reached`).
-/

set_option autoImplicit false

namespace DecisionDiagram.Manager

/-- The arguments of a search: the literals still to come with their weights, the number of those that
have been passed, the sum so far and the weight still to come. -/
@[ext]
structure Branch where
  rest : List (Int × Int)
  position : Nat
  sum : Int
  left : Int

namespace Branch

def search (threshold : Threshold) (branch : Branch) : Memoized (Nat × Int) Edge :=
  weightedSumFrom threshold branch.rest branch.position branch.sum branch.left

/-- The work of one branch, where `below` does that of the branches below. -/
def work (threshold : Threshold) (below : Branch → Memoized (Nat × Int) Edge) :
    Branch → Memoized (Nat × Int) Edge
  | ⟨[], _, sum, left⟩ => do
    match ← threshold.settled? sum left with
    | some true => return .one
    | some false => return .zero
    | none => throw .undecidedSum
  | ⟨(weight, literal) :: rest, position, sum, left⟩ => do
    match ← threshold.settled? sum left with
    | some true => return .one
    | some false => return .zero
    | none =>
      remembering (position, sum) do
        let left ← subtractWords left weight
        let taken ← below ⟨rest, position + 1, ← addWords sum weight, left⟩
        let skipped ← below ⟨rest, position + 1, sum, left⟩
        let condition ← Manager.literal literal
        ite condition taken skipped

/-- The calls that an unsettled branch makes itself. -/
inductive Next (threshold : Threshold) : Branch → Branch → Prop
  | taken {weight literal sum left less more : Int} {rest : List (Int × Int)} {position : Nat} :
      threshold.settled? sum left = .ok none → subtractWords left weight = .ok less →
        addWords sum weight = .ok more →
          Next threshold ⟨(weight, literal) :: rest, position, sum, left⟩ ⟨rest, position + 1, more, less⟩
  | skipped {weight literal sum left less more : Int} {rest : List (Int × Int)} {position : Nat} :
      threshold.settled? sum left = .ok none → subtractWords left weight = .ok less →
        addWords sum weight = .ok more →
          Next threshold ⟨(weight, literal) :: rest, position, sum, left⟩ ⟨rest, position + 1, sum, less⟩

/-- The branches that a search comes to, those included whose outcome is remembered by then. -/
abbrev Reached (threshold : Threshold) : Branch → Branch → Prop :=
  Relation.ReflTransGen (Next threshold)

/-- The whole search. -/
def start (weights literals : List Int) : Branch := ⟨weights.zip literals, 0, 0, weights.sum⟩

/-- The arguments are what they stand for, and all that is done with them stays within words. -/
structure Bounded (threshold : Threshold) (weights literals : List Int) (branch : Branch) : Prop where
  rest : branch.rest = (weights.zip literals).drop branch.position
  left : branch.left = (weights.drop branch.position).sum
  nonnegative : 0 ≤ branch.sum
  most : branch.sum + branch.left ≤ weights.sum
  settles : ∃ outcome, threshold.settled? branch.sum branch.left = .ok outcome
  completes : addWords branch.sum branch.left = .ok (branch.sum + branch.left)
  takes : ∀ weight, weights[branch.position]? = some weight →
    addWords branch.sum weight = .ok (branch.sum + weight) ∧
      subtractWords branch.left weight = .ok (branch.left - weight)
  inside : threshold.settled? branch.sum branch.left = .ok none → branch.position < literals.length

variable {threshold : Threshold} {branch next : Branch} {terms : List (Int × Int)}
  {weights literals : List Int}

/-! ## Nothing matters but the branches that are reached -/

/-- What follows a question needs to agree only on the answer. -/
theorem question_bind_congr {Result Next : Type} {question : Except Fault Result}
    {first second : Result → Memoized (Nat × Int) Next}
    (agree : ∀ result, question = .ok result → first result = second result) :
    (liftM question >>= first) = (liftM question >>= second) := by
  cases question with
  | error fault => rfl
  | ok result =>
    funext memo
    exact congrFun (agree result rfl) memo

theorem search_eq_work (threshold : Threshold) (branch : Branch) :
    branch.search threshold = branch.work threshold (search threshold) := by
  obtain ⟨rest, position, sum, left⟩ := branch
  cases rest with
  | nil => rfl
  | cons term rest => rfl

/-- A branch asks for nothing but the branches that follow it. -/
theorem work_congr {first second : Branch → Memoized (Nat × Int) Edge}
    (agree : ∀ next, Next threshold branch next → first next = second next) :
    branch.work threshold first = branch.work threshold second := by
  obtain ⟨rest, position, sum, left⟩ := branch
  cases rest with
  | nil => rfl
  | cons term rest =>
    obtain ⟨weight, literal⟩ := term
    apply question_bind_congr
    intro outcome answer
    cases outcome with
    | some value => cases value <;> rfl
    | none =>
      apply congrArg (remembering (position, sum))
      apply question_bind_congr
      intro less subtracts
      apply question_bind_congr
      intro more adds
      rw [agree _ (.taken answer subtracts adds), agree _ (.skipped answer subtracts adds)]

/-- Whatever does the work of the branches that are reached does what the search does. -/
theorem eq_search_of_reached {other : Branch → Memoized (Nat × Int) Edge}
    (same : ∀ next, Reached threshold branch next → other next = next.work threshold other) :
    other branch = branch.search threshold := by
  obtain ⟨rest, position, sum, left⟩ := branch
  induction rest generalizing position sum left with
  | nil =>
    rw [same _ .refl, search_eq_work]
    rfl
  | cons term rest ih =>
    rw [same _ .refl, search_eq_work]
    apply work_congr
    intro next follows
    have below := fun later reached => same later (Relation.ReflTransGen.head follows reached)
    cases follows with
    | taken => exact ih _ _ _ below
    | skipped => exact ih _ _ _ below

/-! ## What is kept from branch to branch -/

/-- The arguments are what they stand for. -/
structure Kept (terms : List (Int × Int)) (branch : Branch) : Prop where
  rest : branch.rest = terms.drop branch.position
  left : branch.left = weightOf branch.rest
  nonnegative : 0 ≤ branch.sum
  most : branch.sum + branch.left ≤ weightOf terms

theorem kept_start (sameLength : weights.length = literals.length) :
    Kept (weights.zip literals) (start weights literals) where
  rest := rfl
  left := (weightOf_zip sameLength).symm
  nonnegative := Int.le_refl 0
  most := by
    rw [weightOf_zip sameLength]
    exact Int.le_of_eq (Int.zero_add weights.sum)

namespace Kept

/-- A branch passes its first literal. -/
theorem passed {weight literal sum left : Int} {rest : List (Int × Int)} {position : Nat}
    (kept : Kept terms ⟨(weight, literal) :: rest, position, sum, left⟩) :
    rest = terms.drop (position + 1) ∧ left - weight = weightOf rest := by
  constructor
  · rw [← List.drop_drop, ← kept.rest, List.drop_one, List.tail_cons]
  · rw [show left = weight + weightOf rest from kept.left.trans weightOf_cons, add_sub_cancel_left]

theorem weighed (kept : Kept terms branch) (weighed : Weighed terms) : Weighed branch.rest := by
  rw [kept.rest]
  exact fun term member => weighed term (List.mem_of_mem_drop member)

theorem follow (kept : Kept terms branch) (weighed : Weighed terms)
    (follows : Next threshold branch next) : Kept terms next := by
  have nonnegative := kept.nonnegative
  have most := kept.most
  have isWeight := kept.weighed weighed
  cases follows with
  | taken answer subtracts adds =>
    obtain ⟨isRest, isLeft⟩ := kept.passed
    have first := isWeight _ List.mem_cons_self
    rw [subtractWords_eq subtracts, addWords_eq adds]
    refine ⟨isRest, isLeft, Int.add_nonneg nonnegative first, ?_⟩
    rw [add_add_sub_cancel]
    exact most
  | skipped answer subtracts adds =>
    obtain ⟨isRest, isLeft⟩ := kept.passed
    have first := isWeight _ List.mem_cons_self
    rw [subtractWords_eq subtracts]
    refine ⟨isRest, isLeft, nonnegative, ?_⟩
    exact Int.le_trans (Int.add_le_add_left (Int.sub_le_self _ first) _) most

theorem reach (kept : Kept terms branch) (weighed : Weighed terms)
    (reached : Reached threshold branch next) : Kept terms next := by
  induction reached with
  | refl => exact kept
  | tail _ follows ih => exact ih.follow weighed follows

/-- What is kept is enough for every question and every step. -/
theorem bounded (kept : Kept (weights.zip literals) branch) (well : WellWeighed weights literals) :
    Bounded threshold weights literals branch := by
  have nonnegative := kept.nonnegative
  have most := kept.most
  have leftNonneg : 0 ≤ branch.left := by
    rw [kept.left]
    exact weightOf_nonneg (kept.weighed well.weighed)
  have isLeft : branch.left = (weights.drop branch.position).sum := by
    rw [kept.left, kept.rest, weightOf, List.map_drop, List.map_fst_zip (Nat.le_of_eq well.sameLength)]
  rw [well.weightOf_eq] at most
  have fits : fitsWord (branch.sum + branch.left) :=
    fitsWord_of_le well.fits (Int.add_nonneg nonnegative leftNonneg) most
  obtain ⟨outcome, answer, settled⟩ := threshold.settled?_eq_ok fits
  refine ⟨kept.rest, isLeft, nonnegative, most, ⟨outcome, answer⟩, addWords_eq_ok fits, ?_, ?_⟩
  · intro weight isNext
    obtain ⟨inside, rfl⟩ := List.getElem?_eq_some_iff.mp isNext
    have isWeight := well.nonnegative _ (List.getElem_mem inside)
    have laterNonneg : 0 ≤ (weights.drop (branch.position + 1)).sum :=
      List.sum_nonneg fun weight later => well.nonnegative weight (List.mem_of_mem_drop later)
    rw [List.drop_eq_getElem_cons inside, List.sum_cons] at isLeft
    constructor
    · exact addWords_eq_ok (fitsWord_of_le fits (by omega) (by omega))
    · exact subtractWords_eq_ok (fitsWord_of_le fits (by omega) (by omega))
  · intro undecided
    by_contra beyond
    have none : branch.left = 0 := by
      rw [isLeft, List.drop_eq_nil_of_le (by rw [well.sameLength]; omega), List.sum_nil]
    have decided := settled none
    rw [undecided] at answer
    rw [← Except.ok.inj answer] at decided
    exact Bool.noConfusion decided

end Kept

/-! ## The whole search -/

/-- A search of which only the bounded branches matter, and in which the position and the sum tell the
branch. -/
structure Safe (threshold : Threshold) (weights literals : List Int) : Prop where
  total : totalWeight weights = .ok weights.sum
  search : weightedSum threshold.comparison weights literals threshold.bound =
    withMemo ((start weights literals).search threshold)
  decisive : ∀ other : Branch → Memoized (Nat × Int) Edge,
    (∀ next, Reached threshold (start weights literals) next →
      other next = next.work threshold other) →
        other (start weights literals) = (start weights literals).search threshold
  bounded : ∀ branch, Reached threshold (start weights literals) branch →
    Bounded threshold weights literals branch
  key : ∀ first second, Reached threshold (start weights literals) first →
    Reached threshold (start weights literals) second →
      first.position = second.position → first.sum = second.sum → first = second

theorem Bounded.eq_of_key {other : Branch} (bounded : Bounded threshold weights literals branch)
    (otherBounded : Bounded threshold weights literals other)
    (samePosition : branch.position = other.position) (sameSum : branch.sum = other.sum) :
    branch = other := by
  have sameRest : branch.rest = other.rest := by
    rw [bounded.rest, otherBounded.rest, samePosition]
  have sameLeft : branch.left = other.left := by
    rw [bounded.left, otherBounded.left, samePosition]
  exact Branch.ext sameRest samePosition sameSum sameLeft

theorem safe_of_wellWeighed (well : WellWeighed weights literals) (threshold : Threshold) :
    Safe threshold weights literals := by
  have bounded : ∀ branch, Reached threshold (start weights literals) branch →
      Bounded threshold weights literals branch := fun branch reached =>
    ((kept_start well.sameLength).reach well.weighed reached).bounded well
  refine ⟨well.totalWeight_eq_ok, ?_, fun other same => eq_search_of_reached same, bounded, ?_⟩
  · rw [weightedSum, well.weightedLiterals_eq_ok, well.totalWeight_eq_ok]
    rfl
  · intro first second reached otherReached samePosition sameSum
    exact (bounded first reached).eq_of_key (bounded second otherReached) samePosition sameSum

end Branch

theorem totalWeight_eq_error_iff {weights : List Int} (nonnegative : ∀ weight ∈ weights, 0 ≤ weight) :
    totalWeight weights = .error .addOverflow ↔ 9223372036854775807 < weights.sum := by
  have least := List.sum_nonneg nonnegative
  rw [totalWeight_eq_addWords nonnegative, addWords, Int.zero_add]
  by_cases fits : fitsWord weights.sum
  · have within := (fitsWord_iff.mp fits).2
    rw [if_pos fits]
    constructor
    · intro refused
      cases refused
    · intro beyond
      omega
  · rw [if_neg fits]
    refine iff_of_true rfl ?_
    by_contra within
    exact fits (fitsWord_iff.mpr ⟨by omega, by omega⟩)

/-- With weights that are not negative, the one thing to look at is the sum of all of them. It is added
up before the search, and fits or is refused. -/
theorem weightedSum_within_words {weights literals : List Int}
    (sameLength : weights.length = literals.length) (nonnegative : ∀ weight ∈ weights, 0 ≤ weight)
    (nonzero : 0 ∉ literals) (comparison : Comparison) (bound : Int) :
    (totalWeight weights = .error .addOverflow ↔ 9223372036854775807 < weights.sum) ∧
    (9223372036854775807 < weights.sum → ∀ manager,
      weightedSum comparison weights literals bound manager = .error .addOverflow manager) ∧
    (weights.sum ≤ 9223372036854775807 → Branch.Safe ⟨comparison, bound⟩ weights literals) := by
  have refused := totalWeight_eq_error_iff nonnegative
  refine ⟨refused, fun beyond manager => ?_, fun within => ?_⟩
  · rw [weightedSum, weightedLiterals_eq_zip sameLength nonnegative nonzero, refused.mpr beyond]
    rfl
  · have fits : fitsWord weights.sum :=
      fitsWord_iff.mpr ⟨by have := List.sum_nonneg nonnegative; omega, within⟩
    exact Branch.safe_of_wellWeighed ⟨sameLength, nonnegative, nonzero, fits⟩ ⟨comparison, bound⟩

/-- Two weights that take up a whole word, with a variable and its negation. -/
theorem greatest_total_within_words :
    let weights := [9223372036854775806, 1]
    totalWeight weights = .ok 9223372036854775807 ∧
      Branch.Safe ⟨.atLeast, 9223372036854775807⟩ weights [1, -1] := by
  have safe := (@weightedSum_within_words [9223372036854775806, 1] [1, -1] rfl (by decide) (by decide)
    .atLeast 9223372036854775807).2.2 (by decide)
  exact ⟨safe.total, safe⟩

end DecisionDiagram.Manager
