import DecisionDiagram.Manager.WeightedSum
import DecisionDiagram.Proofs.Manager.Apply
import DecisionDiagram.Proofs.Manager.Task

/-!
# What a weighted sum comes to

A branch that is not settled is an if-then-else on its literal. The weight still to come is that of
the literals still to come, so a branch is told by the literals and the sum. Sums may leave the range
of words in the middle of the work. What was built before stays sound.
-/

set_option autoImplicit false

namespace DecisionDiagram.Manager

variable {scope : Scope} {store : Store Node}

def weightOf (terms : List (Int × Int)) : Int := (terms.map Prod.fst).sum

theorem weightOf_zip {weights literals : List Int} (sameLength : weights.length = literals.length) :
    weightOf (weights.zip literals) = weights.sum := by
  rw [weightOf, List.map_fst_zip (Nat.le_of_eq sameLength)]

/-- If-then-else on a literal. -/
def literalTask (number : Int) (taken skipped : Task) : Task where
  target := ifThenElse (literalFunction number) taken.target skipped.target
  needs := insert (ifThenElse (literalFunction number) taken.target skipped.target)
    (insert (literalFunction number) (taken.needs ∪ skipped.needs))
  proper := Literal number ∧ taken.proper ∧ skipped.proper

section

variable {number : Int} {taken skipped : Task}

theorem literalTask_taken (covered : (literalTask number taken skipped).Covered scope) :
    taken.Covered scope where
  needs := fun _ member => covered.needs (Or.inr (Or.inr (Or.inl member)))
  allows improper := covered.allows fun proper => improper proper.2.1

theorem literalTask_skipped (covered : (literalTask number taken skipped).Covered scope) :
    skipped.Covered scope where
  needs := fun _ member => covered.needs (Or.inr (Or.inr (Or.inr member)))
  allows improper := covered.allows fun proper => improper proper.2.2

theorem literalTask_done {edge condition : Edge} (proper : Literal number)
    (onLiteral : store.Represents condition (literalFunction number))
    (takenDone : ∃ edge, taken.Done edge store) (skippedDone : ∃ edge, skipped.Done edge store)
    (represents : store.Represents edge (literalTask number taken skipped).target) :
    (literalTask number taken skipped).Done edge store := by
  obtain ⟨_, takenDone⟩ := takenDone
  obtain ⟨_, skippedDone⟩ := skippedDone
  refine ⟨represents, ?_, proper, takenDone.proper, skippedDone.proper⟩
  rintro needed (rfl | rfl | need | need)
  · exact represents.mem_functions
  · exact onLiteral.mem_functions
  · exact takenDone.needs need
  · exact skippedDone.needs need

end

/-- A branch of the search, with the literals still to come and the sum so far. -/
def branchTask (threshold : Threshold) : List (Int × Int) → Int → Task
  | [], sum =>
    match threshold.settled? sum 0 with
    | .ok (some value) => .of fun _ => value
    | _ => .impossible
  | (weight, literal) :: rest, sum =>
    match threshold.settled? sum (weight + weightOf rest) with
    | .ok (some value) => .of fun _ => value
    | .ok none =>
      match subtractWords (weight + weightOf rest) weight with
      | .ok _ =>
        match addWords sum weight with
        | .ok more =>
          literalTask literal (branchTask threshold rest more) (branchTask threshold rest sum)
        | .error _ => .impossible
      | .error _ => .impossible
    | .error _ => .impossible

/-- The branches, named by the number of literals passed and the sum so far. -/
abbrev branches (threshold : Threshold) (terms : List (Int × Int)) : Naming (Nat × Int) :=
  .ofKey fun key => branchTask threshold (terms.drop key.1) key.2

theorem subtractWords_eq {first second difference : Int}
    (answer : subtractWords first second = .ok difference) : difference = first - second := by
  unfold subtractWords at answer
  split at answer
  · exact (Except.ok.inj answer).symm
  · cases answer

theorem addWords_eq {first second sum : Int} (answer : addWords first second = .ok sum) :
    sum = first + second := by
  unfold addWords at answer
  split at answer
  · exact (Except.ok.inj answer).symm
  · cases answer

theorem totalWeight_eq {weights : List Int} {total : Int} (answer : totalWeight weights = .ok total) :
    total = weights.sum := by
  have folded : ∀ (weights : List Int) (start : Int), weights.foldlM addWords start = .ok total →
      total = start + weights.sum := by
    intro weights
    induction weights with
    | nil =>
      intro start answer
      rw [← Except.ok.inj answer]
      simp
    | cons weight rest ih =>
      intro start answer
      rw [List.foldlM_cons] at answer
      cases first : addWords start weight with
      | error fault =>
        rw [first] at answer
        cases answer
      | ok sum =>
        rw [first] at answer
        rw [ih sum answer, addWords_eq first, List.sum_cons, Int.add_assoc]
  rw [folded weights 0 answer, Int.zero_add]

theorem weightedSumFrom_confined (threshold : Threshold) {terms rest : List (Int × Int)}
    {position : Nat} {sum left : Int} (canonical : store.Canonical)
    (isRest : terms.drop position = rest) (isLeft : left = weightOf rest)
    (covered : (branchTask threshold rest sum).Covered scope) :
    Confined ((branches threshold terms).remembers steady) scope
      (weightedSumFrom threshold rest position sum left) store (branchTask threshold rest sum).Done := by
  subst isLeft
  induction rest generalizing store scope position sum with
  | nil =>
    rw [weightedSumFrom]
    unfold branchTask at covered ⊢
    refine Confined.read_any canonical (fun fault answer => ?_) fun outcome answer => ?_
    · rw [weightOf, List.map_nil, List.sum_nil] at answer
      simp only [answer] at covered
      exact covered.allows id fault
    · rw [weightOf, List.map_nil, List.sum_nil] at answer
      simp only [answer] at covered ⊢
      cases outcome with
      | none => exact Confined.lift (Confined.throw canonical (covered.allows id _))
      | some value =>
        cases value with
        | true => exact Confined.pure canonical (Task.done_of canonical.represents_one)
        | false => exact Confined.pure canonical (Task.done_of canonical.represents_zero)
  | cons term rest ih =>
    obtain ⟨weight, literal⟩ := term
    have isWeight : weightOf ((weight, literal) :: rest) = weight + weightOf rest := List.sum_cons
    have named : (branches threshold terms).names store (position, sum)
        (branchTask threshold ((weight, literal) :: rest) sum) :=
      congrArg (branchTask threshold · sum) isRest.symm
    rw [weightedSumFrom, isWeight]
    refine Confined.read_any canonical (fun fault answer => ?_) fun outcome answer => ?_
    · unfold branchTask at covered
      simp only [answer] at covered
      exact covered.allows id fault
    cases outcome with
    | some value =>
      unfold branchTask
      simp only [answer]
      cases value with
      | true => exact Confined.pure canonical (Task.done_of canonical.represents_one)
      | false => exact Confined.pure canonical (Task.done_of canonical.represents_zero)
    | none =>
      refine (branches threshold terms).remember canonical named covered fun scope covered => ?_
      rw [branchTask, answer] at covered ⊢
      refine Confined.read_any canonical (fun fault failed => ?_) fun remaining subtracts => ?_
      · rw [failed] at covered
        exact covered.allows id fault
      rw [subtracts] at covered ⊢
      refine Confined.read_any canonical (fun fault failed => ?_) fun more adds => ?_
      · rw [failed] at covered
        exact covered.allows id fault
      rw [adds] at covered ⊢
      have isRemaining : remaining = weightOf rest := by
        rw [subtractWords_eq subtracts, add_sub_cancel_left]
      have isNext : terms.drop (position + 1) = rest := by
        rw [← List.drop_drop, isRest, List.drop_one, List.tail_cons]
      rw [isRemaining]
      apply (ih canonical isNext (literalTask_taken covered)).bind
      intro taken second grownTaken takenDone
      apply (ih grownTaken.canonical isNext (literalTask_skipped covered)).bind
      intro skipped third grownSkipped skippedDone
      refine (literal_confined grownSkipped.canonical literal
        (fun _ => covered.needs (Or.inr (Or.inl rfl)))
        (fun improper => covered.allows fun proper => improper proper.1)).lift.bind ?_
      rintro condition fourth grownLiteral ⟨proper, onLiteral⟩
      have takenDone := takenDone.grow (grownSkipped.trans grownLiteral)
      have skippedDone := skippedDone.grow grownLiteral
      refine (ite_confined grownLiteral.canonical onLiteral takenDone.represents
        skippedDone.represents (covered.needs (Set.mem_insert _ _))).lift.weaken ?_
      intro edge after grown joined
      exact literalTask_done proper (grown.represents onLiteral) ⟨taken, takenDone.grow grown⟩
        ⟨skipped, skippedDone.grow grown⟩ joined

theorem weightOf_eq {weights literals : List Int} {terms : List (Int × Int)}
    (answer : weightedLiterals weights literals = .ok terms) : weightOf terms = weights.sum := by
  unfold weightedLiterals at answer
  by_cases same : weights.length = literals.length
  · rw [if_pos same] at answer
    obtain ⟨_, _, paired⟩ := answer_bind_eq_ok answer
    rw [← Except.ok.inj paired, weightOf_zip same]
  · rw [if_neg same] at answer
    cases answer

/-- What a weighted sum has to come to, which it cannot where a word is left or an argument refused. -/
def weightedSumTask (comparison : Comparison) (weights literals : List Int) (bound : Int) : Task :=
  match weightedLiterals weights literals with
  | .ok terms =>
    match totalWeight weights with
    | .ok _ => branchTask ⟨comparison, bound⟩ terms 0
    | .error _ => .impossible
  | .error _ => .impossible

theorem weightedSum_confined (comparison : Comparison) (weights literals : List Int) (bound : Int)
    (canonical : store.Canonical)
    (covered : (weightedSumTask comparison weights literals bound).Covered scope) :
    Confined steady scope (weightedSum comparison weights literals bound) store
      (weightedSumTask comparison weights literals bound).Done := by
  unfold weightedSumTask at covered ⊢
  refine Confined.read_any canonical (fun fault failed => ?_) fun terms answer => ?_
  · rw [failed] at covered
    exact covered.allows id fault
  rw [answer] at covered ⊢
  refine Confined.read_any canonical (fun fault failed => ?_) fun total adds => ?_
  · rw [failed] at covered
    exact covered.allows id fault
  rw [adds] at covered ⊢
  have isTotal : total = weightOf terms := by
    rw [totalWeight_eq adds, weightOf_eq answer]
  exact (weightedSumFrom_confined ⟨comparison, bound⟩ canonical List.drop_zero isTotal
    covered).withMemo_steady

end DecisionDiagram.Manager
