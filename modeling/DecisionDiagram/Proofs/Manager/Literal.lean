import DecisionDiagram.Manager.WeightedSum
import DecisionDiagram.Proofs.Manager.Cube
import DecisionDiagram.Proofs.Manager.Repeat

/-!
# All ways to a literal

A literal can be asked for as such, as a cube or a clause of itself alone, and as a comparison of one
weight. All of them come down to `literalNode`, with the same caches at the end. They differ in one
number: cubes and clauses read the variable off the least number, and the other ways negate it.
-/

set_option autoImplicit false

namespace DecisionDiagram.Manager

variable {scope : Scope} {store : Store Node} {manager : Manager} {number : Int}

/-! ## Cubes and clauses of one literal -/

theorem sortedLiterals_singleton (nonzero : number ≠ 0) :
    sortedLiterals [number] = .ok (some [number]) := by
  have inside : 0 ∉ [number] := mt List.mem_singleton.mp nonzero.symm
  unfold sortedLiterals
  rw [if_neg inside, sortDistinct, List.mergeSort_singleton]
  rfl

theorem node_one_zero {var : Nat} (positive : var ≠ 0) :
    node var .one .zero = node var .zero .one >>= fun edge => liftM edge.negate := by
  unfold node
  rw [if_neg positive, if_neg positive]
  rfl

theorem link_constant (absorbing : Bool) (nonzero : number ≠ 0) :
    link absorbing (constant !absorbing) number = literalNode number := by
  have flips := node_one_zero (Int.natAbs_ne_zero.mpr nonzero)
  unfold link literalNode
  by_cases negative : number < 0
  · rw [if_pos negative]
    cases absorbing <;> simp [negative, constant, flips]
  · rw [if_neg negative]
    cases absorbing <;> simp [negative, constant]

theorem joinLiterals_singleton (absorbing : Bool) (nonzero : number ≠ 0) :
    joinLiterals absorbing [number] = literalNode number := by
  unfold joinLiterals
  rw [sortedLiterals_singleton nonzero, ← link_constant absorbing nonzero]
  show [number].foldlM (link absorbing) (constant !absorbing) = _
  rw [List.foldlM_cons]
  exact bind_pure _

/-! ## If-then-else between the constants -/

theorem apply_of_shortcut {connective : Connective} {first second edge : Edge}
    (answer : connective.shortcut first second = .ok (some edge)) :
    apply connective first second = pure edge := by
  funext manager
  obtain ⟨fuel, isFuel⟩ : ∃ fuel, manager.depthBound = fuel + 1 := ⟨_, rfl⟩
  unfold apply
  rw [bind_ok (get_ok manager), isFuel, applyWithin, applyStep, answer]
  rfl

theorem ite_of_binary {condition whenTrue whenFalse first second : Edge} {connective : Connective}
    (form : IteForm.of condition whenTrue whenFalse = .ok (.binary connective first second)) :
    ite condition whenTrue whenFalse = apply connective first second := by
  funext manager
  obtain ⟨fuel, isFuel⟩ : ∃ fuel, manager.depthBound = fuel + 1 := ⟨_, rfl⟩
  unfold ite
  rw [bind_ok (get_ok manager), isFuel, iteWithin, iteStep, form]
  rfl

theorem ite_one_zero (condition : Edge) : ite condition .one .zero = pure condition := by
  by_cases isOne : condition = .one
  · subst isOne
    rfl
  by_cases isZero : condition = .zero
  · subst isZero
    rfl
  have form : IteForm.of condition .one .zero = .ok (.binary .or condition .zero) := by
    unfold IteForm.of
    rw [if_neg isOne, if_neg isZero, if_pos (Or.inl rfl)]
    rfl
  have answer : Connective.shortcut .or condition .zero = .ok (some condition) := by
    simp only [Connective.shortcut, isOne, isZero]
    rfl
  rw [ite_of_binary form, apply_of_shortcut answer]

theorem ite_zero_one {condition opposite : Edge} (negates : condition.negate = .ok opposite) :
    ite condition .zero .one = pure opposite := by
  by_cases isOne : condition = .one
  · subst isOne
    cases negates
    rfl
  by_cases isZero : condition = .zero
  · subst isZero
    cases negates
    rfl
  have different : Edge.zero ≠ .one := by decide
  have inner : ¬(Edge.zero = .one ∨ condition = .zero) := not_or.mpr ⟨different, isZero⟩
  have form : IteForm.of condition .zero .one = .ok (.binary .and opposite .one) := by
    unfold IteForm.of
    rw [if_neg isOne, if_neg isZero, if_neg inner, if_pos rfl, negates]
    rfl
  have answer : Connective.shortcut .and opposite .one = .ok (some opposite) := by
    simp only [Connective.shortcut, different.symm, or_false, if_true]
    split
    · rename_i flipped
      rw [flipped]
      rfl
    · split
      · rename_i flipped
        rw [flipped]
        rfl
      · rfl
  rw [ite_of_binary form, apply_of_shortcut answer]

/-! ## Sums of one weight -/

section

variable {Key : Type} [BEq Key] [Hashable Key]

theorem withMemo_remembering (key : Key) (work : Memoized Key Edge) :
    withMemo (remembering key work) = (withMemo work : Action Edge) := by
  have afresh : ∀ recalls, (remembering key work).run' (.empty recalls) =
      work.run' (.empty recalls) := by
    intro recalls
    simp [remembering, StateT.run'_eq, Memo.find?_empty]
  unfold withMemo
  simp only [afresh]

end

theorem weightedSumFrom_nil {threshold : Threshold} {position : Nat} {sum left : Int} {value : Bool}
    (settled : threshold.settled? sum left = .ok (some value)) :
    weightedSumFrom threshold [] position sum left = pure (constant value) := by
  rw [weightedSumFrom, settled]
  cases value <;> rfl

/-- A weight of one that decides the comparison is an if-then-else between the two outcomes. -/
theorem weightedSum_singleton {comparison : Comparison} {bound : Int} {whole blank : Bool}
    (nonzero : number ≠ 0) (undecided : Threshold.settled? ⟨comparison, bound⟩ 0 1 = .ok none)
    (taken : Threshold.settled? ⟨comparison, bound⟩ 1 0 = .ok (some whole))
    (skipped : Threshold.settled? ⟨comparison, bound⟩ 0 0 = .ok (some blank)) :
    weightedSum comparison [1] [number] bound =
      literal number >>= fun condition => ite condition (constant whole) (constant blank) := by
  have pairs : weightedLiterals [1] [number] = .ok [(1, number)] := by
    simp [weightedLiterals, nonzero]
    rfl
  have total : totalWeight [1] = .ok 1 := rfl
  have started : weightedSum comparison [1] [number] bound =
      withMemo (weightedSumFrom ⟨comparison, bound⟩ [(1, number)] 0 0 1) := by
    unfold weightedSum
    rw [pairs, total]
    rfl
  have branches : weightedSumFrom ⟨comparison, bound⟩ [(1, number)] 0 0 1 =
      (remembering (0, 0) (do
        let condition ← Manager.literal number
        Manager.ite condition (constant whole) (constant blank)) : Memoized (Nat × Int) Edge) := by
    have subtracts : subtractWords 1 1 = .ok 0 := rfl
    have adds : addWords 0 1 = .ok 1 := rfl
    rw [weightedSumFrom, undecided, subtracts, adds]
    show remembering (0, 0) (do
      let first ← weightedSumFrom ⟨comparison, bound⟩ [] 1 1 0
      let second ← weightedSumFrom ⟨comparison, bound⟩ [] 1 0 0
      let condition ← Manager.literal number
      Manager.ite condition first second) = _
    rw [weightedSumFrom_nil taken, weightedSumFrom_nil skipped]
    rfl
  rw [started, branches, withMemo_remembering]
  simp [withMemo]

theorem weightedSum_atLeast_one (nonzero : number ≠ 0) :
    weightedSum .atLeast [1] [number] 1 = literal number := by
  have split : weightedSum .atLeast [1] [number] 1 =
      literal number >>= fun condition => ite condition (constant true) (constant false) :=
    weightedSum_singleton nonzero rfl rfl rfl
  rw [split]
  exact (congrArg _ (funext ite_one_zero)).trans (bind_pure _)

theorem weightedSum_atMost_zero (nonzero : number ≠ 0) :
    weightedSum .atMost [1] [number] 0 =
      literal number >>= fun condition => ite condition .zero .one := by
  have split : weightedSum .atMost [1] [number] 0 =
      literal number >>= fun condition => ite condition (constant false) (constant true) :=
    weightedSum_singleton nonzero rfl rfl rfl
  exact split

/-! ## The node of a literal -/

/-- The literal and its complement, and the constants. -/
def literalFamily (number : Int) : Set BoolFunction :=
  {function | (∃ value, function = fun _ => value) ∨ function = literalFunction number ∨
    function = fun valuation => !literalFunction number valuation}

theorem cofactor_literalFunction (number : Int) (var : Nat) (value : Bool) :
    cofactor (literalFunction number) var value =
      if var = number.natAbs then fun _ => decide (number < 0) ^^ value
      else literalFunction number := by
  funext valuation
  unfold cofactor literalFunction
  by_cases same : var = number.natAbs
  · rw [same, Function.update_self, if_pos rfl]
  · rw [Function.update_of_ne (Ne.symm same), if_neg same]

theorem closed_literalFamily (number : Int) : Closed (literalFamily number) := by
  have constant : ∀ value : Bool, (fun _ : Valuation => value) ∈ literalFamily number :=
    fun value => Or.inl ⟨value, rfl⟩
  have cofactors : ∀ var value, cofactor (literalFunction number) var value ∈ literalFamily number := by
    intro var value
    rw [cofactor_literalFunction]
    split
    · exact constant _
    · exact Or.inr (Or.inl rfl)
  have neg : ∀ function ∈ literalFamily number,
      (fun valuation => !function valuation) ∈ literalFamily number := by
    rintro function (⟨value, rfl⟩ | rfl | rfl)
    · exact constant _
    · exact Or.inr (Or.inr rfl)
    · simp only [Bool.not_not]
      exact Or.inr (Or.inl rfl)
  refine ⟨neg, ?_⟩
  rintro function (⟨value, rfl⟩ | rfl | rfl) var - fixed
  · exact constant value
  · exact cofactors var fixed
  · exact neg _ (cofactors var fixed)

/-- The functions of a literal, and no fault. -/
def literalScope (number : Int) : Scope :=
  ⟨literalFamily number, closed_literalFamily number, fun _ => False⟩

theorem literalNode_repeatable (canonical : store.Canonical) (nonzero : number ≠ 0)
    (covered : (Task.of (literalFunction number)).Covered scope) :
    Repeatable scope (literalNode number) store (Task.of (literalFunction number)).Done := by
  refine Repeatable.of_task canonical covered fun scope later grown covered => ?_
  exact (literalNode_confined grown.canonical nonzero covered.mem).weaken fun _ _ _ => Task.done_of

/-- One free slot is enough. -/
theorem literalNode_returns (sound : manager.Sound) (room : ¬manager.store.Full)
    (nonzero : number ≠ 0) :
    ∃ edge after, literalNode number manager = .ok edge after ∧ manager.GrowsTo after ∧
      after.store.Represents edge (literalFunction number) := by
  have confined : Confined steady (literalScope number) (literalNode number) manager.store
      fun edge after => after.Represents edge (literalFunction number) :=
    literalNode_confined sound.canonical nonzero (Or.inr (Or.inl rfl))
  obtain ⟨outcome, after, run, grows, built⟩ := confined.run sound
  have few : ∀ other ∈ literalFamily number, other ∈ manager.store.functions ∨
      other = literalFunction number ∨ other = fun valuation => !literalFunction number valuation := by
    rintro other (⟨value, rfl⟩ | literal)
    · exact Or.inl (represents_constant sound.canonical value).mem_functions
    · exact Or.inr literal
  obtain ⟨edge, rfl, represents⟩ := built.returns_of_room room (fun _ => id) few
  exact ⟨edge, after, run, grows, represents⟩

theorem weightedSum_atMost_zero_negate (sound : manager.Sound) (proper : Literal number) :
    (weightedSum .atMost [1] [number] 0 >>= fun edge => liftM edge.negate) manager =
      literalNode number manager := by
  have confined : Confined steady .any (literalNode number) manager.store
      fun edge after => after.Represents edge (literalFunction number) :=
    literalNode_confined sound.canonical proper.1 (Scope.mem_any _)
  have constructs : Constructs (literalNode number) manager
      (fun edge after => after.store.Represents edge (literalFunction number)) AnyFault :=
    confined.constructs sound fun _ _ => trivial
  rw [weightedSum_atMost_zero proper.1, literal_eq_literalNode proper, bind_assoc]
  cases run : literalNode number manager with
  | error fault after => rw [bind_error run]
  | ok edge after =>
    obtain ⟨grows, represents⟩ := constructs.result edge after run
    have canonical := grows.sound.canonical
    have negates := canonical.negate_eq_ok represents.live
    have back := canonical.negate_eq_ok represents.neg.live
    rw [Edge.neg_neg] at back
    rw [bind_ok run, ite_zero_one negates, pure_bind, read_ok back]

end DecisionDiagram.Manager
