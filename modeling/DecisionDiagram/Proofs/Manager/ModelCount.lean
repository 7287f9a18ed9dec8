import DecisionDiagram.Proofs.Diagram.Descent
import DecisionDiagram.Proofs.Diagram.Models
import DecisionDiagram.Proofs.Manager.Questions
import DecisionDiagram.Proofs.Memo
import Mathlib.Order.Interval.Finset.Nat

/-!
# Counting models

A count works on shares of all assignments: the share of a node is half of what its children have
together, and the share of a complement is what is left. A function has one share of a total
(`Shares.unique`), even where the assignments are too few for the halves to be whole. For a function of
some variables, of which there are no more than the assignments have, the share is the number of models
over these variables, as often as the other variables can be chosen.
-/

set_option autoImplicit false

namespace DecisionDiagram

/-- How many assignments of `count` variables are models, if the function depends on `vars`. -/
def modelShare (vars : Finset Nat) (count : Nat) (function : BoolFunction) : Nat :=
  2 ^ (count - vars.card) * (models vars function).card

section

variable {vars : Finset Nat} {count : Nat} {function : BoolFunction}

theorem two_pow_split (small : vars.card ≤ count) :
    2 ^ (count - vars.card) * 2 ^ vars.card = 2 ^ count := by
  rw [← Nat.pow_add, Nat.sub_add_cancel small]

theorem modelShare_not (small : vars.card ≤ count) (function : BoolFunction) :
    (modelShare vars count fun valuation => !function valuation) + modelShare vars count function =
      2 ^ count := by
  rw [modelShare, modelShare, ← Nat.mul_add, card_models_not, two_pow_split small]

/-- The share of a complement, taken back from the whole. -/
theorem modelShare_flip (small : vars.card ≤ count) (negated : Bool) (function : BoolFunction) :
    (if negated then 2 ^ count - modelShare vars count fun valuation => negated ^^ function valuation
      else modelShare vars count fun valuation => negated ^^ function valuation) =
        modelShare vars count function := by
  have whole := modelShare_not small function
  cases negated with
  | false => simp
  | true =>
    simp only [Bool.true_xor, if_true]
    omega

theorem modelShare_false (vars : Finset Nat) (count : Nat) :
    (modelShare vars count fun _ => false) = 0 := by
  rw [modelShare, card_models_false, Nat.mul_zero]

theorem modelShare_true (small : vars.card ≤ count) :
    (modelShare vars count fun _ => true) = 2 ^ count := by
  rw [modelShare, card_models_true, two_pow_split small]

theorem modelShare_cofactors {var : Nat} (member : var ∈ vars) (count : Nat)
    (function : BoolFunction) :
    (modelShare vars count (cofactor function var false) +
      modelShare vars count (cofactor function var true)) / 2 = modelShare vars count function := by
  rw [modelShare, modelShare, modelShare, ← Nat.mul_add, card_models_cofactors member,
    Nat.mul_left_comm, Nat.mul_div_cancel_left _ Nat.two_pos]

end

/-- What halving comes to, however many assignments there are. -/
inductive Shares (total : Nat) : BoolFunction → Nat → Prop
  | zero {function : BoolFunction} : (function = fun _ => false) → Shares total function 0
  | one {function : BoolFunction} : (function = fun _ => true) → Shares total function total
  | half {function : BoolFunction} {top low high : Nat} : Top function top →
      Shares total (cofactor (regular function) top false) low →
      Shares total (cofactor (regular function) top true) high →
      Shares total function
        (if flipped function then total - (low + high) / 2 else (low + high) / 2)

namespace Shares

variable {total share : Nat} {function : BoolFunction}

theorem le_total (shares : Shares total function share) : share ≤ total := by
  induction shares with
  | zero _ => exact Nat.zero_le _
  | one _ => exact Nat.le_refl _
  | half _ _ _ onLow onHigh =>
    split
    · exact Nat.sub_le _ _
    · omega

/-- The share of the complement is what is left. -/
theorem neg (shares : Shares total function share) :
    Shares total (fun valuation => !function valuation) (total - share) := by
  cases shares with
  | zero isFalse => exact .one (by simp [isFalse])
  | one isTrue =>
    rw [Nat.sub_self]
    exact .zero (by simp [isTrue])
  | @half _ top low high isTop onLow onHigh =>
    have lowWithin := onLow.le_total
    have highWithin := onHigh.le_total
    rw [← regular_not] at onLow onHigh
    have opposite := Shares.half isTop.neg onLow onHigh
    have rest : total - (if flipped function then total - (low + high) / 2 else (low + high) / 2) =
        if (flipped fun valuation => !function valuation) then total - (low + high) / 2
        else (low + high) / 2 := by
      rw [flipped_not]
      cases flipped function <;> simp
      omega
    rw [rest]
    exact opposite

theorem unique {other : Nat} (first : Shares total function share)
    (second : Shares total function other) : share = other := by
  have apart : ∀ {function : BoolFunction}, (function = fun _ => false) →
      ¬ function = fun _ => true := fun isFalse isTrue =>
    Bool.false_ne_true (congrFun (isFalse.symm.trans isTrue) fun _ => true)
  induction first generalizing other with
  | zero isFalse =>
    cases second with
    | zero _ => rfl
    | one isTrue => exact absurd isTrue (apart isFalse)
    | half isTop _ _ => exact absurd isFalse (isTop.ne_constant _)
  | one isTrue =>
    cases second with
    | zero isFalse => exact absurd isTrue (apart isFalse)
    | one _ => rfl
    | half isTop _ _ => exact absurd isTrue (isTop.ne_constant _)
  | half isTop _ _ onLow onHigh =>
    cases second with
    | zero isFalse => exact absurd isFalse (isTop.ne_constant _)
    | one isTrue => exact absurd isTrue (isTop.ne_constant _)
    | half alsoTop low high =>
      obtain rfl := isTop.unique alsoTop
      rw [onLow low, onHigh high]

/-- If there are enough assignments then halving loses nothing. -/
theorem eq_modelShare {vars : Finset Nat} {count : Nat} (shares : Shares (2 ^ count) function share)
    (small : vars.card ≤ count) (depends : DependsOn function ↑vars) :
    share = modelShare vars count function := by
  induction shares with
  | zero isFalse => rw [isFalse, modelShare_false]
  | one isTrue => rw [isTrue, modelShare_true small]
  | @half function top low high isTop _ _ onLow onHigh =>
    have onRegular : DependsOn (regular function) ↑vars := fun _ _ agree =>
      congrArg (flipped function ^^ ·) (depends agree)
    have onCofactor : ∀ value, DependsOn (cofactor (regular function) top value) ↑vars := fun value =>
      (dependsOn_cofactor onRegular top value).mono Set.sdiff_subset
    have member : top ∈ vars := isTop.mem depends
    rw [onLow (onCofactor false), onHigh (onCofactor true), modelShare_cofactors member]
    exact modelShare_flip small (flipped function) function

end Shares

namespace Manager

/-- Every count in the table is right. -/
def CountsRight (store : Store Node) (total : Nat) (memo : Std.HashMap Edge Nat) : Prop :=
  ∀ (edge : Edge) (found : Nat), memo[edge]? = some found → Shares total (store.denote edge) found

theorem countsRight_empty (store : Store Node) (total : Nat) : CountsRight store total ∅ :=
  forall_entry_empty

variable {manager : Manager} {edge : Edge} {vars : Finset Nat} {count total : Nat}
  {function : BoolFunction} {memo : Std.HashMap Edge Nat}

theorem CountsRight.insert {store : Store Node} {share : Nat} (right : CountsRight store total memo)
    (represents : store.Represents edge function) (shares : Shares total function share) :
    CountsRight store total (memo.insert edge share) := by
  apply forall_entry_insert right
  rw [represents.denote_eq]
  exact shares

theorem tabled_bind_ok {Result Next Table : Type} {action : StateT Table (Except Fault) Result}
    {next : Result → StateT Table (Except Fault) Next} {before after : Table} {result : Result}
    (run : action before = .ok (result, after)) : (action >>= next) before = next result after := by
  show StateT.bind action next before = next result after
  simp only [StateT.bind, run]
  rfl

theorem tabled_read_ok {Result Table : Type} {question : Except Fault Result} {result : Result}
    (answer : question = .ok result) (table : Table) :
    (liftM question : StateT Table (Except Fault) Result) table = .ok (result, table) := by
  subst answer
  rfl

theorem ne_of_inner {constant : Edge} (inner : edge.index ≠ 1) (terminal : constant.index = 1) :
    edge ≠ constant :=
  fun same => inner (same ▸ terminal)

/-- An inner node that was not counted before has half of what its children have together. -/
theorem countWithin_inner {node : Node} {fuel total low high : Nat}
    {middle after : Std.HashMap Edge Nat} (held : manager.store.contents edge.index = some node)
    (inner : edge.index ≠ 1) (fresh : memo[edge]? = none)
    (countsLow : manager.countWithin total fuel node.low memo = .ok (low, middle))
    (countsHigh : manager.countWithin total fuel node.high middle = .ok (high, after))
    (fits : (low + high) / 2 ≤ total) :
    let share := if edge.isNegated then total - (low + high) / 2 else (low + high) / 2
    manager.countWithin total (fuel + 1) edge memo = .ok (share, after.insert edge share) := by
  have got : (get : StateT (Std.HashMap Edge Nat) (Except Fault) _) memo = .ok (memo, memo) := rfl
  rw [countWithin, countStep, if_neg (ne_of_inner inner rfl), if_neg (ne_of_inner inner rfl),
    tabled_bind_ok got, fresh]
  simp only
  rw [tabled_bind_ok (tabled_read_ok (low_eq_ok held) memo), tabled_bind_ok countsLow,
    tabled_bind_ok (tabled_read_ok (high_eq_ok held) middle), tabled_bind_ok countsHigh,
    if_pos fits]
  cases edge.isNegated <;> rfl

theorem countWithin_known {fuel total known : Nat} (inner : edge.index ≠ 1)
    (stored : memo[edge]? = some known) :
    manager.countWithin total (fuel + 1) edge memo = .ok (known, memo) := by
  have got : (get : StateT (Std.HashMap Edge Nat) (Except Fault) _) memo = .ok (memo, memo) := rfl
  rw [countWithin, countStep, if_neg (ne_of_inner inner rfl), if_neg (ne_of_inner inner rfl),
    tabled_bind_ok got, stored]
  rfl

theorem countWithin_terminal (canonical : manager.store.Canonical) (fuel : Nat)
    (represents : manager.store.Represents edge function) (terminal : edge.index = 1) :
    ∃ share, manager.countWithin total (fuel + 1) edge memo = .ok (share, memo) ∧
      Shares total function share := by
  rw [countWithin, countStep]
  rcases Edge.eq_constant terminal with rfl | rfl
  · exact ⟨total, rfl, .one (represents.eq_true_of_one canonical rfl)⟩
  · exact ⟨0, rfl, .zero (represents.eq_false_of_zero canonical rfl)⟩

/-- The children of a node, as they are stored, stand for the cofactors of the function of its
uncomplemented edge. -/
theorem represents_child {node : Node} (canonical : manager.store.Canonical)
    (represents : manager.store.Represents edge function)
    (held : manager.store.contents edge.index = some node) (inner : edge.index ≠ 1) (value : Bool) :
    manager.store.Represents (node.child value) (cofactor (regular function) node.var value) := by
  have onRegular := represents.regular canonical
  have same : (edge.flip edge.isNegated).index = edge.index := Edge.index_flip _ _
  have plain : (edge.flip edge.isNegated).isNegated = false := by
    rw [Edge.isNegated_flip, Bool.xor_self]
  have onChild := onRegular.child canonical (same.symm ▸ held) (same.symm ▸ inner) value
  rwa [plain, Edge.flip_false] at onChild

theorem countWithin_spec (canonical : manager.store.Canonical) {fuel : Nat}
    (right : CountsRight manager.store total memo)
    (represents : manager.store.Represents edge function)
    (enough : manager.store.rank edge.index < fuel) :
    ∃ share after, manager.countWithin total fuel edge memo = .ok (share, after) ∧
      Shares total function share ∧ CountsRight manager.store total after := by
  induction fuel generalizing edge function memo with
  | zero => exact absurd enough (Nat.not_lt_zero _)
  | succ fuel ih =>
    by_cases terminal : edge.index = 1
    · obtain ⟨share, run, shares⟩ := countWithin_terminal canonical fuel represents terminal
      exact ⟨share, memo, run, shares, right⟩
    cases stored : memo[edge]? with
    | some known =>
      have shares := right edge known stored
      rw [represents.denote_eq] at shares
      exact ⟨known, memo, countWithin_known terminal stored, shares, right⟩
    | none =>
      obtain ⟨node, held⟩ := represents.live
      have lower : ∀ value, manager.store.rank (node.child value).index < fuel := by
        intro value
        have less := Store.rank_lt_of_from held terminal
          ((canonical.normal _ node held terminal).child_from value)
        omega
      have onChild := represents_child canonical represents held terminal
      have onLow : manager.store.Represents node.low _ := onChild false
      have onHigh : manager.store.Represents node.high _ := onChild true
      obtain ⟨low, middle, countsLow, lowShares, middleRight⟩ := ih right onLow (lower false)
      obtain ⟨high, last, countsHigh, highShares, lastRight⟩ := ih middleRight onHigh (lower true)
      have fits : (low + high) / 2 ≤ total := by
        have := lowShares.le_total
        have := highShares.le_total
        omega
      have counts := countWithin_inner held terminal stored countsLow countsHigh fits
      have shares := Shares.half (represents.top canonical held terminal) lowShares highShares
      rw [← represents.isNegated_eq canonical] at shares
      exact ⟨_, _, counts, shares, lastRight.insert represents shares⟩

/-- A count always ends, with the share of the function. -/
theorem modelCount_shares (canonical : manager.store.Canonical)
    (represents : manager.store.Represents edge function) (count : Nat) :
    ∃ share, manager.modelCount edge count = .ok share ∧ Shares (2 ^ count) function share := by
  obtain ⟨share, memo, counts, shares, _⟩ := countWithin_spec canonical
    (countsRight_empty manager.store (2 ^ count)) represents (rank_lt_depthBound canonical _)
  refine ⟨share, ?_, shares⟩
  rw [modelCount, Nat.one_shiftLeft, StateT.run'_eq, StateT.run, counts]
  rfl

/-- Asked for a number of models over at least as many variables as a function depends on, an edge
has the share of its function. -/
theorem modelCount_spec (canonical : manager.store.Canonical) (small : vars.card ≤ count)
    (represents : manager.store.Represents edge function) (depends : DependsOn function ↑vars) :
    manager.modelCount edge count = .ok (modelShare vars count function) := by
  obtain ⟨share, run, shares⟩ := modelCount_shares canonical represents count
  rw [run, shares.eq_modelShare small depends]

/-! ## Models as lists of values -/

theorem function_assignmentOf (depends : DependsOn function ↑(Finset.Icc 1 count))
    (valuation : Valuation) :
    function (valuationOf (assignmentOf valuation count)) = function valuation := by
  apply depends
  intro var member
  obtain ⟨positive, atMost⟩ := Finset.mem_Icc.mp (Finset.mem_coe.mp member)
  exact valuationOf_assignmentOf positive atMost

theorem assignmentOf_injOn (function : BoolFunction) (count : Nat) :
    Set.InjOn (fun trues => assignmentOf (valuationIn trues) count)
      (models (Finset.Icc 1 count) function : Set (Finset Nat)) := by
  intro left leftModel right rightModel same
  apply eq_of_valuationIn_eq (mem_models.mp leftModel).1 (mem_models.mp rightModel).1
  intro var member
  obtain ⟨positive, atMost⟩ := Finset.mem_Icc.mp member
  have values := congrArg (fun assignment => valuationOf assignment var) same
  simp only [valuationOf_assignmentOf positive atMost] at values
  exact values

/-- The models over the first variables are the lists of values that make the function true. -/
theorem image_models (depends : DependsOn function ↑(Finset.Icc 1 count)) :
    (fun trues => assignmentOf (valuationIn trues) count) ''
        (models (Finset.Icc 1 count) function : Set (Finset Nat)) =
      {inputs : List Bool | inputs.length = count ∧ function (valuationOf inputs)} := by
  ext inputs
  constructor
  · intro member
    obtain ⟨trues, isModel, rfl⟩ := member
    have holds := (mem_models.mp isModel).2
    exact ⟨length_assignmentOf _ _, (function_assignmentOf depends _).trans holds⟩
  · intro member
    obtain ⟨rfl, holds⟩ := member
    let trues := (Finset.Icc 1 inputs.length).filter fun var => valuationOf inputs var
    have agrees : assignmentOf (valuationIn trues) inputs.length = inputs := by
      have same : assignmentOf (valuationIn trues) inputs.length =
          assignmentOf (valuationOf inputs) inputs.length := by
        apply assignmentOf_congr
        intro var positive atMost
        have inside : var ∈ Finset.Icc 1 inputs.length := Finset.mem_Icc.mpr ⟨positive, atMost⟩
        simp [valuationIn, trues, inside]
      exact same.trans (assignmentOf_valuationOf inputs)
    refine ⟨trues, mem_models.mpr ⟨Finset.filter_subset _ _, ?_⟩, agrees⟩
    rw [← function_assignmentOf depends, agrees]
    exact holds

/-- Variables start at 1, so a function of an edge that depends on no variable after `count` depends
on the first ones only. -/
theorem dependsOn_first (canonical : manager.store.Canonical)
    (represents : manager.store.Represents edge function)
    (depends : DependsOn function {var | var ≤ count}) :
    DependsOn function ↑(Finset.Icc 1 count) := by
  rw [← represents.denote_eq] at depends ⊢
  apply (canonical.dependsOn_tests represents.live).mono
  intro var tests
  have atMost := canonical.mem_of_tests represents.live depends tests
  exact Finset.mem_coe.mpr (Finset.mem_Icc.mpr ⟨canonical.tests_pos tests, atMost⟩)

/-- Over the first variables, the number of models is the number of lists of values that make the
function true. -/
theorem modelCount_inputs (canonical : manager.store.Canonical)
    (represents : manager.store.Represents edge function)
    (depends : DependsOn function {var | var ≤ count}) :
    manager.modelCount edge count =
      .ok {inputs : List Bool | inputs.length = count ∧ function (valuationOf inputs)}.ncard := by
  have first := dependsOn_first canonical represents depends
  have card : (Finset.Icc 1 count).card = count := by simp
  rw [modelCount_spec canonical (Nat.le_of_eq card) represents first, modelShare, card,
    Nat.sub_self, Nat.pow_zero, Nat.one_mul, ← image_models first,
    Set.InjOn.ncard_image (assignmentOf_injOn function count), Set.ncard_coe_finset]

end Manager

end DecisionDiagram
