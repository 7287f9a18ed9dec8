import DecisionDiagram.Manager.Quantify
import DecisionDiagram.Proofs.Diagram.Quantified
import DecisionDiagram.Proofs.Manager.Apply
import DecisionDiagram.Proofs.Manager.Task
import DecisionDiagram.Proofs.SortedList
import Mathlib.Data.List.Sort

/-!
# Quantifying variables away

What is met on the way is not a cofactor of the result. A quantification needs the quantified
functions of all that lies below its operand, and the relational product those of the pairs that it
meets, where it skips a half that cannot change the outcome.
-/

set_option autoImplicit false

namespace DecisionDiagram.Manager

variable {scope : Scope} {store : Store Node} {vars : Finset Nat} {edge first second : Edge}
  {function onFirst onSecond : BoolFunction}

/-- What a quantification has to come to, and what it needs. -/
noncomputable def existsTask (vars : Set Nat) (function : BoolFunction) : Task where
  target := quantified vars function
  needs := {needed | ∃ lower, Below function lower ∧ needed = quantified vars lower}
  proper := True

/-- The quantifications of some variables, named by the edge. -/
noncomputable abbrev quantifications (vars : Set Nat) : Naming Edge :=
  .ofEdge id fun _ function => existsTask vars function

section

variable {quantifiedVars : Set Nat}

theorem existsTask_target_mem (covered : (existsTask quantifiedVars function).Covered scope) :
    quantified quantifiedVars function ∈ scope.family :=
  covered.needs ⟨function, Relation.ReflTransGen.refl, rfl⟩

theorem existsTask_child {top : Nat} (isTop : Top function top)
    (covered : (existsTask quantifiedVars function).Covered scope) (value : Bool) :
    (existsTask quantifiedVars (cofactor function top value)).Covered scope := by
  refine ⟨?_, covered.allows⟩
  rintro needed ⟨lower, below, rfl⟩
  exact covered.needs ⟨lower, below.head isTop, rfl⟩

/-- Where no variable that matters is quantified, there is nothing to do. -/
theorem existsTask_unchanged (canonical : store.Canonical)
    (represents : store.Represents edge function) {known : Set Nat}
    (depends : DependsOn function known) (disjoint : ∀ var ∈ known, var ∉ quantifiedVars) :
    (existsTask quantifiedVars function).Done edge store := by
  refine ⟨?_, ?_, trivial⟩
  · rw [existsTask, quantified_of_disjoint depends disjoint]
    exact represents
  · rintro needed ⟨lower, below, rfl⟩
    rw [quantified_of_disjoint (below.dependsOn depends) disjoint]
    exact below.mem canonical.closed_functions represents.mem_functions

/-- The parts of a quantification, put together. -/
theorem existsTask_done {top : Nat} {low high : Edge} (isTop : Top function top)
    (lowDone : (existsTask quantifiedVars (cofactor function top false)).Done low store)
    (highDone : (existsTask quantifiedVars (cofactor function top true)).Done high store)
    (represents : store.Represents edge (quantified quantifiedVars function)) :
    (existsTask quantifiedVars function).Done edge store := by
  refine ⟨represents, ?_, trivial⟩
  rintro needed ⟨lower, below, rfl⟩
  rcases below.of_top isTop with rfl | ⟨value, further⟩
  · exact represents.mem_functions
  · cases value with
    | false => exact lowDone.needs ⟨lower, further, rfl⟩
    | true => exact highDone.needs ⟨lower, further, rfl⟩

end

/-! ## Putting two halves together -/

section

variable {quantifiedVars : Set Nat} {top : Nat} {low high : Edge}

/-- The halves by a quantified variable are alternatives. -/
theorem orHalves_confined (canonical : store.Canonical) (isQuantified : top ∈ quantifiedVars)
    (onLow : store.Represents low (quantified quantifiedVars (cofactor function top false)))
    (onHigh : store.Represents high (quantified quantifiedVars (cofactor function top true)))
    (member : quantified quantifiedVars function ∈ scope.family) :
    Confined steady scope (apply .or low high) store
      fun edge after => after.Represents edge (quantified quantifiedVars function) := by
  rw [quantified_eq_or function isQuantified] at member ⊢
  exact apply_confined .or canonical onLow onHigh member

/-- Any other variable still chooses between them. -/
theorem nodeHalves_confined (canonical : store.Canonical) (free : top ∉ quantifiedVars)
    (positive : top ≠ 0) (depends : DependsOn function (Set.Ici top))
    (onLow : store.Represents low (quantified quantifiedVars (cofactor function top false)))
    (onHigh : store.Represents high (quantified quantifiedVars (cofactor function top true)))
    (member : quantified quantifiedVars function ∈ scope.family) :
    Confined steady scope (node top low high) store
      fun edge after => after.Represents edge (quantified quantifiedVars function) := by
  rw [← cofactor_quantified function free] at onLow onHigh
  exact join_confined canonical positive (dependsOn_quantified depends quantifiedVars) onLow onHigh
    member

end

/-! ## Quantification -/

/-- The variables that are still to be quantified, from a bound on. -/
structure Remaining (quantifiedVars : Set Nat) (bound : Nat) (list : List Nat) : Prop where
  ascending : list.Pairwise fun earlier later => earlier < later
  mem_iff : ∀ var, bound ≤ var → (var ∈ list ↔ var ∈ quantifiedVars)

namespace Remaining

variable {quantifiedVars : Set Nat} {bound top : Nat} {list : List Nat}

theorem mem_dropWhile (ascending : list.Pairwise fun earlier later => earlier < later) {var : Nat} :
    var ∈ list.dropWhile (· < top) ↔ var ∈ list ∧ top ≤ var := by
  induction list with
  | nil => simp
  | cons next rest ih =>
    obtain ⟨before, tail⟩ := List.pairwise_cons.mp ascending
    by_cases small : next < top
    · rw [List.dropWhile_cons, if_pos (decide_eq_true small), ih tail, List.mem_cons]
      refine and_congr_left fun atLeast => ?_
      exact ⟨Or.inr, fun member => member.resolve_left (by omega)⟩
    · rw [List.dropWhile_cons, if_neg (mt of_decide_eq_true small)]
      refine (and_iff_left_of_imp fun member => ?_).symm
      rcases List.mem_cons.mp member with rfl | later
      · exact Nat.not_lt.mp small
      · exact Nat.le_of_lt (Nat.lt_of_le_of_lt (Nat.not_lt.mp small) (before var later))

theorem dropWhile (remaining : Remaining quantifiedVars bound list) (above : bound ≤ top) :
    Remaining quantifiedVars top (list.dropWhile (· < top)) where
  ascending := remaining.ascending.sublist (List.dropWhile_sublist _)
  mem_iff var atLeast := by
    rw [mem_dropWhile remaining.ascending, ← remaining.mem_iff var (above.trans atLeast)]
    exact and_iff_left atLeast

theorem mono (remaining : Remaining quantifiedVars bound list) (above : bound ≤ top) :
    Remaining quantifiedVars top list :=
  ⟨remaining.ascending, fun var atLeast => remaining.mem_iff var (above.trans atLeast)⟩

/-- The variable at the top is quantified if it is the next one. -/
theorem next_eq_iff {next : Nat} {rest : List Nat} (remaining : Remaining quantifiedVars bound list)
    (above : bound ≤ top) (left : list.dropWhile (· < top) = next :: rest) :
    next = top ↔ top ∈ quantifiedVars := by
  have later := remaining.dropWhile above
  rw [left] at later
  have atLeast : top ≤ next := ((mem_dropWhile remaining.ascending).mp
    (left ▸ List.mem_cons_self : next ∈ list.dropWhile (· < top))).2
  rw [← later.mem_iff top (Nat.le_refl _), List.mem_cons]
  constructor
  · intro same
    exact Or.inl same.symm
  · rintro (same | member)
    · exact same.symm
    · have := (List.pairwise_cons.mp later.ascending).1 top member
      omega

end Remaining

/-- Quantification as a recursion of the list of variables and the function. -/
def quantifying :
    Recursion (List Nat × Edge) (StateT (Memo Edge Edge) (EStateM Fault Manager)) Edge where
  edges args := [args.2]
  step self args := existsStep (fun vars edge => self (vars, edge)) args.1 args.2
  run fuel args := existsWithin fuel args.1 args.2
  run_zero _ := rfl
  run_succ _ _ := rfl

/-- A function that the list is still to be quantified in, and what this has to come to. -/
inductive ExistsCall (quantifiedVars : Set Nat) (scope : Scope) (store : Store Node)
    (vars : Finset Nat) : List Nat × Edge → (Edge → Store Node → Prop) → Prop
  | mk {list : List Nat} {edge : Edge} {function : BoolFunction} {bound : Nat} :
      Operand store vars edge function → store.From bound edge →
      Remaining quantifiedVars bound list → (existsTask quantifiedVars function).Covered scope →
      ExistsCall quantifiedVars scope store vars (list, edge) (existsTask quantifiedVars function).Done

theorem quantifying_sinks (quantifiedVars : Set Nat) :
    Sinks quantifying ((quantifications quantifiedVars).remembers steady)
      (ExistsCall quantifiedVars) := by
  refine ⟨?_⟩
  rintro self scope store vars _ _ canonical @⟨list, edge, function, bound, operand, above, remaining,
    covered⟩ onward
  have represents := operand.represents
  obtain ⟨node, held, tests⟩ := above
  show Confined _ scope (existsStep (fun vars edge => self (vars, edge)) list edge) store _
  rw [existsStep]
  by_cases terminal : edge.index = 1
  · rw [if_pos (Edge.isTerminal_iff.mpr terminal)]
    exact Confined.pure canonical (existsTask_unchanged canonical represents
      (represents.dependsOn_empty canonical terminal) fun _ impossible =>
        absurd impossible (Set.notMem_empty _))
  rw [if_neg (mt Edge.isTerminal_iff.mp terminal)]
  apply Confined.ask_bind canonical (fun _ => rfl) (var_eq_ok held)
  have later := remaining.dropWhile (tests.resolve_left terminal)
  have isTop := represents.top canonical held terminal
  cases left : list.dropWhile (· < node.var) with
  | nil =>
    rw [left] at later
    refine Confined.pure canonical (existsTask_unchanged canonical represents isTop.depends ?_)
    intro var atLeast member
    exact absurd ((later.mem_iff var atLeast).mpr member) List.not_mem_nil
  | cons next rest =>
    rw [left] at later
    refine (quantifications quantifiedVars).remember canonical ⟨_, represents, rfl⟩ covered
      fun scope covered => ?_
    have normal := canonical.normal _ node held terminal
    have positive := Nat.ne_of_gt normal.var_pos
    have tested := operand.var_mem canonical held terminal
    have descends := fun value => canonical.descends_child held terminal value edge.isNegated
    have children := operand.child canonical held terminal
    have further := later.mono (Nat.le_succ node.var)
    have onChild := existsTask_child isTop covered
    have member := existsTask_target_mem covered
    have lowCall : Confined ((quantifications quantifiedVars).remembers steady) scope
        (self (next :: rest, (node.child false).flip edge.isNegated)) store _ :=
      onward (.refl canonical) tested (descends false)
        (.mk (children false) ((normal.child_from false).flip _) further (onChild false))
    apply Confined.ask_bind canonical (fun _ => rfl) (lowOf_eq_ok canonical held)
    apply lowCall.bind
    intro low second grownLow lowDone
    have highCall : Confined ((quantifications quantifiedVars).remembers steady) scope
        (self (next :: rest, (node.child true).flip edge.isNegated)) second _ :=
      onward grownLow tested (descends true) (.mk ((children true).grow grownLow)
        (grownLow.more.from_mono ((normal.child_from true).flip _)) further (onChild true))
    apply Confined.ask_bind grownLow.canonical (fun _ => rfl)
      (highOf_eq_ok grownLow.canonical (grownLow.more.contents _ node held))
    apply highCall.bind
    intro high third grownHigh highDone
    have lowDone := lowDone.grow grownHigh
    have chosen := remaining.next_eq_iff (tests.resolve_left terminal) left
    by_cases isQuantified : node.var ∈ quantifiedVars
    · rw [if_pos (chosen.mpr isQuantified)]
      refine (orHalves_confined grownHigh.canonical isQuantified lowDone.represents
        highDone.represents member).lift.weaken fun result after grown represents => ?_
      exact existsTask_done isTop (lowDone.grow grown) (highDone.grow grown) represents
    · rw [if_neg (mt chosen.mp isQuantified)]
      refine (nodeHalves_confined grownHigh.canonical isQuantified positive isTop.depends
        lowDone.represents highDone.represents member).lift.weaken
          fun result after grown represents => ?_
      exact existsTask_done isTop (lowDone.grow grown) (highDone.grow grown) represents

theorem existsWithin_confined {quantifiedVars : Set Nat} {fuel bound : Nat} {list : List Nat}
    (canonical : store.Canonical) (operand : Operand store vars edge function)
    (above : store.From bound edge) (remaining : Remaining quantifiedVars bound list)
    (enough : vars.card < fuel) (covered : (existsTask quantifiedVars function).Covered scope) :
    Confined ((quantifications quantifiedVars).remembers steady) scope (existsWithin fuel list edge)
      store (existsTask quantifiedVars function).Done :=
  (quantifying_sinks quantifiedVars).run_confined canonical (.mk operand above remaining covered)
    enough

/-- The variables of a list, all of them still to be quantified. -/
def Sorted (list : List Nat) : Prop := list.Pairwise fun earlier later => earlier < later

theorem existsIn_confined {list : List Nat} (canonical : store.Canonical)
    (represents : store.Represents edge function) (sorted : Sorted list)
    (covered : (existsTask {var | var ∈ list} function).Covered scope) :
    Confined ((quantifications {var | var ∈ list}).remembers steady) scope (existsIn list edge)
      store (existsTask {var | var ∈ list} function).Done := by
  obtain ⟨node, held⟩ := represents.live
  refine Confined.get_bind canonical (fun manager isBare => ?_)
    (existsWithin_confined canonical (Operand.start canonical represents)
      ⟨node, held, Or.inr (Nat.zero_le _)⟩ ⟨sorted, fun _ _ => Iff.rfl⟩
      (card_testedVars_lt_depthBound canonical) covered)
  rw [depthBound_of_bare isBare]

theorem orderTest_le : OrderTest fun first second : Nat => decide (first ≤ second) where
  trans first second third before after := by
    simp only [decide_eq_true_eq] at before after ⊢
    omega
  total first second := by
    simp only [Bool.or_eq_true, decide_eq_true_eq]
    omega
  antisymm first second before after := by
    simp only [decide_eq_true_eq] at before after
    omega

/-- Without a zero the variables are put in order. -/
theorem sortedVars_spec {list : List Nat} (nonzero : 0 ∉ list) :
    ∃ sorted, sortedVars list = .ok sorted ∧ Sorted sorted ∧ ∀ var, var ∈ sorted ↔ var ∈ list := by
  refine ⟨_, if_neg nonzero, ?_, fun var => mem_sortDistinct⟩
  refine (pairwise_sortDistinct orderTest_le list).imp fun {first second} ordered => ?_
  have atMost := of_decide_eq_true ordered.1
  exact Nat.lt_of_le_of_ne atMost ordered.2

theorem sortedVars_error {list : List Nat} (zero : 0 ∈ list) :
    sortedVars list = .error .zeroVariable :=
  if_pos zero

/-- Order and repeats in a list of variables make no difference. -/
theorem sortedVars_congr {list other : List Nat} (same : ∀ var, var ∈ other ↔ var ∈ list) :
    sortedVars other = sortedVars list := by
  unfold sortedVars
  simp only [same, sortDistinct_congr orderTest_le same]

/-- What the quantification of a list of variables has to come to. -/
noncomputable def existsVarsTask (list : List Nat) (function : BoolFunction) : Task :=
  { existsTask {var | var ∈ list} function with proper := 0 ∉ list }

theorem existsVars_confined (list : List Nat) (canonical : store.Canonical)
    (represents : store.Represents edge function)
    (covered : (existsVarsTask list function).Covered scope) :
    Confined steady scope (existsVars edge list) store (existsVarsTask list function).Done := by
  unfold existsVars
  by_cases zero : 0 ∈ list
  · rw [sortedVars_error zero]
    exact Confined.throw_bind canonical (covered.allows (fun nonzero => nonzero zero) _)
  obtain ⟨sorted, answer, ascending, same⟩ := sortedVars_spec zero
  have sameVars : {var | var ∈ sorted} = {var | var ∈ list} := Set.ext same
  apply Confined.read_bind canonical answer
  refine (existsIn_confined canonical represents ascending ?_).withMemo_steady.weaken ?_
  · rw [sameVars]
    exact ⟨covered.needs, fun improper => absurd trivial improper⟩
  · rw [sameVars]
    exact fun result after _ done => ⟨done.represents, done.needs, zero⟩

/-- What the dual quantification has to come to. -/
noncomputable def forallVarsTask (list : List Nat) (function : BoolFunction) : Task :=
  let dual := existsVarsTask list fun valuation => !function valuation
  { dual with target := fun valuation => !dual.target valuation }

theorem forallVars_confined (list : List Nat) (canonical : store.Canonical)
    (represents : store.Represents edge function)
    (covered : (forallVarsTask list function).Covered scope) :
    Confined steady scope (forallVars edge list) store (forallVarsTask list function).Done := by
  apply Confined.read_bind canonical (canonical.negate_eq_ok represents.live)
  refine (existsVars_confined list canonical represents.neg
    ⟨covered.needs, covered.allows⟩).bind ?_
  intro result after grown done
  exact Confined.read grown.canonical (grown.canonical.negate_eq_ok done.live)
    ⟨done.represents.neg, done.needs, done.proper⟩

/-! ## The relational product -/

/-- The conjunction with variables quantified away. -/
noncomputable def product (vars : Set Nat) (first second : BoolFunction) : BoolFunction :=
  quantified vars (Connective.and.on first second)

/-- The product is seen to be false. -/
def Opposed (first second : BoolFunction) : Prop :=
  (first = fun _ => false) ∨ (second = fun _ => false) ∨ first = fun valuation => !second valuation

/-- One function says all that the conjunction says. -/
def Alone (first second single : BoolFunction) : Prop :=
  ¬ Opposed first second ∧ (((first = fun _ => true) ∧ single = second) ∨
    (((second = fun _ => true) ∨ first = second) ∧ single = first))

/-- The first variable that matters to one of two functions. -/
structure TopOfPair (first second : BoolFunction) (top : Nat) : Prop where
  depends : DependsOn first (Set.Ici top)
  dependsSecond : DependsOn second (Set.Ici top)
  matters : ¬ (DependsOn first (Set.Ioi top) ∧ DependsOn second (Set.Ioi top))

/-- The pair falls apart at a variable. -/
structure Splitting (first second : BoolFunction) (top : Nat) : Prop where
  notOpposed : ¬ Opposed first second
  notAlone : ∀ single, ¬ Alone first second single
  isTop : TopOfPair first second top

/-- The high half is skipped where the low half of a quantified variable is true. -/
def Skips (vars : Set Nat) (first second : BoolFunction) (top : Nat) : Prop :=
  top ∈ vars ∧ product vars (cofactor first top false) (cofactor second top false) = fun _ => true

/-- The pairs that are met directly below a pair. -/
inductive ProductStep (vars : Set Nat) : BoolFunction × BoolFunction → BoolFunction × BoolFunction →
    Prop
  | low {first second : BoolFunction} {top : Nat} : Splitting first second top →
      ProductStep vars (first, second) (cofactor first top false, cofactor second top false)
  | high {first second : BoolFunction} {top : Nat} : Splitting first second top →
      ¬ Skips vars first second top →
      ProductStep vars (first, second) (cofactor first top true, cofactor second top true)

/-- What a relational product has to come to, and what it needs. -/
noncomputable def productTask (vars : Set Nat) (first second : BoolFunction) : Task where
  target := product vars first second
  needs := {needed | ∃ pair, Relation.ReflTransGen (ProductStep vars) (first, second) pair ∧
    (needed = product vars pair.1 pair.2 ∨
      ∃ single, Alone pair.1 pair.2 single ∧ needed ∈ (existsTask vars single).needs)}
  proper := True

section

variable {quantifiedVars : Set Nat}

theorem product_comm (vars : Set Nat) (first second : BoolFunction) :
    product vars first second = product vars second first := by
  unfold product
  congr 1
  funext valuation
  exact Connective.eval_comm _ _ _

theorem Opposed.symm (opposed : Opposed onFirst onSecond) : Opposed onSecond onFirst := by
  rcases opposed with isZero | isZero | opposite
  · exact Or.inr (Or.inl isZero)
  · exact Or.inl isZero
  · refine Or.inr (Or.inr (funext fun valuation => ?_))
    rw [opposite, Bool.not_not]

theorem Alone.symm {single : BoolFunction} (alone : Alone onFirst onSecond single) :
    Alone onSecond onFirst single := by
  refine ⟨mt Opposed.symm alone.1, ?_⟩
  rcases alone.2 with ⟨isOne, rfl⟩ | ⟨isOne | rfl, rfl⟩
  · exact Or.inr ⟨Or.inl isOne, rfl⟩
  · exact Or.inl ⟨isOne, rfl⟩
  · exact Or.inr ⟨Or.inr rfl, rfl⟩

theorem Splitting.symm {top : Nat} (splitting : Splitting onFirst onSecond top) :
    Splitting onSecond onFirst top where
  notOpposed := mt Opposed.symm splitting.notOpposed
  notAlone single alone := splitting.notAlone single alone.symm
  isTop := ⟨splitting.isTop.dependsSecond, splitting.isTop.depends,
    fun both => splitting.isTop.matters both.symm⟩

theorem ProductStep.swap {pair lower : BoolFunction × BoolFunction}
    (step : ProductStep quantifiedVars pair lower) :
    ProductStep quantifiedVars pair.swap lower.swap := by
  cases step with
  | low splitting => exact .low splitting.symm
  | high splitting notSkipped =>
    refine .high splitting.symm fun skipped => notSkipped ⟨skipped.1, ?_⟩
    rw [product_comm]
    exact skipped.2

theorem productTask_comm (vars : Set Nat) (first second : BoolFunction) :
    productTask vars first second = productTask vars second first := by
  have half : ∀ first second,
      (productTask vars first second).needs ⊆ (productTask vars second first).needs := by
    rintro first second needed ⟨⟨lower, lowerSecond⟩, reached, kind⟩
    refine ⟨(lowerSecond, lower), reached.lift Prod.swap fun _ _ => ProductStep.swap, ?_⟩
    rcases kind with rfl | ⟨single, alone, inner⟩
    · exact Or.inl (product_comm vars lower lowerSecond)
    · exact Or.inr ⟨single, alone.symm, inner⟩
  have sameNeeds := Set.Subset.antisymm (half first second) (half second first)
  have sameTarget := product_comm vars first second
  simp only [productTask] at sameNeeds ⊢
  rw [sameTarget, sameNeeds]

/-! ### The cases of a pair -/

theorem reached_of_closed {pair : BoolFunction × BoolFunction}
    (stops : ∀ lower, ¬ ProductStep quantifiedVars (onFirst, onSecond) lower)
    (reached : Relation.ReflTransGen (ProductStep quantifiedVars) (onFirst, onSecond) pair) :
    pair = (onFirst, onSecond) := by
  rcases Relation.ReflTransGen.cases_head reached with same | ⟨lower, step, _⟩
  · exact same.symm
  · exact absurd step (stops lower)

theorem ProductStep.splitting {lower : BoolFunction × BoolFunction}
    (step : ProductStep quantifiedVars (onFirst, onSecond) lower) :
    ∃ top, Splitting onFirst onSecond top := by
  cases step with
  | low splitting => exact ⟨_, splitting⟩
  | high splitting _ => exact ⟨_, splitting⟩

theorem product_of_opposed (vars : Set Nat) (opposed : Opposed onFirst onSecond) :
    product vars onFirst onSecond = fun _ => false := by
  have conjunction : Connective.and.on onFirst onSecond = fun _ => false := by
    funext valuation
    rcases opposed with rfl | rfl | rfl <;> simp [Connective.on, Connective.eval]
  rw [product, conjunction]
  exact quantified_of_disjoint (dependsOn_const false) fun _ impossible =>
    absurd impossible (Set.notMem_empty _)

theorem product_of_alone (vars : Set Nat) {single : BoolFunction}
    (alone : Alone onFirst onSecond single) :
    product vars onFirst onSecond = quantified vars single := by
  have conjunction : Connective.and.on onFirst onSecond = single := by
    funext valuation
    rcases alone.2 with ⟨rfl, rfl⟩ | ⟨rfl | rfl, rfl⟩ <;> simp [Connective.on, Connective.eval]
  rw [product, conjunction]

theorem Alone.unique {single other : BoolFunction} (alone : Alone onFirst onSecond single)
    (also : Alone onFirst onSecond other) : single = other := by
  rcases alone.2 with ⟨isOne, rfl⟩ | ⟨either, rfl⟩ <;>
    rcases also.2 with ⟨alsoOne, rfl⟩ | ⟨alsoEither, rfl⟩
  · rfl
  · rcases alsoEither with secondOne | same
    · exact secondOne.trans isOne.symm
    · exact same.symm
  · rcases either with secondOne | same
    · exact alsoOne.trans secondOne.symm
    · exact same
  · rfl

theorem TopOfPair.unique {top other : Nat} (isTop : TopOfPair onFirst onSecond top)
    (also : TopOfPair onFirst onSecond other) : top = other := by
  have notBefore : ∀ {left right : Nat}, TopOfPair onFirst onSecond left →
      TopOfPair onFirst onSecond right → ¬ left < right := by
    intro left right isLeft isRight before
    have later : Set.Ici right ⊆ Set.Ioi left := fun _ atLeast => Nat.lt_of_lt_of_le before atLeast
    exact isLeft.matters ⟨isRight.depends.mono later, isRight.dependsSecond.mono later⟩
  have := notBefore isTop also
  have := notBefore also isTop
  omega

theorem productTask_opposed (canonical : store.Canonical) (opposed : Opposed onFirst onSecond) :
    (productTask quantifiedVars onFirst onSecond).Done .zero store := by
  have isFalse := product_of_opposed quantifiedVars opposed
  refine ⟨?_, ?_, trivial⟩
  · rw [productTask, isFalse]
    exact canonical.represents_zero
  · rintro needed ⟨pair, reached, kind⟩
    obtain rfl := reached_of_closed (fun lower step =>
      step.splitting.elim fun _ splitting => splitting.notOpposed opposed) reached
    rcases kind with rfl | ⟨single, alone, _⟩
    · rw [isFalse]
      exact canonical.false_mem_functions
    · exact absurd opposed alone.1

theorem productTask_alone_covered {single : BoolFunction} (alone : Alone onFirst onSecond single)
    (covered : (productTask quantifiedVars onFirst onSecond).Covered scope) :
    (existsTask quantifiedVars single).Covered scope :=
  ⟨fun _ inner => covered.needs ⟨_, Relation.ReflTransGen.refl, Or.inr ⟨single, alone, inner⟩⟩,
    covered.allows⟩

theorem productTask_alone {single : BoolFunction} (alone : Alone onFirst onSecond single)
    (done : (existsTask quantifiedVars single).Done edge store) :
    (productTask quantifiedVars onFirst onSecond).Done edge store := by
  have whole := product_of_alone quantifiedVars alone
  have represents : store.Represents edge (product quantifiedVars onFirst onSecond) := by
    rw [whole]
    exact done.represents
  refine ⟨represents, ?_, trivial⟩
  rintro needed ⟨pair, reached, kind⟩
  obtain rfl := reached_of_closed (fun lower step =>
    step.splitting.elim fun _ splitting => splitting.notAlone single alone) reached
  rcases kind with rfl | ⟨other, also, inner⟩
  · exact represents.mem_functions
  · rw [also.unique alone] at inner
    exact done.needs inner

section

variable {top : Nat}

theorem productTask_target_mem
    (covered : (productTask quantifiedVars onFirst onSecond).Covered scope) :
    product quantifiedVars onFirst onSecond ∈ scope.family :=
  covered.needs ⟨_, Relation.ReflTransGen.refl, Or.inl rfl⟩

theorem productTask_step {lower : BoolFunction × BoolFunction}
    (step : ProductStep quantifiedVars (onFirst, onSecond) lower)
    (covered : (productTask quantifiedVars onFirst onSecond).Covered scope) :
    (productTask quantifiedVars lower.1 lower.2).Covered scope := by
  refine ⟨?_, covered.allows⟩
  rintro needed ⟨pair, reached, kind⟩
  exact covered.needs ⟨pair, reached.head step, kind⟩

/-- The parts of a relational product, put together. -/
theorem productTask_done {low : Edge} (splitting : Splitting onFirst onSecond top)
    (lowDone : (productTask quantifiedVars (cofactor onFirst top false)
      (cofactor onSecond top false)).Done low store)
    (highDone : ¬ Skips quantifiedVars onFirst onSecond top →
      (productTask quantifiedVars (cofactor onFirst top true) (cofactor onSecond top true)).needs ⊆
        store.functions)
    (represents : store.Represents edge (product quantifiedVars onFirst onSecond)) :
    (productTask quantifiedVars onFirst onSecond).Done edge store := by
  refine ⟨represents, ?_, trivial⟩
  rintro needed ⟨pair, reached, kind⟩
  rcases Relation.ReflTransGen.cases_head reached with rfl | ⟨lower, step, rest⟩
  · rcases kind with rfl | ⟨single, alone, _⟩
    · exact represents.mem_functions
    · exact absurd alone (splitting.notAlone single)
  · cases step with
    | low also =>
      rw [also.isTop.unique splitting.isTop] at rest
      exact lowDone.needs ⟨pair, rest, kind⟩
    | high also notSkipped =>
      rw [also.isTop.unique splitting.isTop] at rest notSkipped
      exact highDone notSkipped ⟨pair, rest, kind⟩

theorem product_eq_or (member : top ∈ quantifiedVars) :
    product quantifiedVars onFirst onSecond = Connective.or.on
      (product quantifiedVars (cofactor onFirst top false) (cofactor onSecond top false))
      (product quantifiedVars (cofactor onFirst top true) (cofactor onSecond top true)) :=
  quantified_eq_or _ member

end

end

/-- The relational products, named by the two edges. -/
noncomputable abbrev products (vars : Set Nat) : Naming (Edge × Edge) :=
  .ofPair (productTask vars)

/-- Both orders of the operands have the task of either. -/
theorem products_names (vars : Set Nat)
    (represents : store.Represents first onFirst)
    (representsSecond : store.Represents second onSecond) :
    (products vars).names store (sharedKey first second) (productTask vars onFirst onSecond) := by
  unfold sharedKey
  split
  · exact ⟨_, _, represents, representsSecond, rfl⟩
  · exact ⟨_, _, representsSecond, represents, productTask_comm _ _ _⟩

/-- The variable that is found at the top of two edges. -/
theorem topOfPair (canonical : store.Canonical) {top : Nat}
    (represents : store.Represents first onFirst)
    (representsSecond : store.Represents second onSecond) (inner : first.index ≠ 1)
    (found : (bare store).topVar [first, second] = .ok top) : TopOfPair onFirst onSecond top := by
  have live : ∀ edge ∈ [first, second], (bare store).store.Live edge :=
    List.forall_mem_cons.mpr ⟨represents.live, List.forall_mem_singleton.mpr representsSecond.live⟩
  obtain ⟨same, foundAgain, above, attained⟩ := topVar_spec live
  rw [foundAgain] at found
  cases found
  obtain ⟨edge, member, node, held, notTerminal, rfl⟩ := attained ⟨first, List.mem_cons_self, inner⟩
  refine ⟨represents.dependsOn_Ici canonical (above first List.mem_cons_self),
    representsSecond.dependsOn_Ici canonical
      (above second (List.mem_cons_of_mem _ List.mem_cons_self)), fun both => ?_⟩
  rcases List.mem_cons.mp member with rfl | last
  · exact Nat.lt_irrefl _ (represents.mem_of_dependsOn canonical held notTerminal both.1)
  · rw [List.mem_singleton.mp last] at held notTerminal
    exact Nat.lt_irrefl _ (representsSecond.mem_of_dependsOn canonical held notTerminal both.2)

/-- The layer of relational products, above that of plain quantifications. -/
noncomputable abbrev pairLayer (vars : Set Nat) :
    Steadiness (StateT (Memo (Edge × Edge) Edge) (StateT (Memo Edge Edge) (EStateM Fault Manager))) :=
  (products vars).remembers ((quantifications vars).remembers steady)

/-- Two edges are opposed where the first tests of a relational product say so. -/
theorem opposed_iff (canonical : store.Canonical) (represents : store.Represents first onFirst)
    (representsSecond : store.Represents second onSecond) :
    Opposed onFirst onSecond ↔ (first = .zero ∨ second = .zero) ∨ first = -second := by
  unfold Opposed
  rw [represents.eq_iff canonical canonical.represents_zero,
    representsSecond.eq_iff canonical canonical.represents_zero,
    represents.eq_iff canonical representsSecond.neg, or_assoc]

theorem alone_of_one (canonical : store.Canonical) (represents : store.Represents first onFirst)
    (notOpposed : ¬ Opposed onFirst onSecond) (isOne : first = .one) :
    Alone onFirst onSecond onSecond :=
  ⟨notOpposed, Or.inl ⟨represents.eq_true_of_one canonical isOne, rfl⟩⟩

theorem alone_of_single (canonical : store.Canonical) (represents : store.Represents first onFirst)
    (representsSecond : store.Represents second onSecond) (notOpposed : ¬ Opposed onFirst onSecond)
    (isSingle : second = .one ∨ first = second) : Alone onFirst onSecond onFirst :=
  ⟨notOpposed, Or.inr ⟨isSingle.imp (representsSecond.eq_true_of_one canonical)
    (represents.eq_of_eq representsSecond), rfl⟩⟩

theorem not_alone (canonical : store.Canonical) (represents : store.Represents first onFirst)
    (representsSecond : store.Represents second onSecond) (notOne : first ≠ .one)
    (notSingle : ¬ (second = .one ∨ first = second)) (single : BoolFunction) :
    ¬ Alone onFirst onSecond single := by
  rw [represents.eq_iff canonical representsSecond,
    representsSecond.eq_iff canonical canonical.represents_one] at notSingle
  rw [ne_eq, represents.eq_iff canonical canonical.represents_one] at notOne
  intro isAlone
  rcases isAlone.2 with ⟨isTrue, _⟩ | ⟨either, _⟩
  · exact notOne isTrue
  · exact notSingle either

theorem alone_confined {list : List Nat} {single : Edge} {function : BoolFunction}
    (canonical : store.Canonical) (sorted : Sorted list)
    (represents : store.Represents single function) (isAlone : Alone onFirst onSecond function)
    (covered : (productTask {var | var ∈ list} onFirst onSecond).Covered scope) :
    Confined (pairLayer {var | var ∈ list}) scope (StateT.lift (existsIn list single)) store
      (productTask {var | var ∈ list} onFirst onSecond).Done :=
  ((existsIn_confined canonical represents sorted
    (productTask_alone_covered isAlone covered)).weaken
      fun _ _ _ done => productTask_alone isAlone done).below

/-- From the low half on. A quantified variable makes a disjunction of the halves, which is true
already if the low one is. -/
theorem productHalves_confined {list : List Nat} {top : Nat} {low : Edge}
    {work : PairMemoized Edge} (canonical : store.Canonical) (positive : top ≠ 0)
    (splitting : Splitting onFirst onSecond top)
    (target : product {var | var ∈ list} onFirst onSecond ∈ scope.family)
    (lowDone : (productTask {var | var ∈ list} (cofactor onFirst top false)
      (cofactor onSecond top false)).Done low store)
    (onHigh : ¬ Skips {var | var ∈ list} onFirst onSecond top →
      Confined (pairLayer {var | var ∈ list}) scope work store
        (productTask {var | var ∈ list} (cofactor onFirst top true)
          (cofactor onSecond top true)).Done) :
    Confined (pairLayer {var | var ∈ list}) scope (do
      if top ∈ list then
        if low = .one then
          return .one
        else
          let high ← work
          or low high
      else
        let high ← work
        node top low high) store
      (productTask {var | var ∈ list} onFirst onSecond).Done := by
  by_cases isQuantified : top ∈ list
  · rw [if_pos isQuantified]
    have whole : product {var | var ∈ list} onFirst onSecond = _ := product_eq_or isQuantified
    by_cases isTrue : low = .one
    · rw [if_pos isTrue]
      have lowTrue := lowDone.represents.eq_true_of_one canonical isTrue
      refine Confined.pure canonical (productTask_done splitting lowDone ?_ ?_)
      · exact fun notSkipped => absurd ⟨isQuantified, lowTrue⟩ notSkipped
      · rw [whole]
        refine canonical.represents_one.congr fun valuation => ?_
        have atValuation := congrFun lowTrue valuation
        simp only [productTask] at atValuation
        simp [Connective.on, Connective.eval, atValuation]
    · rw [if_neg isTrue]
      have notSkipped : ¬ Skips {var | var ∈ list} onFirst onSecond top := by
        intro skipped
        have onOne := canonical.represents_one
        rw [← skipped.2] at onOne
        exact isTrue (lowDone.represents.unique canonical onOne)
      apply (onHigh notSkipped).bind
      intro high third grown highDone
      have lowDone := lowDone.grow grown
      refine (orHalves_confined grown.canonical isQuantified lowDone.represents
        highDone.represents target).lift.weaken fun result after grown joined => ?_
      exact productTask_done splitting (lowDone.grow grown) (fun _ => (highDone.grow grown).needs)
        joined
  · rw [if_neg isQuantified]
    apply (onHigh fun skipped => isQuantified skipped.1).bind
    intro high third grown highDone
    have lowDone := lowDone.grow grown
    have depends := Connective.and.dependsOn_on splitting.isTop.depends splitting.isTop.dependsSecond
    refine (nodeHalves_confined grown.canonical isQuantified positive depends lowDone.represents
      highDone.represents target).lift.weaken fun result after grown joined => ?_
    exact productTask_done splitting (lowDone.grow grown) (fun _ => (highDone.grow grown).needs)
      joined

/-- The relational product as a recursion of its two functions. -/
def multiplying (list : List Nat) : Recursion (Edge × Edge)
    (StateT (Memo (Edge × Edge) Edge) (StateT (Memo Edge Edge) (EStateM Fault Manager))) Edge where
  edges args := [args.1, args.2]
  step self args := relProductStep list (fun first second => self (first, second)) args.1 args.2
  run fuel args := relProductWithin list fuel args.1 args.2
  run_zero _ := rfl
  run_succ _ _ := rfl

/-- Two functions, and what their relational product has to come to. -/
inductive ProductCall (list : List Nat) (scope : Scope) (store : Store Node) (vars : Finset Nat) :
    Edge × Edge → (Edge → Store Node → Prop) → Prop
  | mk {first second : Edge} {onFirst onSecond : BoolFunction} :
      Operand store vars first onFirst → Operand store vars second onSecond →
      (productTask {var | var ∈ list} onFirst onSecond).Covered scope →
      ProductCall list scope store vars (first, second)
        (productTask {var | var ∈ list} onFirst onSecond).Done

theorem multiplying_sinks {list : List Nat} (sorted : Sorted list) :
    Sinks (multiplying list) (pairLayer {var | var ∈ list}) (ProductCall list) := by
  refine ⟨?_⟩
  rintro self scope store vars _ _ canonical @⟨first, second, onFirst, onSecond, operand,
    operandSecond, covered⟩ onward
  have represents := operand.represents
  have representsSecond := operandSecond.represents
  have opposed := opposed_iff canonical represents representsSecond
  show Confined _ scope (relProductStep list (fun first second => self (first, second))
    first second) store _
  rw [relProductStep]
  by_cases isZero : first = .zero ∨ second = .zero
  · rw [if_pos isZero]
    exact Confined.pure canonical (productTask_opposed canonical (opposed.mpr (Or.inl isZero)))
  rw [if_neg isZero]
  apply Confined.read_bind canonical (canonical.negate_eq_ok representsSecond.live)
  by_cases isOpposite : first = -second
  · rw [if_pos isOpposite]
    exact Confined.pure canonical (productTask_opposed canonical (opposed.mpr (Or.inr isOpposite)))
  rw [if_neg isOpposite]
  have notOpposed : ¬ Opposed onFirst onSecond := not_or.mpr ⟨isZero, isOpposite⟩ ∘ opposed.mp
  by_cases isOne : first = .one
  · rw [if_pos isOne]
    exact alone_confined canonical sorted representsSecond
      (alone_of_one canonical represents notOpposed isOne) covered
  rw [if_neg isOne]
  by_cases isSingle : second = .one ∨ first = second
  · rw [if_pos isSingle]
    exact alone_confined canonical sorted represents
      (alone_of_single canonical represents representsSecond notOpposed isSingle) covered
  rw [if_neg isSingle]
  refine (products {var | var ∈ list}).remember canonical
    (products_names _ represents representsSecond) covered fun scope covered => ?_
  have inner : first.index ≠ 1 := Edge.index_ne_one isOne fun same => isZero (Or.inl same)
  obtain ⟨top, first0, first1, second0, second1, found, positive, left, isFirst, split,
    splitSecond⟩ := splits_pair (bare_sound canonical) operand operandSecond inner
  obtain ⟨descendsLow, descendsHigh⟩ := descends_pair canonical isFirst split splitSecond
  have splitting : Splitting onFirst onSecond top :=
    ⟨notOpposed, not_alone canonical represents representsSecond isOne isSingle,
      topOfPair canonical represents representsSecond inner found⟩
  apply Confined.ask_bind canonical (fun _ => rfl) found
  apply Confined.ask_bind canonical (fun _ => rfl) split.found
  apply Confined.ask_bind canonical (fun _ => rfl) splitSecond.found
  have lowCall : Confined (pairLayer {var | var ∈ list}) scope (self (first0, second0)) store _ :=
    onward (.refl canonical) left descendsLow
      (.mk split.low splitSecond.low (productTask_step (.low splitting) covered))
  apply lowCall.bind
  intro low middle grown lowDone
  apply productHalves_confined grown.canonical positive splitting (productTask_target_mem covered)
    lowDone
  intro notSkipped
  have highCall : Confined (pairLayer {var | var ∈ list}) scope (self (first1, second1)) middle _ :=
    onward grown left descendsHigh (.mk (split.high.grow grown) (splitSecond.high.grow grown)
      (productTask_step (ProductStep.high splitting notSkipped) covered))
  exact highCall

theorem relProductWithin_confined {fuel : Nat} {list : List Nat} (canonical : store.Canonical)
    (sorted : Sorted list) (operand : Operand store vars first onFirst)
    (operandSecond : Operand store vars second onSecond) (enough : vars.card < fuel)
    (covered : (productTask {var | var ∈ list} onFirst onSecond).Covered scope) :
    Confined (pairLayer {var | var ∈ list}) scope (relProductWithin list fuel first second) store
      (productTask {var | var ∈ list} onFirst onSecond).Done :=
  (multiplying_sinks sorted).run_confined canonical (.mk operand operandSecond covered) enough

/-- What the relational product of a list of variables has to come to. -/
noncomputable def relProductTask (list : List Nat) (first second : BoolFunction) : Task :=
  { productTask {var | var ∈ list} first second with proper := 0 ∉ list }

theorem relProduct_confined (list : List Nat) (canonical : store.Canonical)
    (represents : store.Represents first onFirst)
    (representsSecond : store.Represents second onSecond)
    (covered : (relProductTask list onFirst onSecond).Covered scope) :
    Confined steady scope (relProduct first second list) store
      (relProductTask list onFirst onSecond).Done := by
  unfold relProduct
  by_cases zero : 0 ∈ list
  · rw [sortedVars_error zero]
    exact Confined.throw_bind canonical (covered.allows (fun nonzero => nonzero zero) _)
  obtain ⟨sorted, answer, ascending, same⟩ := sortedVars_spec zero
  have sameVars : {var | var ∈ sorted} = {var | var ∈ list} := Set.ext same
  apply Confined.read_bind canonical answer
  have reads : ((quantifications {var | var ∈ sorted}).remembers steady).holds (getThe Manager) store
      (Returns fun _ => True) store :=
    ((quantifications {var | var ∈ sorted}).remembers steady).lift (.refl canonical) Steady.getThe
  have needed : (productTask {var | var ∈ sorted} onFirst onSecond).Covered scope := by
    rw [sameVars]
    exact ⟨covered.needs, fun improper => absurd trivial improper⟩
  have within := relProductWithin_confined canonical ascending (Operand.start canonical represents)
    (Operand.start canonical representsSecond) (card_testedVars_lt_depthBound canonical) needed
  refine Confined.get_bind canonical (fun manager isBare => ?_)
    ((within.withMemo reads).withMemo_steady.weaken ?_)
  · rw [depthBound_of_bare isBare]
  · rw [sameVars]
    exact fun result after _ done => ⟨done.represents, done.needs, zero⟩

end DecisionDiagram.Manager
