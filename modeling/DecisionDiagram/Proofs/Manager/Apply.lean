import DecisionDiagram.Manager.Apply
import DecisionDiagram.Proofs.Manager.Construct
import DecisionDiagram.Proofs.Manager.Recursion

/-!
# The connectives and if-then-else

The recursions are followed with a finite set of variables on which all operands depend. Every
split takes the smallest variable out of it, so the size of the set bounds the number of nested
steps, whatever the store grows to in between.
-/

set_option autoImplicit false

namespace DecisionDiagram

/-- A connective of two functions. -/
def Connective.on (connective : Connective) (first second : BoolFunction) : BoolFunction :=
  fun valuation => connective.eval (first valuation) (second valuation)

theorem Connective.eval_comm (connective : Connective) (first second : Bool) :
    connective.eval first second = connective.eval second first := by
  cases connective <;> cases first <;> cases second <;> rfl

theorem Connective.dependsOn_on (connective : Connective) {first second : BoolFunction}
    {vars : Set Nat} (onFirst : DependsOn first vars) (onSecond : DependsOn second vars) :
    DependsOn (connective.on first second) vars := by
  intro left right agree
  unfold on
  rw [onFirst agree, onSecond agree]

namespace Edge

variable {first second : Edge}

theorem index_eq_one_iff : first.index = 1 ↔ first = .one ∨ first = .zero := by
  constructor
  · intro terminal
    cases negated : first.isNegated with
    | false => exact Or.inl (eq_of_index_of_isNegated terminal negated)
    | true => exact Or.inr (eq_of_index_of_isNegated terminal negated)
  · rintro (rfl | rfl) <;> rfl

theorem index_ne_one (notOne : first ≠ .one) (notZero : first ≠ .zero) : first.index ≠ 1 :=
  fun terminal => (index_eq_one_iff.mp terminal).elim notOne notZero

theorem index_ne (different : first ≠ second) (notOpposite : first ≠ -second) :
    first.index ≠ second.index := by
  simp only [ne_eq, eq_iff_code_eq, code_neg] at different notOpposite
  simp only [index]
  omega

end Edge

theorem Edge.Apart.exchange {first second third : Edge} (apart : Edge.Apart first second third) :
    Edge.Apart first third second :=
  ⟨apart.first_inner, apart.third_inner, apart.second_inner, apart.first_third, apart.first_second,
    apart.second_third.symm⟩

theorem Edge.Apart.of_index_eq {first second third other another last : Edge}
    (apart : Edge.Apart first second third) (sameFirst : first.index = other.index)
    (sameSecond : second.index = another.index) (sameThird : third.index = last.index) :
    Edge.Apart other another last := by
  obtain ⟨first_inner, second_inner, third_inner, first_second, first_third, second_third⟩ := apart
  rw [sameFirst] at first_inner first_second first_third
  rw [sameSecond] at second_inner first_second second_third
  rw [sameThird] at third_inner first_third second_third
  exact ⟨first_inner, second_inner, third_inner, first_second, first_third, second_third⟩

/-! ## Connectives -/

namespace Connective

variable {store : Store Node} {first second : Edge} {onFirst onSecond : BoolFunction}

/-- What a look at two operands may come to: an edge for the function of both together, or nothing,
and then the operands are two different inner slots. -/
def Settles (store : Store Node) (first second : Edge) (function : BoolFunction) :
    Except Fault (Option Edge) → Prop
  | .ok (some edge) => store.Represents edge function
  | .ok none => first.index ≠ 1 ∧ second.index ≠ 1 ∧ first.index ≠ second.index
  | .error _ => False

theorem shortcut_spec (canonical : store.Canonical) (connective : Connective)
    (represents : store.Represents first onFirst)
    (representsSecond : store.Represents second onSecond) :
    Settles store first second (connective.on onFirst onSecond)
      (connective.shortcut first second) := by
  have zero := canonical.represents_zero
  have one := canonical.represents_one
  have negate := canonical.negate_eq_ok represents.live
  have negateSecond := canonical.negate_eq_ok representsSecond.live
  have firstZero := represents.eq_false_of_zero canonical
  have firstOne := represents.eq_true_of_one canonical
  have secondZero := representsSecond.eq_false_of_zero canonical
  have secondOne := representsSecond.eq_true_of_one canonical
  have equal := represents.eq_of_eq representsSecond
  have opposite := represents.eq_not_of_eq_neg representsSecond
  cases connective with
  | and =>
    simp only [shortcut, negateSecond, answer_bind]
    split_ifs with isZero isOne secondIsOne same different
    · refine zero.congr fun valuation => ?_
      rcases isZero with isZero | isZero
      · simp [on, eval, firstZero isZero]
      · simp [on, eval, secondZero isZero]
    · exact representsSecond.congr fun valuation => by simp [on, eval, firstOne isOne]
    · exact represents.congr fun valuation => by simp [on, eval, secondOne secondIsOne]
    · exact represents.congr fun valuation => by simp [on, eval, equal same]
    · exact zero.congr fun valuation => by simp [on, eval, opposite different]
    · obtain ⟨notZero, secondNotZero⟩ := not_or.mp isZero
      exact ⟨Edge.index_ne_one isOne notZero, Edge.index_ne_one secondIsOne secondNotZero,
        Edge.index_ne same different⟩
  | or =>
    simp only [shortcut, negateSecond, answer_bind]
    split_ifs with isOne isZero secondIsZero same different
    · refine one.congr fun valuation => ?_
      rcases isOne with isOne | isOne
      · simp [on, eval, firstOne isOne]
      · simp [on, eval, secondOne isOne]
    · exact representsSecond.congr fun valuation => by simp [on, eval, firstZero isZero]
    · exact represents.congr fun valuation => by simp [on, eval, secondZero secondIsZero]
    · exact represents.congr fun valuation => by simp [on, eval, equal same]
    · exact one.congr fun valuation => by simp [on, eval, opposite different]
    · obtain ⟨notOne, secondNotOne⟩ := not_or.mp isOne
      exact ⟨Edge.index_ne_one notOne isZero, Edge.index_ne_one secondNotOne secondIsZero,
        Edge.index_ne same different⟩
  | xor =>
    simp only [shortcut, negate, negateSecond, answer_bind]
    split_ifs with isOne secondIsOne isZero secondIsZero same different
    · exact representsSecond.neg.congr fun valuation => by simp [on, eval, firstOne isOne]
    · exact represents.neg.congr fun valuation => by simp [on, eval, secondOne secondIsOne]
    · exact representsSecond.congr fun valuation => by simp [on, eval, firstZero isZero]
    · exact represents.congr fun valuation => by simp [on, eval, secondZero secondIsZero]
    · exact zero.congr fun valuation => by simp [on, eval, equal same]
    · exact one.congr fun valuation => by simp [on, eval, opposite different]
    · exact ⟨Edge.index_ne_one isOne isZero, Edge.index_ne_one secondIsOne secondIsZero,
        Edge.index_ne same different⟩

end Connective

/-! ## If-then-else -/

/-- If-then-else of three functions. -/
def ifThenElse (condition whenTrue whenFalse : BoolFunction) : BoolFunction :=
  fun valuation => if condition valuation then whenTrue valuation else whenFalse valuation

theorem dependsOn_ifThenElse {condition whenTrue whenFalse : BoolFunction} {vars : Set Nat}
    (onCondition : DependsOn condition vars) (onTrue : DependsOn whenTrue vars)
    (onFalse : DependsOn whenFalse vars) :
    DependsOn (ifThenElse condition whenTrue whenFalse) vars := by
  intro left right agree
  unfold ifThenElse
  rw [onCondition agree, onTrue agree, onFalse agree]

/-! Two operands suffice where one of them is constant or follows the condition. -/

section

variable {condition whenTrue whenFalse : BoolFunction}

theorem or_on_eq (trueOrCondition : (whenTrue = fun _ => true) ∨ condition = whenTrue) :
    Connective.or.on condition whenFalse = ifThenElse condition whenTrue whenFalse := by
  funext valuation
  simp only [Connective.on, Connective.eval, ifThenElse]
  rcases trueOrCondition with rfl | rfl
  · cases condition valuation <;> rfl
  · cases condition valuation <;> rfl

theorem and_on_not_eq
    (falseOrOpposite : (whenTrue = fun _ => false) ∨ condition = fun valuation => !whenTrue valuation) :
    Connective.and.on (fun valuation => !condition valuation) whenFalse =
      ifThenElse condition whenTrue whenFalse := by
  funext valuation
  simp only [Connective.on, Connective.eval, ifThenElse]
  rcases falseOrOpposite with rfl | rfl
  · cases condition valuation <;> rfl
  · cases value : whenTrue valuation <;> simp [value]

theorem and_on_eq (falseOrCondition : (whenFalse = fun _ => false) ∨ condition = whenFalse) :
    Connective.and.on condition whenTrue = ifThenElse condition whenTrue whenFalse := by
  funext valuation
  simp only [Connective.on, Connective.eval, ifThenElse]
  rcases falseOrCondition with rfl | rfl
  · cases condition valuation <;> rfl
  · cases condition valuation <;> rfl

theorem or_on_not_eq
    (trueOrOpposite : (whenFalse = fun _ => true) ∨ condition = fun valuation => !whenFalse valuation) :
    Connective.or.on (fun valuation => !condition valuation) whenTrue =
      ifThenElse condition whenTrue whenFalse := by
  funext valuation
  simp only [Connective.on, Connective.eval, ifThenElse]
  rcases trueOrOpposite with rfl | rfl
  · cases condition valuation <;> simp
  · cases value : whenFalse valuation <;> simp [value]

theorem xor_on_eq (opposite : whenTrue = fun valuation => !whenFalse valuation) :
    Connective.xor.on condition whenFalse = ifThenElse condition whenTrue whenFalse := by
  funext valuation
  simp only [Connective.on, Connective.eval, ifThenElse, opposite]
  cases condition valuation <;> simp

end

section

variable {store : Store Node} {condition whenTrue whenFalse : Edge}
  {onCondition onTrue onFalse : BoolFunction}

/-- What an if-then-else may come down to: an edge for its function, a connective of two edges with
the same function, or nothing simpler, and then the operands are three different inner slots. -/
def ReducesTo (store : Store Node) (condition whenTrue whenFalse : Edge) (function : BoolFunction) :
    Except Fault IteForm → Prop
  | .ok (.answer edge) => store.Represents edge function
  | .ok (.binary connective first second) => ∃ onFirst onSecond,
      store.Represents first onFirst ∧ store.Represents second onSecond ∧
        connective.on onFirst onSecond = function
  | .ok .general => Edge.Apart condition whenTrue whenFalse
  | .error _ => False

theorem iteForm_spec (canonical : store.Canonical)
    (represents : store.Represents condition onCondition)
    (representsTrue : store.Represents whenTrue onTrue)
    (representsFalse : store.Represents whenFalse onFalse) :
    ReducesTo store condition whenTrue whenFalse (ifThenElse onCondition onTrue onFalse)
      (IteForm.of condition whenTrue whenFalse) := by
  have negate := canonical.negate_eq_ok represents.live
  have negateTrue := canonical.negate_eq_ok representsTrue.live
  have negateFalse := canonical.negate_eq_ok representsFalse.live
  simp only [IteForm.of, negate, negateTrue, negateFalse, answer_bind]
  by_cases isOne : condition = .one
  · rw [if_pos isOne]
    refine representsTrue.congr fun valuation => ?_
    simp [ifThenElse, represents.eq_true_of_one canonical isOne]
  rw [if_neg isOne]
  by_cases isZero : condition = .zero
  · rw [if_pos isZero]
    refine representsFalse.congr fun valuation => ?_
    simp [ifThenElse, represents.eq_false_of_zero canonical isZero]
  rw [if_neg isZero]
  by_cases orFalse : whenTrue = .one ∨ condition = whenTrue
  · rw [if_pos orFalse]
    have functions := orFalse.imp (representsTrue.eq_true_of_one canonical)
      (represents.eq_of_eq representsTrue)
    exact ⟨_, _, represents, representsFalse, or_on_eq functions⟩
  rw [if_neg orFalse]
  by_cases noTrue : whenTrue = .zero
  · rw [if_pos noTrue]
    have function := representsTrue.eq_false_of_zero canonical noTrue
    exact ⟨_, _, represents.neg, representsFalse, and_on_not_eq (Or.inl function)⟩
  rw [if_neg noTrue]
  by_cases isNotTrue : condition = -whenTrue
  · rw [if_pos isNotTrue]
    have functions := represents.eq_not_of_eq_neg representsTrue isNotTrue
    exact ⟨_, _, represents.neg, representsFalse, and_on_not_eq (Or.inr functions)⟩
  rw [if_neg isNotTrue]
  by_cases andTrue : whenFalse = .zero ∨ condition = whenFalse
  · rw [if_pos andTrue]
    have functions := andTrue.imp (representsFalse.eq_false_of_zero canonical)
      (represents.eq_of_eq representsFalse)
    exact ⟨_, _, represents, representsTrue, and_on_eq functions⟩
  rw [if_neg andTrue]
  by_cases oneFalse : whenFalse = .one
  · rw [if_pos oneFalse]
    have function := representsFalse.eq_true_of_one canonical oneFalse
    exact ⟨_, _, represents.neg, representsTrue, or_on_not_eq (Or.inl function)⟩
  rw [if_neg oneFalse]
  by_cases isNotFalse : condition = -whenFalse
  · rw [if_pos isNotFalse]
    have functions := represents.eq_not_of_eq_neg representsFalse isNotFalse
    exact ⟨_, _, represents.neg, representsTrue, or_on_not_eq (Or.inr functions)⟩
  rw [if_neg isNotFalse]
  by_cases same : whenTrue = whenFalse
  · rw [if_pos same]
    refine representsTrue.congr fun valuation => ?_
    simp [ifThenElse, representsTrue.eq_of_eq representsFalse same]
  rw [if_neg same]
  by_cases different : whenTrue = -whenFalse
  · rw [if_pos different]
    have functions := representsTrue.eq_not_of_eq_neg representsFalse different
    exact ⟨_, _, represents, representsFalse, xor_on_eq functions⟩
  rw [if_neg different]
  -- none of the ten tests has succeeded
  obtain ⟨trueNotOne, notTrue⟩ := not_or.mp orFalse
  obtain ⟨falseNotZero, notFalse⟩ := not_or.mp andTrue
  exact
    { first_inner := Edge.index_ne_one isOne isZero
      second_inner := Edge.index_ne_one trueNotOne noTrue
      third_inner := Edge.index_ne_one oneFalse falseNotZero
      first_second := Edge.index_ne notTrue isNotTrue
      first_third := Edge.index_ne notFalse isNotFalse
      second_third := Edge.index_ne same different }

end

namespace Manager

variable {before : Manager} {allowed : Fault → Prop} {scope : Scope} {store after : Store Node}
  {vars : Finset Nat} {edge : Edge} {function : BoolFunction}

/-- An operand of a recursion: an edge for a function of the variables that are left. -/
structure Operand (store : Store Node) (vars : Finset Nat) (edge : Edge)
    (function : BoolFunction) : Prop where
  represents : store.Represents edge function
  depends : DependsOn function ↑vars

theorem Operand.grow (operand : Operand store vars edge function) (grown : store.Grown after) :
    Operand after vars edge function :=
  ⟨grown.represents operand.represents, operand.depends⟩

/-- At the start, all variables of the store are left. -/
theorem Operand.start {store : Store Node} (canonical : store.Canonical)
    (represents : store.Represents edge function) :
    Operand store store.testedVars edge function :=
  ⟨represents, represents.dependsOn_testedVars canonical⟩

section

variable {node : Node}

/-- The variable of an operand's node is left. -/
theorem Operand.var_mem (canonical : store.Canonical) (operand : Operand store vars edge function)
    (held : store.contents edge.index = some node) (inner : edge.index ≠ 1) : node.var ∈ vars :=
  Finset.mem_coe.mp (operand.represents.mem_of_dependsOn canonical held inner operand.depends)

theorem Operand.child (canonical : store.Canonical) (operand : Operand store vars edge function)
    (held : store.contents edge.index = some node) (inner : edge.index ≠ 1) (value : Bool) :
    Operand store (vars.erase node.var) ((node.child value).flip edge.isNegated)
      (cofactor function node.var value) := by
  refine ⟨operand.represents.child canonical held inner value, ?_⟩
  rw [Finset.coe_erase]
  exact dependsOn_cofactor operand.depends node.var value

end

theorem Operand.flip (operand : Operand store vars edge function) (negated : Bool) :
    Operand store vars (edge.flip negated) fun valuation => function valuation ^^ negated :=
  ⟨operand.represents.flip negated, fun _ _ agree => congrArg (· ^^ negated) (operand.depends agree)⟩

/-- An operand falls apart at a variable that no function tests before. -/
structure Splits (manager : Manager) (vars : Finset Nat) (top : Nat) (edge : Edge)
    (function : BoolFunction) (low high : Edge) : Prop where
  found : manager.cofactors edge top = .ok (low, high)
  depends : DependsOn function (Set.Ici top)
  low : Operand manager.store (vars.erase top) low (cofactor function top false)
  high : Operand manager.store (vars.erase top) high (cofactor function top true)

theorem Operand.splits (sound : before.Sound) {top : Nat} (positive : top ≠ 0)
    (operand : Operand before.store vars edge function) (above : before.store.From top edge) :
    ∃ low high, Splits before vars top edge function low high := by
  have depends := operand.represents.dependsOn_Ici sound.canonical above
  obtain ⟨low, high, found, onLow, onHigh⟩ :=
    cofactors_spec sound.canonical positive operand.represents depends
  have fewer : ∀ value, DependsOn (cofactor function top value) ↑(vars.erase top) := by
    intro value
    rw [Finset.coe_erase]
    exact dependsOn_cofactor operand.depends top value
  exact ⟨low, high, found, depends, ⟨onLow, fewer false⟩, ⟨onHigh, fewer true⟩⟩

/-- The halves test later variables. -/
theorem Splits.from_halves {manager : Manager} {top : Nat} {low high : Edge}
    (splits : Splits manager vars top edge function low high) (canonical : manager.store.Canonical) :
    manager.store.From (top + 1) low ∧ manager.store.From (top + 1) high := by
  have later : Set.Ici top \ {top} ⊆ Set.Ici (top + 1) := fun _ ⟨atLeast, different⟩ =>
    Nat.lt_of_le_of_ne atLeast (Ne.symm different)
  have depends := fun value => (dependsOn_cofactor splits.depends top value).mono later
  exact ⟨splits.low.represents.from_of_dependsOn canonical (depends false),
    splits.high.represents.from_of_dependsOn canonical (depends true)⟩

/-- Operands that are not all constant fall apart at a variable that is left. -/
theorem splits_spec {operands : List (Edge × BoolFunction)} (sound : before.Sound)
    (each : ∀ operand ∈ operands, Operand before.store vars operand.1 operand.2)
    (inner : ∃ operand ∈ operands, operand.1.index ≠ 1) :
    ∃ top, before.topVar (operands.map Prod.fst) = .ok top ∧ top ≠ 0 ∧ top ∈ vars ∧
      before.store.FirstVar (operands.map Prod.fst) top ∧
      ∀ operand ∈ operands, ∃ low high, Splits before vars top operand.1 operand.2 low high := by
  have live : ∀ edge ∈ operands.map Prod.fst, before.store.Live edge := by
    intro edge member
    obtain ⟨operand, known, rfl⟩ := List.mem_map.mp member
    exact (each operand known).represents.live
  have notConstant : ∃ edge ∈ operands.map Prod.fst, edge.index ≠ 1 := by
    obtain ⟨operand, known, different⟩ := inner
    exact ⟨_, List.mem_map_of_mem known, different⟩
  obtain ⟨top, found, above, attained⟩ := topVar_spec live
  obtain ⟨edge, member, node, held, notTerminal, same⟩ := attained notConstant
  obtain ⟨operand, known, rfl⟩ := List.mem_map.mp member
  have positive : top ≠ 0 := by
    rw [← same]
    exact Nat.ne_of_gt (sound.canonical.normal _ node held notTerminal).var_pos
  refine ⟨top, found, positive, ?_, ⟨above, _, member, node, held, notTerminal, same⟩, ?_⟩
  · rw [← same]
    exact (each operand known).var_mem sound.canonical held notTerminal
  · intro other member
    exact (each other member).splits sound positive (above _ (List.mem_map_of_mem member))

theorem splits_pair {first second : Edge} {onFirst onSecond : BoolFunction} (sound : before.Sound)
    (operand : Operand before.store vars first onFirst)
    (operandSecond : Operand before.store vars second onSecond) (inner : first.index ≠ 1) :
    ∃ top first0 first1 second0 second1, before.topVar [first, second] = .ok top ∧ top ≠ 0 ∧
      top ∈ vars ∧ before.store.FirstVar [first, second] top ∧
        Splits before vars top first onFirst first0 first1 ∧
          Splits before vars top second onSecond second0 second1 := by
  have each : ∀ operand ∈ [(first, onFirst), (second, onSecond)],
      Operand before.store vars operand.1 operand.2 :=
    List.forall_mem_cons.mpr ⟨operand, List.forall_mem_singleton.mpr operandSecond⟩
  obtain ⟨top, found, positive, left, isFirst, splits⟩ :=
    splits_spec sound each ⟨_, List.mem_cons_self, inner⟩
  obtain ⟨⟨first0, first1, split⟩, others⟩ := List.forall_mem_cons.mp splits
  obtain ⟨second0, second1, splitSecond⟩ := List.forall_mem_singleton.mp others
  exact ⟨top, first0, first1, second0, second1, found, positive, left, isFirst, split, splitSecond⟩

theorem splits_triple {first second third : Edge} {onFirst onSecond onThird : BoolFunction}
    (sound : before.Sound) (operand : Operand before.store vars first onFirst)
    (operandSecond : Operand before.store vars second onSecond)
    (operandThird : Operand before.store vars third onThird) (inner : first.index ≠ 1) :
    ∃ top first0 first1 second0 second1 third0 third1,
      before.topVar [first, second, third] = .ok top ∧ top ≠ 0 ∧ top ∈ vars ∧
        before.store.FirstVar [first, second, third] top ∧
          Splits before vars top first onFirst first0 first1 ∧
            Splits before vars top second onSecond second0 second1 ∧
              Splits before vars top third onThird third0 third1 := by
  have each : ∀ operand ∈ [(first, onFirst), (second, onSecond), (third, onThird)],
      Operand before.store vars operand.1 operand.2 :=
    List.forall_mem_cons.mpr ⟨operand, List.forall_mem_cons.mpr
      ⟨operandSecond, List.forall_mem_singleton.mpr operandThird⟩⟩
  obtain ⟨top, found, positive, left, isFirst, splits⟩ :=
    splits_spec sound each ⟨_, List.mem_cons_self, inner⟩
  obtain ⟨⟨first0, first1, split⟩, others⟩ := List.forall_mem_cons.mp splits
  obtain ⟨⟨second0, second1, splitSecond⟩, last⟩ := List.forall_mem_cons.mp others
  obtain ⟨third0, third1, splitThird⟩ := List.forall_mem_singleton.mp last
  exact ⟨top, first0, first1, second0, second1, third0, third1, found, positive, left, isFirst,
    split, splitSecond, splitThird⟩

/-- Both halves of a pair are below its first variable. -/
theorem descends_pair {first second first0 first1 second0 second1 : Edge}
    {onFirst onSecond : BoolFunction} {top : Nat} (canonical : before.store.Canonical)
    (isFirst : before.store.FirstVar [first, second] top)
    (split : Splits before vars top first onFirst first0 first1)
    (splitSecond : Splits before vars top second onSecond second0 second1) :
    before.store.Descends [first, second] [first0, second0] ∧
      before.store.Descends [first, second] [first1, second1] := by
  obtain ⟨low, high⟩ := split.from_halves canonical
  obtain ⟨lowSecond, highSecond⟩ := splitSecond.from_halves canonical
  constructor
  · exact ⟨top, isFirst, List.forall_mem_cons.mpr ⟨low, List.forall_mem_singleton.mpr lowSecond⟩⟩
  · exact ⟨top, isFirst, List.forall_mem_cons.mpr ⟨high, List.forall_mem_singleton.mpr highSecond⟩⟩

theorem card_testedVars_lt_depthBound (canonical : store.Canonical) :
    store.testedVars.card < (bare store).depthBound := by
  have bound : store.testedVars.card ≤ (bare store).store.lastUsed :=
    Store.card_testedVars_le canonical.allotted
  unfold depthBound
  omega

theorem depthBound_of_bare {manager : Manager} (isBare : manager.store = store) :
    manager.depthBound = (bare store).depthBound := by
  subst isBare
  rfl

/-- An entry under the key of two operands answers for them in either order. -/
theorem binaryEntry_answer {connective : Connective} {first second answer : Edge}
    {onFirst onSecond : BoolFunction} {store : Store Node}
    (entry : store.BinaryEntry connective (sharedKey first second) answer)
    (represents : store.Represents first onFirst)
    (representsSecond : store.Represents second onSecond) :
    store.Represents answer (connective.on onFirst onSecond) := by
  have answered := entry.answer
  unfold sharedKey at answered
  split at answered
  · simp only [represents.denote_eq, representsSecond.denote_eq] at answered
    exact answered
  · simp only [represents.denote_eq, representsSecond.denote_eq] at answered
    exact answered.congr fun valuation => connective.eval_comm _ _

theorem binaryEntry_of {connective : Connective} {first second answer : Edge}
    {onFirst onSecond : BoolFunction} {store : Store Node} (firstInner : first.index ≠ 1)
    (secondInner : second.index ≠ 1) (apart : first.index ≠ second.index)
    (represents : store.Represents first onFirst)
    (representsSecond : store.Represents second onSecond)
    (answered : store.Represents answer (connective.on onFirst onSecond)) :
    store.BinaryEntry connective (sharedKey first second) answer := by
  have different : first.code ≠ second.code := by
    intro same
    exact apart (congrArg Edge.index (Edge.eq_of_code_eq same))
  unfold sharedKey
  split
  · rename_i ordered
    have smaller : first.code ≤ second.code := of_decide_eq_true ordered
    refine ⟨represents.live, representsSecond.live, by show first.code < second.code; omega,
      firstInner, secondInner, apart, ?_⟩
    simp only [represents.denote_eq, representsSecond.denote_eq]
    exact answered
  · rename_i ordered
    have larger : ¬ first.code ≤ second.code := fun smaller => ordered (decide_eq_true smaller)
    refine ⟨representsSecond.live, represents.live, by show second.code < first.code; omega,
      secondInner, firstInner, apart.symm, ?_⟩
    simp only [represents.denote_eq, representsSecond.denote_eq]
    exact answered.congr fun valuation => connective.eval_comm _ _

/-- A connective as a recursion of its two operands. -/
def applying (connective : Connective) :
    Recursion (Edge × Edge) (EStateM Fault Manager) Edge where
  edges args := [args.1, args.2]
  step self args := applyStep connective (fun first second => self (first, second)) args.1 args.2
  run fuel args := applyWithin connective fuel args.1 args.2
  run_zero _ := rfl
  run_succ _ _ := rfl

/-- Two operands, and the function that their connective has to come to. -/
inductive ApplyCall (connective : Connective) (scope : Scope) (store : Store Node)
    (vars : Finset Nat) : Edge × Edge → (Edge → Store Node → Prop) → Prop
  | mk {first second : Edge} {onFirst onSecond : BoolFunction} :
      Operand store vars first onFirst → Operand store vars second onSecond →
      connective.on onFirst onSecond ∈ scope.family →
      ApplyCall connective scope store vars (first, second) fun edge after =>
        after.Represents edge (connective.on onFirst onSecond)

/-- All that a connective meets on the way are cofactors of what it comes to. -/
theorem applying_sinks (connective : Connective) :
    Sinks (applying connective) steady (ApplyCall connective) := by
  refine ⟨?_⟩
  rintro self scope store vars _ _ canonical @⟨first, second, onFirst, onSecond, operand,
    operandSecond, member⟩ onward
  have settles := connective.shortcut_spec canonical operand.represents operandSecond.represents
  show Confined steady scope (applyStep connective (fun first second => self (first, second))
    first second) store _
  rw [applyStep]
  cases looked : connective.shortcut first second with
  | error fault =>
    rw [looked] at settles
    exact settles.elim
  | ok answer =>
    rw [looked] at settles
    apply Confined.read_bind canonical rfl
    cases answer with
    | some edge => exact Confined.pure canonical settles
    | none =>
      obtain ⟨firstInner, secondInner, apart⟩ := settles
      have answers : ∀ edge, store.BinaryEntry connective (sharedKey first second) edge →
          store.Represents edge (connective.on onFirst onSecond) := fun edge entry =>
        binaryEntry_answer entry operand.represents operandSecond.represents
      refine Confined.consult (fun scope => connective.on onFirst onSecond ∈ scope.family)
        canonical (fun caches sound => sound.lookupBinary connective (sharedKey first second))
        (fun edge result other entry => ?_) (fun edge entry => (answers edge entry).mem_functions)
        member ?_
      · exact Steady.pure (congrArg _ ((answers other entry).unique canonical result))
      · intro scope member
        have notConstant : (first.isTerminal || second.isTerminal) = false := by
          simp [Edge.isTerminal, firstInner, secondInner]
        simp only [notConstant, Bool.false_eq_true, if_false]
        obtain ⟨top, first0, first1, second0, second1, found, positive, left, isFirst, split,
          splitSecond⟩ := splits_pair (bare_sound canonical) operand operandSecond firstInner
        obtain ⟨descendsLow, descendsHigh⟩ :=
          descends_pair canonical isFirst split splitSecond
        have depends := connective.dependsOn_on split.depends splitSecond.depends
        have lower := scope.closed.cofactor _ member top depends
        apply Confined.ask_bind canonical (fun _ => rfl) found
        apply Confined.ask_bind canonical (fun _ => rfl) split.found
        apply Confined.ask_bind canonical (fun _ => rfl) splitSecond.found
        have lowCall : Confined steady scope (self (first0, second0)) store _ :=
          onward (.refl canonical) left descendsLow (.mk split.low splitSecond.low (lower false))
        apply lowCall.bind
        intro lowEdge middle grownLow onLow
        have highCall : Confined steady scope (self (first1, second1)) middle _ :=
          onward grownLow left descendsHigh
            (.mk (split.high.grow grownLow) (splitSecond.high.grow grownLow) (lower true))
        apply highCall.bind
        intro highEdge third grownHigh onHigh
        refine (join_confined grownHigh.canonical positive depends
          (grownHigh.represents onLow) onHigh member).bind ?_
        intro joined fourth grownJoin result
        have grown := grownLow.trans (grownHigh.trans grownJoin)
        have entry := binaryEntry_of firstInner secondInner apart
          (grown.represents operand.represents)
          (grown.represents operandSecond.represents) result
        refine (Confined.changeCaches grownJoin.canonical
          fun caches sound => sound.insertBinary entry).bind ?_
        rintro _ _ _ rfl
        exact Confined.pure grownJoin.canonical result

/-- A connective is worked out in as many nested steps as there are variables left, and one more. -/
theorem applyWithin_confined (connective : Connective) {fuel : Nat} {first second : Edge}
    {onFirst onSecond : BoolFunction} (canonical : store.Canonical)
    (operand : Operand store vars first onFirst)
    (operandSecond : Operand store vars second onSecond) (enough : vars.card < fuel)
    (member : connective.on onFirst onSecond ∈ scope.family) :
    Confined steady scope (applyWithin connective fuel first second) store
      fun edge after => after.Represents edge (connective.on onFirst onSecond) :=
  (applying_sinks connective).run_confined canonical (.mk operand operandSecond member) enough

theorem apply_confined (connective : Connective) {first second : Edge}
    {onFirst onSecond : BoolFunction} (canonical : store.Canonical)
    (represents : store.Represents first onFirst)
    (representsSecond : store.Represents second onSecond)
    (member : connective.on onFirst onSecond ∈ scope.family) :
    Confined steady scope (apply connective first second) store
      fun edge after => after.Represents edge (connective.on onFirst onSecond) := by
  refine Confined.get_bind canonical (fun manager isBare => ?_)
    (applyWithin_confined connective canonical (Operand.start canonical represents)
      (Operand.start canonical representsSecond) (card_testedVars_lt_depthBound canonical) member)
  rw [depthBound_of_bare isBare]

theorem apply_spec (connective : Connective) {first second : Edge}
    {onFirst onSecond : BoolFunction} (sound : before.Sound)
    (represents : before.store.Represents first onFirst)
    (representsSecond : before.store.Represents second onSecond) :
    Constructs (apply connective first second) before
      (fun edge after => after.store.Represents edge (connective.on onFirst onSecond))
      allowed :=
  Confined.constructs_faultless sound (apply_confined connective sound.canonical represents
    representsSecond (Scope.mem_faultless _))

/-! ## The recursion of if-then-else -/

theorem Operand.neg {store : Store Node} (operand : Operand store vars edge function) :
    Operand store vars (-edge) fun valuation => !function valuation :=
  ⟨operand.represents.neg, fun _ _ agree => congrArg not (operand.depends agree)⟩

/-- The operands of an if-then-else that does not come down to anything simpler. -/
structure IteOperands (store : Store Node) (vars : Finset Nat)
    (condition whenTrue whenFalse : Edge) (onCondition onTrue onFalse : BoolFunction) : Prop where
  onCondition : Operand store vars condition onCondition
  onTrue : Operand store vars whenTrue onTrue
  onFalse : Operand store vars whenFalse onFalse
  apart : Edge.Apart condition whenTrue whenFalse

namespace IteOperands

variable {store : Store Node} {condition whenTrue whenFalse : Edge}
  {onCondition onTrue onFalse : BoolFunction}

theorem grow
    (operands : IteOperands store vars condition whenTrue whenFalse onCondition onTrue onFalse)
    (grown : store.Grown after) :
    IteOperands after vars condition whenTrue whenFalse onCondition onTrue onFalse :=
  { operands with
    onCondition := operands.onCondition.grow grown
    onTrue := operands.onTrue.grow grown
    onFalse := operands.onFalse.grow grown }

/-- The condition complemented and the branches exchanged. -/
theorem exchange
    (operands : IteOperands store vars condition whenTrue whenFalse onCondition onTrue onFalse) :
    IteOperands store vars (-condition) whenFalse whenTrue
      (fun valuation => !onCondition valuation) onFalse onTrue := by
  have apart := operands.apart.exchange.of_index_eq (Edge.index_neg condition).symm rfl rfl
  exact ⟨operands.onCondition.neg, operands.onFalse, operands.onTrue, apart⟩

/-- Both branches complemented. -/
theorem complement
    (operands : IteOperands store vars condition whenTrue whenFalse onCondition onTrue onFalse) :
    IteOperands store vars condition (-whenTrue) (-whenFalse) onCondition
      (fun valuation => !onTrue valuation) (fun valuation => !onFalse valuation) := by
  have apart := operands.apart.of_index_eq rfl (Edge.index_neg whenTrue).symm
    (Edge.index_neg whenFalse).symm
  exact ⟨operands.onCondition, operands.onTrue.neg, operands.onFalse.neg, apart⟩

end IteOperands

/-- The key of an if-then-else has the same shape, regular where it has to be, and its function is
the wanted one up to the sign that the key tells. -/
structure Normalizes (store : Store Node) (vars : Finset Nat) (key : IteKey)
    (onCondition onTrue onFalse function : BoolFunction) : Prop where
  operands : IteOperands store vars key.condition key.whenTrue key.whenFalse
    onCondition onTrue onFalse
  condition_regular : key.condition.isNegated = false
  whenTrue_regular : key.whenTrue.isNegated = false
  value : ∀ valuation, (key.negated ^^ ifThenElse onCondition onTrue onFalse valuation) =
    function valuation

theorem iteKey_exchange {condition : Edge} (whenTrue whenFalse : Edge)
    (negated : condition.isNegated = true) (negate : condition.negate = .ok (-condition)) :
    IteKey.of condition whenTrue whenFalse = IteKey.of (-condition) whenFalse whenTrue := by
  have regular : (-condition).isNegated = false := by
    rw [Edge.isNegated_neg, negated]
    rfl
  unfold IteKey.of
  rw [if_pos negated, if_neg (ne_true_of_eq_false regular), negate]
  rfl

theorem iteKey_regular {condition : Edge} (whenTrue whenFalse : Edge)
    (regular : condition.isNegated = false) :
    IteKey.of condition whenTrue whenFalse =
      if whenTrue.isNegated then do
        return ⟨condition, ← whenTrue.negate, ← whenFalse.negate, true⟩
      else
        return ⟨condition, whenTrue, whenFalse, false⟩ := by
  unfold IteKey.of
  rw [if_neg (ne_true_of_eq_false regular)]
  rfl

/-- A regular condition: the branches are complemented where the first one is. -/
theorem iteKey_spec_of_regular {store : Store Node} {condition whenTrue whenFalse : Edge}
    {onCondition onTrue onFalse : BoolFunction} (canonical : store.Canonical)
    (operands : IteOperands store vars condition whenTrue whenFalse onCondition onTrue onFalse)
    (regular : condition.isNegated = false) :
    ∃ key keyTrue keyFalse, IteKey.of condition whenTrue whenFalse = .ok key ∧
      SameSlots [condition, whenTrue, whenFalse] [key.condition, key.whenTrue, key.whenFalse] ∧
        Normalizes store vars key onCondition keyTrue keyFalse
          (ifThenElse onCondition onTrue onFalse) := by
  rw [iteKey_regular _ _ regular]
  cases sign : whenTrue.isNegated with
  | false =>
    exact ⟨⟨condition, whenTrue, whenFalse, false⟩, _, _, rfl, fun _ => Iff.rfl, operands, regular,
      sign, fun valuation => Bool.false_xor _⟩
  | true =>
    have opposite : (-whenTrue).isNegated = false := by
      rw [Edge.isNegated_neg, sign]
      rfl
    refine ⟨⟨condition, -whenTrue, -whenFalse, true⟩, _, _, ?_, fun index => ?_,
      operands.complement, regular, opposite, fun valuation => ?_⟩
    · rw [if_pos rfl, canonical.negate_eq_ok operands.onTrue.represents.live,
        canonical.negate_eq_ok operands.onFalse.represents.live]
      rfl
    · simp [Edge.index_neg]
    · simp only [ifThenElse]
      cases onCondition valuation <;> simp

theorem iteKey_spec {store : Store Node} {condition whenTrue whenFalse : Edge}
    {onCondition onTrue onFalse : BoolFunction} (canonical : store.Canonical)
    (operands : IteOperands store vars condition whenTrue whenFalse onCondition onTrue onFalse) :
    ∃ key keyCondition keyTrue keyFalse, IteKey.of condition whenTrue whenFalse = .ok key ∧
      SameSlots [condition, whenTrue, whenFalse] [key.condition, key.whenTrue, key.whenFalse] ∧
        Normalizes store vars key keyCondition keyTrue keyFalse
          (ifThenElse onCondition onTrue onFalse) := by
  cases sign : condition.isNegated with
  | false =>
    obtain ⟨key, keyTrue, keyFalse, made, same, normalizes⟩ :=
      iteKey_spec_of_regular canonical operands sign
    exact ⟨key, _, keyTrue, keyFalse, made, same, normalizes⟩
  | true =>
    have opposite : (-condition).isNegated = false := by
      rw [Edge.isNegated_neg, sign]
      rfl
    obtain ⟨key, keyTrue, keyFalse, made, same, normalizes⟩ :=
      iteKey_spec_of_regular canonical operands.exchange opposite
    rw [iteKey_exchange _ _ sign (canonical.negate_eq_ok operands.onCondition.represents.live)]
    refine ⟨key, _, keyTrue, keyFalse, made, fun index => ?_,
      { normalizes with value := fun valuation => ?_ }⟩
    · rw [← same index]
      simp [Edge.index_neg, or_comm]
    · rw [normalizes.value]
      cases value : onCondition valuation <;> simp [ifThenElse, value]

theorem Normalizes.grow {key : IteKey} {onCondition onTrue onFalse : BoolFunction}
    (normalizes : Normalizes store vars key onCondition onTrue onFalse function)
    (grown : store.Grown after) : Normalizes after vars key onCondition onTrue onFalse function :=
  { normalizes with operands := normalizes.operands.grow grown }

theorem iteEntry_answer {store : Store Node} {f g h answer : Edge} {onF onG onH : BoolFunction}
    (entry : store.IteEntry (f, g, h) answer) (represents : store.Represents f onF)
    (representsTrue : store.Represents g onG) (representsFalse : store.Represents h onH) :
    store.Represents answer (ifThenElse onF onG onH) := by
  have answered := entry.answer
  simp only [represents.denote_eq, representsTrue.denote_eq, representsFalse.denote_eq] at answered
  exact answered

theorem iteEntry_of {store : Store Node} {f g h answer : Edge} {negated : Bool}
    {onF onG onH : BoolFunction}
    (normalizes : Normalizes store vars ⟨f, g, h, negated⟩ onF onG onH function)
    (answered : store.Represents answer (ifThenElse onF onG onH)) :
    store.IteEntry (f, g, h) answer := by
  obtain ⟨condition, whenTrue, whenFalse, apart⟩ := normalizes.operands
  refine ⟨condition.represents.live, whenTrue.represents.live, whenFalse.represents.live,
    normalizes.condition_regular, normalizes.whenTrue_regular, apart, ?_⟩
  simp only [condition.represents.denote_eq, whenTrue.represents.denote_eq,
    whenFalse.represents.denote_eq]
  exact answered

/-- The answer under a key, with the sign that the key tells, is the wanted one. -/
theorem Normalizes.finish {key : IteKey} {onCondition onTrue onFalse : BoolFunction}
    (canonical : store.Canonical)
    (normalizes : Normalizes store vars key onCondition onTrue onFalse function)
    (represents : store.Represents edge (ifThenElse onCondition onTrue onFalse)) :
    edge.negateIf key.negated = .ok (edge.flip key.negated) ∧
      store.Represents (edge.flip key.negated) function := by
  refine ⟨canonical.negateIf_eq_ok represents.live _, Store.live_flip.mpr represents.live, ?_⟩
  rw [Store.denote_flip, represents.denote_eq]
  exact funext normalizes.value

/-- What the key stands for is wanted, since the function is, up to complement. -/
theorem Normalizes.mem {key : IteKey} {onCondition onTrue onFalse : BoolFunction}
    (normalizes : Normalizes store vars key onCondition onTrue onFalse function)
    (member : function ∈ scope.family) : ifThenElse onCondition onTrue onFalse ∈ scope.family := by
  rw [← funext normalizes.value] at member
  cases negated : key.negated with
  | false =>
    simp only [negated, Bool.false_xor] at member
    exact member
  | true =>
    simp only [negated, Bool.true_xor] at member
    exact scope.closed.of_neg member

/-- If-then-else as a recursion of its three operands. -/
def choosing : Recursion (Edge × Edge × Edge) (EStateM Fault Manager) Edge where
  edges args := [args.1, args.2.1, args.2.2]
  step self args := iteStep (fun condition whenTrue whenFalse => self (condition, whenTrue, whenFalse))
    args.1 args.2.1 args.2.2
  run fuel args := iteWithin fuel args.1 args.2.1 args.2.2
  run_zero _ := rfl
  run_succ _ _ := rfl

/-- Three operands, and the function that their if-then-else has to come to. -/
inductive IteCall (scope : Scope) (store : Store Node) (vars : Finset Nat) :
    Edge × Edge × Edge → (Edge → Store Node → Prop) → Prop
  | mk {condition whenTrue whenFalse : Edge} {onCondition onTrue onFalse : BoolFunction} :
      Operand store vars condition onCondition → Operand store vars whenTrue onTrue →
      Operand store vars whenFalse onFalse → ifThenElse onCondition onTrue onFalse ∈ scope.family →
      IteCall scope store vars (condition, whenTrue, whenFalse) fun edge after =>
        after.Represents edge (ifThenElse onCondition onTrue onFalse)

theorem choosing_sinks : Sinks choosing steady IteCall := by
  refine ⟨?_⟩
  rintro self scope store vars _ _ canonical @⟨condition, whenTrue, whenFalse, onCondition, onTrue,
    onFalse, operand, operandTrue, operandFalse, member⟩ onward
  have reduces := iteForm_spec canonical operand.represents operandTrue.represents
    operandFalse.represents
  show Confined steady scope (iteStep (fun condition whenTrue whenFalse =>
    self (condition, whenTrue, whenFalse)) condition whenTrue whenFalse) store _
  rw [iteStep]
  cases formed : IteForm.of condition whenTrue whenFalse with
  | error fault =>
    rw [formed] at reduces
    exact reduces.elim
  | ok form =>
    rw [formed] at reduces
    apply Confined.read_bind canonical rfl
    cases form with
    | answer edge => exact Confined.pure canonical reduces
    | binary connective first second =>
      obtain ⟨onFirst, onSecond, represents, representsSecond, same⟩ := reduces
      rw [← same] at member ⊢
      exact apply_confined connective canonical represents representsSecond member
    | general =>
      have apart : Edge.Apart condition whenTrue whenFalse := reduces
      have notConstant :
          (condition.isTerminal || whenTrue.isTerminal || whenFalse.isTerminal) = false := by
        simp [Edge.isTerminal, apart.first_inner, apart.second_inner, apart.third_inner]
      simp only [notConstant, Bool.false_eq_true, if_false]
      obtain ⟨⟨f, g, h, negated⟩, onF, onG, onH, made, same, normalizes⟩ :=
        iteKey_spec canonical ⟨operand, operandTrue, operandFalse, apart⟩
      apply Confined.read_bind canonical made
      obtain ⟨operandF, operandG, operandH, apart⟩ := normalizes.operands
      have answers : ∀ edge, store.IteEntry (f, g, h) edge →
          store.Represents edge (ifThenElse onF onG onH) := fun edge entry =>
        iteEntry_answer entry operandF.represents operandG.represents operandH.represents
      refine Confined.consult
        (fun scope => ifThenElse onCondition onTrue onFalse ∈ scope.family) canonical
        (fun caches sound => sound.lookupIte (f, g, h)) (fun edge result other entry => ?_)
        (fun edge entry => ?_) member ?_
      · obtain ⟨signed, represents⟩ := normalizes.finish canonical (answers other entry)
        rw [result.unique canonical represents, ← signed]
        exact Steady.read _
      · exact (normalizes.finish canonical (answers edge entry)).2.mem_functions
      · intro scope member
        obtain ⟨top, f0, f1, g0, g1, h0, h1, found, positive, left, isFirst, splitF, splitG,
          splitH⟩ := splits_triple (bare_sound canonical) operandF operandG operandH
            apart.first_inner
        -- the operands have the same slots as their key, in another order
        have isFirst := isFirst.congr same
        obtain ⟨lowF, highF⟩ := splitF.from_halves canonical
        obtain ⟨lowG, highG⟩ := splitG.from_halves canonical
        obtain ⟨lowH, highH⟩ := splitH.from_halves canonical
        have descendsLow : store.Descends [condition, whenTrue, whenFalse] [f0, g0, h0] :=
          ⟨top, isFirst, List.forall_mem_cons.mpr
            ⟨lowF, List.forall_mem_cons.mpr ⟨lowG, List.forall_mem_singleton.mpr lowH⟩⟩⟩
        have descendsHigh : store.Descends [condition, whenTrue, whenFalse] [f1, g1, h1] :=
          ⟨top, isFirst, List.forall_mem_cons.mpr
            ⟨highF, List.forall_mem_cons.mpr ⟨highG, List.forall_mem_singleton.mpr highH⟩⟩⟩
        have depends := dependsOn_ifThenElse splitF.depends splitG.depends splitH.depends
        have member := normalizes.mem member
        have lower := scope.closed.cofactor _ member top depends
        apply Confined.ask_bind canonical (fun _ => rfl) found
        apply Confined.ask_bind canonical (fun _ => rfl) splitF.found
        apply Confined.ask_bind canonical (fun _ => rfl) splitG.found
        apply Confined.ask_bind canonical (fun _ => rfl) splitH.found
        have highCall : Confined steady scope (self (f1, g1, h1)) store _ :=
          onward (.refl canonical) left descendsHigh
            (.mk splitF.high splitG.high splitH.high (lower true))
        apply highCall.bind
        intro highEdge second grownHigh onHigh
        have lowCall : Confined steady scope (self (f0, g0, h0)) second _ :=
          onward grownHigh left descendsLow (.mk (splitF.low.grow grownHigh)
            (splitG.low.grow grownHigh) (splitH.low.grow grownHigh) (lower false))
        apply lowCall.bind
        intro lowEdge third grownLow onLow
        refine (join_confined grownLow.canonical positive depends onLow
          (grownLow.represents onHigh) member).bind ?_
        intro joined fourth grownJoin result
        have normalizes := normalizes.grow (grownHigh.trans (grownLow.trans grownJoin))
        have entry := iteEntry_of normalizes result
        refine (Confined.changeCaches grownJoin.canonical
          fun caches sound => sound.insertIte entry).bind ?_
        rintro _ _ _ rfl
        obtain ⟨signed, represents⟩ := normalizes.finish grownJoin.canonical result
        exact Confined.read grownJoin.canonical signed represents

theorem iteWithin_confined {fuel : Nat} {condition whenTrue whenFalse : Edge}
    {onCondition onTrue onFalse : BoolFunction} (canonical : store.Canonical)
    (operand : Operand store vars condition onCondition)
    (operandTrue : Operand store vars whenTrue onTrue)
    (operandFalse : Operand store vars whenFalse onFalse) (enough : vars.card < fuel)
    (member : ifThenElse onCondition onTrue onFalse ∈ scope.family) :
    Confined steady scope (iteWithin fuel condition whenTrue whenFalse) store
      fun edge after => after.Represents edge (ifThenElse onCondition onTrue onFalse) :=
  choosing_sinks.run_confined canonical (.mk operand operandTrue operandFalse member) enough

/-- If-then-else is worked out, whatever the caches hold. -/
theorem ite_confined {condition whenTrue whenFalse : Edge}
    {onCondition onTrue onFalse : BoolFunction} (canonical : store.Canonical)
    (represents : store.Represents condition onCondition)
    (representsTrue : store.Represents whenTrue onTrue)
    (representsFalse : store.Represents whenFalse onFalse)
    (member : ifThenElse onCondition onTrue onFalse ∈ scope.family) :
    Confined steady scope (ite condition whenTrue whenFalse) store
      fun edge after => after.Represents edge (ifThenElse onCondition onTrue onFalse) := by
  refine Confined.get_bind canonical (fun manager isBare => ?_)
    (iteWithin_confined canonical (Operand.start canonical represents)
      (Operand.start canonical representsTrue) (Operand.start canonical representsFalse)
      (card_testedVars_lt_depthBound canonical) member)
  rw [depthBound_of_bare isBare]

theorem ite_spec {condition whenTrue whenFalse : Edge} {onCondition onTrue onFalse : BoolFunction}
    (sound : before.Sound) (represents : before.store.Represents condition onCondition)
    (representsTrue : before.store.Represents whenTrue onTrue)
    (representsFalse : before.store.Represents whenFalse onFalse) :
    Constructs (ite condition whenTrue whenFalse) before
      (fun edge after => after.store.Represents edge (ifThenElse onCondition onTrue onFalse))
      allowed :=
  Confined.constructs_faultless sound (ite_confined sound.canonical represents representsTrue
    representsFalse (Scope.mem_faultless _))

/-! ## Equivalence and implication -/

/-- The function of an equivalence. -/
def equivalence (first second : BoolFunction) : BoolFunction := fun valuation =>
  first valuation == second valuation

/-- The function of an implication. -/
def implication (first second : BoolFunction) : BoolFunction := fun valuation =>
  !first valuation || second valuation

theorem equivalence_eq (first second : BoolFunction) :
    equivalence first second = fun valuation => !Connective.xor.on first second valuation := by
  funext valuation
  simp only [equivalence, Connective.on, Connective.eval]
  cases first valuation <;> cases second valuation <;> rfl

theorem iff_confined {first second : Edge} {onFirst onSecond : BoolFunction}
    (canonical : store.Canonical) (represents : store.Represents first onFirst)
    (representsSecond : store.Represents second onSecond)
    (member : equivalence onFirst onSecond ∈ scope.family) :
    Confined steady scope (iff first second) store
      fun edge after => after.Represents edge (equivalence onFirst onSecond) := by
  rw [equivalence_eq] at member ⊢
  refine (apply_confined .xor canonical represents representsSecond
    (scope.closed.of_neg member)).bind ?_
  intro edge after grown result
  exact Confined.read grown.canonical (grown.canonical.negate_eq_ok result.live) result.neg

theorem imp_confined {first second : Edge} {onFirst onSecond : BoolFunction}
    (canonical : store.Canonical) (represents : store.Represents first onFirst)
    (representsSecond : store.Represents second onSecond)
    (member : implication onFirst onSecond ∈ scope.family) :
    Confined steady scope (imp first second) store
      fun edge after => after.Represents edge (implication onFirst onSecond) := by
  apply Confined.read_bind canonical (canonical.negate_eq_ok represents.live)
  exact apply_confined .or canonical represents.neg representsSecond member

theorem iff_spec {first second : Edge} {onFirst onSecond : BoolFunction} (sound : before.Sound)
    (represents : before.store.Represents first onFirst)
    (representsSecond : before.store.Represents second onSecond) :
    Constructs (iff first second) before
      (fun edge after => after.store.Represents edge (equivalence onFirst onSecond)) allowed :=
  Confined.constructs_faultless sound (iff_confined sound.canonical represents representsSecond
    (Scope.mem_faultless _))

theorem imp_spec {first second : Edge} {onFirst onSecond : BoolFunction} (sound : before.Sound)
    (represents : before.store.Represents first onFirst)
    (representsSecond : before.store.Represents second onSecond) :
    Constructs (imp first second) before
      (fun edge after => after.store.Represents edge (implication onFirst onSecond)) allowed :=
  Confined.constructs_faultless sound (imp_confined sound.canonical represents representsSecond
    (Scope.mem_faultless _))

end Manager

end DecisionDiagram
