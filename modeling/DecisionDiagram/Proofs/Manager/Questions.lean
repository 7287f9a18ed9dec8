import DecisionDiagram.Manager.Model
import DecisionDiagram.Proofs.Action
import DecisionDiagram.Proofs.Diagram.Represents

/-!
# Questions about live edges

Asked about edges in use, a manager with a canonical store answers, and the answers are the
cofactors, top variables and values of the functions that the edges stand for.
-/

set_option autoImplicit false

namespace DecisionDiagram

theorem Store.Canonical.negate_eq_ok {store : Store Node} {edge : Edge}
    (canonical : store.Canonical) (live : store.Live edge) : edge.negate = .ok (-edge) :=
  Edge.negate_eq_ok (canonical.index_lt live)

theorem Store.Canonical.negateIf_eq_ok {store : Store Node} {edge : Edge}
    (canonical : store.Canonical) (live : store.Live edge) (condition : Bool) :
    edge.negateIf condition = .ok (edge.flip condition) :=
  Edge.negateIf_eq_ok condition (canonical.index_lt live)

theorem Edge.isTerminal_iff {edge : Edge} : edge.isTerminal = true ↔ edge.index = 1 :=
  beq_iff_eq

namespace Manager

variable {manager : Manager} {edge : Edge} {node : Node} {function : BoolFunction}

theorem var_eq_ok (held : manager.store.contents edge.index = some node) :
    manager.var edge.index = .ok node.var := by
  unfold var
  rw [Store.value_eq_ok held]
  rfl

theorem low_eq_ok (held : manager.store.contents edge.index = some node) :
    manager.low edge.index = .ok node.low := by
  unfold low
  rw [Store.value_eq_ok held]
  rfl

theorem high_eq_ok (held : manager.store.contents edge.index = some node) :
    manager.high edge.index = .ok node.high := by
  unfold high
  rw [Store.value_eq_ok held]
  rfl

theorem lowOf_eq_ok (canonical : manager.store.Canonical)
    (held : manager.store.contents edge.index = some node) :
    manager.lowOf edge = .ok ((node.child false).flip edge.isNegated) := by
  have live : manager.store.Live node.low := canonical.child_live ⟨node, held, Or.inl rfl⟩
  unfold lowOf
  rw [low_eq_ok held]
  exact canonical.negateIf_eq_ok live _

theorem highOf_eq_ok (canonical : manager.store.Canonical)
    (held : manager.store.contents edge.index = some node) :
    manager.highOf edge = .ok ((node.child true).flip edge.isNegated) := by
  have live : manager.store.Live node.high := canonical.child_live ⟨node, held, Or.inr rfl⟩
  unfold highOf
  rw [high_eq_ok held]
  exact canonical.negateIf_eq_ok live _

theorem cofactors_later {var : Nat} (positive : var ≠ 0)
    (later : manager.store.From (var + 1) edge) : manager.cofactors edge var = .ok (edge, edge) := by
  obtain ⟨node, held, tests⟩ := later
  unfold cofactors
  rw [if_neg positive]
  cases terminal : edge.isTerminal with
  | true => rfl
  | false =>
    have inner : edge.index ≠ 1 := fun ends => by
      rw [Edge.isTerminal_iff.mpr ends] at terminal
      cases terminal
    have below : var < node.var := tests.resolve_left inner
    simp only [Bool.false_eq_true, if_false, var_eq_ok held]
    show (if var < node.var then _ else _) = _
    rw [if_pos below]
    rfl

theorem cofactors_top (canonical : manager.store.Canonical)
    (held : manager.store.contents edge.index = some node) (inner : edge.index ≠ 1) :
    manager.cofactors edge node.var = .ok ((node.child false).flip edge.isNegated,
      (node.child true).flip edge.isNegated) := by
  have positive := (canonical.normal _ node held inner).var_pos
  have notTerminal : edge.isTerminal = false :=
    Bool.eq_false_iff.mpr fun ends => inner (Edge.isTerminal_iff.mp ends)
  unfold cofactors
  rw [if_neg (Nat.ne_of_gt positive)]
  simp only [notTerminal, Bool.false_eq_true, if_false, var_eq_ok held,
    lowOf_eq_ok canonical held, highOf_eq_ok canonical held]
  show (if node.var < node.var then _ else if node.var = node.var then _ else _) = _
  rw [if_neg (Nat.lt_irrefl _), if_pos rfl]
  rfl

theorem cofactors_spec (canonical : manager.store.Canonical) {var : Nat} (positive : var ≠ 0)
    (represents : manager.store.Represents edge function)
    (depends : DependsOn function (Set.Ici var)) :
    ∃ low high, manager.cofactors edge var = .ok (low, high) ∧
      manager.store.Represents low (cofactor function var false) ∧
      manager.store.Represents high (cofactor function var true) := by
  rcases represents.top_or_later canonical depends with ⟨node, held, inner, rfl⟩ | later
  · exact ⟨_, _, cofactors_top canonical held inner, represents.child canonical held inner false,
      represents.child canonical held inner true⟩
  · have unchanged := represents.cofactor_of_later canonical later
    refine ⟨edge, edge, cofactors_later positive later, ?_, ?_⟩
    · rw [unchanged]
      exact represents
    · rw [unchanged]
      exact represents

/-- The smallest variable at the top of some edges: none of them tests an earlier one, and if one
of them is not constant, some function depends on it. -/
theorem topVar_spec {edges : List Edge}
    (live : ∀ edge ∈ edges, manager.store.Live edge) :
    ∃ top, manager.topVar edges = .ok top ∧ (∀ edge ∈ edges, manager.store.From top edge) ∧
      ((∃ edge ∈ edges, edge.index ≠ 1) → ∃ edge ∈ edges, ∃ node,
        manager.store.contents edge.index = some node ∧ edge.index ≠ 1 ∧ node.var = top) := by
  have chosen : ∀ edge ∈ edges, ∃ node, manager.store.contents edge.index = some node := live
  let varOf : Edge → Nat := fun edge => (manager.store.contents edge.index).elim 0 Node.var
  have vars : (edges.filter fun edge => !edge.isTerminal).mapM
      (fun edge => manager.var edge.index) =
        .ok ((edges.filter fun edge => !edge.isTerminal).map varOf) := by
    refine mapM_eq_ok _ fun edge member => ?_
    obtain ⟨node, held⟩ := chosen edge (List.mem_filter.mp member).1
    simp only [varOf, held, Option.elim_some, var_eq_ok held]
  have inner : ∀ edge, edge ∈ edges.filter (fun edge => !edge.isTerminal) ↔
      edge ∈ edges ∧ edge.index ≠ 1 := by
    intro edge
    simp only [List.mem_filter, Edge.isTerminal, Bool.not_eq_true', beq_eq_false_iff_ne]
  refine ⟨_, by
    unfold topVar
    rw [vars]
    rfl, ?_, ?_⟩
  · intro edge member
    obtain ⟨node, held⟩ := chosen edge member
    refine ⟨node, held, ?_⟩
    by_cases terminal : edge.index = 1
    · exact Or.inl terminal
    · have known : node.var ∈ (edges.filter fun edge => !edge.isTerminal).map varOf := by
        refine List.mem_map.mpr ⟨edge, (inner edge).mpr ⟨member, terminal⟩, ?_⟩
        simp only [varOf, held, Option.elim_some]
      obtain ⟨smallest, found⟩ := Option.isSome_iff_exists.mp (List.isSome_min?_of_mem known)
      rw [found, Option.getD_some]
      exact Or.inr ((List.min?_eq_some_iff.mp found).2 _ known)
  · rintro ⟨edge, member, notTerminal⟩
    have known : varOf edge ∈ (edges.filter fun edge => !edge.isTerminal).map varOf :=
      List.mem_map.mpr ⟨edge, (inner edge).mpr ⟨member, notTerminal⟩, rfl⟩
    obtain ⟨smallest, found⟩ := Option.isSome_iff_exists.mp (List.isSome_min?_of_mem known)
    obtain ⟨top, topMember, same⟩ := List.mem_map.mp (List.min?_eq_some_iff.mp found).1
    obtain ⟨topKnown, topInner⟩ := (inner top).mp topMember
    obtain ⟨node, held⟩ := chosen top topKnown
    refine ⟨top, topKnown, node, held, topInner, ?_⟩
    rw [found, Option.getD_some, ← same]
    simp only [varOf, held, Option.elim_some]

/-! ## Values -/

/-- The valuation that a list of values stands for. -/
def valuationOf (assignment : List Bool) : Valuation := fun var => assignment.getD (var - 1) false

theorem valuationOf_succ (assignment : List Bool) (place : Nat) :
    valuationOf assignment (place + 1) = assignment[place]?.getD false := by
  rw [valuationOf, Nat.add_sub_cancel, List.getD_eq_getElem?_getD]

/-- The assignment has a value for every variable below the edge. -/
def Covers (store : Store Node) (assignment : List Bool) (edge : Edge) : Prop :=
  ∀ var, store.Tests edge var → var ≤ assignment.length

theorem covers_of_length {store : Store Node} {assignment : List Bool} {count : Nat}
    (within : ∀ var, store.Tests edge var → var ≤ count) (isLong : assignment.length = count) :
    Covers store assignment edge := by
  intro var tests
  rw [isLong]
  exact within var tests

/-- What an assignment has to cover is a matter of the function, not of the diagram. -/
theorem covers_iff_dependsOn {store : Store Node} (canonical : store.Canonical)
    (represents : store.Represents edge function) {assignment : List Bool} :
    Covers store assignment edge ↔ DependsOn function {var | var ≤ assignment.length} := by
  rw [← represents.denote_eq]
  constructor
  · exact fun covers => (canonical.dependsOn_tests represents.live).mono fun var => covers var
  · intro depends var tests
    have member := canonical.mem_of_tests represents.live depends tests
    exact member

/-- The variables of a function that an assignment covers are those with a place in it. -/
theorem Covers.dependsOn {store : Store Node} (canonical : store.Canonical)
    (represents : store.Represents edge function) {assignment : List Bool}
    (covers : Covers store assignment edge) :
    DependsOn function {var | 0 < var ∧ var ≤ assignment.length} := by
  rw [← represents.denote_eq]
  exact (canonical.dependsOn_tests represents.live).mono fun var tests =>
    ⟨canonical.tests_pos tests, covers var tests⟩

/-- A descent is shorter than the bound on the nesting of operations. -/
theorem rank_lt_depthBound (canonical : manager.store.Canonical) (index : Nat) :
    manager.store.rank index < manager.depthBound := by
  have small := Store.rank_le manager.store index
  have bound := Store.card_testedVars_le canonical.allotted
  unfold depthBound
  omega

/-- An edge whose function is made of the functions of some operands needs no other variables. -/
theorem covers_of_operands {store after : Store Node} (canonical : store.Canonical)
    (afterCanonical : after.Canonical) {operands : List Edge} {combine : (Edge → Bool) → Bool}
    (onOperands : ∀ left right : Edge → Bool,
      (∀ operand ∈ operands, left operand = right operand) → combine left = combine right)
    (represents : after.Represents edge fun valuation =>
      combine fun operand => store.denote operand valuation)
    {assignment : List Bool} (live : ∀ operand ∈ operands, store.Live operand)
    (covers : ∀ operand ∈ operands, Covers store assignment operand) :
    Covers after assignment edge := by
  apply (covers_iff_dependsOn afterCanonical represents).mpr
  intro left right agree
  apply onOperands
  intro operand member
  exact (covers_iff_dependsOn canonical (live operand member).represents).mp
    (covers operand member) agree

theorem valueWithin_terminal (assignment : List Bool) (fuel : Nat) (terminal : edge.index = 1) :
    manager.valueWithin assignment (fuel + 1) edge = .ok !edge.isNegated := by
  have sign : decide (edge = .one) = !edge.isNegated := by
    cases negated : edge.isNegated with
    | false => exact decide_eq_true (Edge.eq_of_index_of_isNegated terminal negated)
    | true =>
      refine decide_eq_false fun same => ?_
      rw [same] at negated
      cases negated
  rw [valueWithin, valueStep, if_pos (Edge.isTerminal_iff.mpr terminal), ← sign]
  rfl

/-- The variables of inner nodes count from one, so each has a place. -/
theorem position_eq_ok (canonical : manager.store.Canonical)
    (held : manager.store.contents edge.index = some node) (inner : edge.index ≠ 1) :
    position node.var = .ok (node.var - 1) :=
  if_neg (Nat.ne_of_gt (canonical.normal _ node held inner).var_pos)

theorem valueWithin_inner (canonical : manager.store.Canonical) {assignment : List Bool}
    {value : Bool} (fuel : Nat) (held : manager.store.contents edge.index = some node)
    (inner : edge.index ≠ 1) (chosen : assignment[node.var - 1]? = some value) :
    manager.valueWithin assignment (fuel + 1) edge =
      manager.valueWithin assignment fuel ((node.child value).flip edge.isNegated) := by
  rw [valueWithin, valueStep, if_neg fun ends => inner (Edge.isTerminal_iff.mp ends)]
  simp only [var_eq_ok held, position_eq_ok canonical held inner, chosen, answer_bind]
  cases value with
  | true => simp only [highOf_eq_ok canonical held, answer_bind]
  | false => simp only [lowOf_eq_ok canonical held, answer_bind]

theorem valueWithin_spec (canonical : manager.store.Canonical) {assignment : List Bool}
    {fuel : Nat} (live : manager.store.Live edge)
    (covers : Covers manager.store assignment edge)
    (enough : manager.store.rank edge.index < fuel) :
    manager.valueWithin assignment fuel edge =
      .ok (manager.store.denote edge (valuationOf assignment)) := by
  induction fuel generalizing edge with
  | zero => exact absurd enough (Nat.not_lt_zero _)
  | succ fuel ih =>
    obtain ⟨node, held⟩ := live
    by_cases terminal : edge.index = 1
    · rw [valueWithin_terminal assignment fuel terminal]
      simp only [Store.denote, terminal, canonical.slotValue_terminal, Bool.xor_true]
    · have positive := (canonical.normal _ node held terminal).var_pos
      have inside : node.var - 1 < assignment.length := by
        have := covers node.var (Store.tests_top held terminal)
        omega
      have chosen : assignment[node.var - 1]? = some (valuationOf assignment node.var) := by
        unfold valuationOf
        rw [List.getD_eq_getElem?_getD, List.getElem?_eq_getElem inside, Option.getD_some]
      have above := ((canonical.normal _ node held terminal).child_from
        (valuationOf assignment node.var)).flip edge.isNegated
      have lower := Store.rank_lt_of_from held terminal above
      have covered : Covers manager.store assignment
          ((node.child (valuationOf assignment node.var)).flip edge.isNegated) :=
        fun var tests => covers var (tests.of_child held)
      rw [valueWithin_inner canonical fuel held terminal chosen, ih above.live covered (by omega),
        canonical.denote_follow held, Store.denote_flip]
      rfl

/-- Asked for a value under an assignment that covers its variables, an edge has the value of its
function. -/
theorem value_spec (canonical : manager.store.Canonical) {assignment : List Bool}
    (represents : manager.store.Represents edge function)
    (covers : Covers manager.store assignment edge) :
    manager.value edge assignment = .ok (function (valuationOf assignment)) := by
  rw [← represents.denote_eq]
  exact valueWithin_spec canonical represents.live covers (rank_lt_depthBound canonical _)

theorem value_of_dependsOn (canonical : manager.store.Canonical) {assignment : List Bool}
    (represents : manager.store.Represents edge function)
    (depends : DependsOn function {var | var ≤ assignment.length}) :
    manager.value edge assignment = .ok (function (valuationOf assignment)) :=
  value_spec canonical represents ((covers_iff_dependsOn canonical represents).mpr depends)

/-- Where the slots below an edge are the same, descents that are deep enough end in the same value
or the same fault. -/
theorem valueWithin_eq_of_agree {other : Manager} (canonical : manager.store.Canonical)
    (otherCanonical : other.store.Canonical) (agree : manager.store.AgreeBelow other.store edge)
    (live : manager.store.Live edge) (assignment : List Bool) {fuel otherFuel : Nat}
    (enough : manager.store.rank edge.index < fuel)
    (otherEnough : manager.store.rank edge.index < otherFuel) :
    other.valueWithin assignment otherFuel edge = manager.valueWithin assignment fuel edge := by
  induction fuel generalizing edge otherFuel with
  | zero => exact absurd enough (Nat.not_lt_zero _)
  | succ fuel ih =>
    obtain ⟨otherFuel, rfl⟩ := Nat.exists_eq_succ_of_ne_zero (show otherFuel ≠ 0 by omega)
    obtain ⟨node, held⟩ := live
    by_cases terminal : edge.index = 1
    · rw [valueWithin_terminal assignment fuel terminal,
        valueWithin_terminal assignment otherFuel terminal]
    · have otherHeld : other.store.contents edge.index = some node :=
        (agree _ Relation.ReflTransGen.refl).trans held
      have onChild : ∀ value,
          other.valueWithin assignment otherFuel ((node.child value).flip edge.isNegated) =
            manager.valueWithin assignment fuel ((node.child value).flip edge.isNegated) := by
        intro value
        have above := ((canonical.normal _ node held terminal).child_from value).flip edge.isNegated
        have lower := Store.rank_lt_of_from held terminal above
        have below : manager.store.AgreeBelow other.store
            ((node.child value).flip edge.isNegated) := by
          intro index reaches
          rw [Edge.index_flip] at reaches
          exact agree index (Relation.ReflTransGen.head (Store.child_child held value) reaches)
        exact ih below above.live (by omega) (by omega)
      simp only [valueWithin, valueStep, var_eq_ok held, var_eq_ok otherHeld, lowOf_eq_ok canonical held,
        lowOf_eq_ok otherCanonical otherHeld, highOf_eq_ok canonical held,
        highOf_eq_ok otherCanonical otherHeld, answer_bind, onChild]

theorem value_eq_of_agree {other : Manager} (canonical : manager.store.Canonical)
    (otherCanonical : other.store.Canonical) (agree : manager.store.AgreeBelow other.store edge)
    (sameRoom : manager.store.lastUsed ≤ other.store.lastUsed) (live : manager.store.Live edge)
    (assignment : List Bool) : other.value edge assignment = manager.value edge assignment := by
  have enough := rank_lt_depthBound canonical edge.index
  apply valueWithin_eq_of_agree canonical otherCanonical agree live assignment enough
  unfold depthBound at enough ⊢
  omega

/-! ## Assignments and valuations -/

/-- The values of the first variables. -/
def assignmentOf (valuation : Valuation) (count : Nat) : List Bool :=
  (List.range count).map fun place => valuation (place + 1)

theorem length_assignmentOf (valuation : Valuation) (count : Nat) :
    (assignmentOf valuation count).length = count := by
  simp [assignmentOf]

theorem valuationOf_assignmentOf {valuation : Valuation} {count var : Nat} (positive : 0 < var)
    (inside : var ≤ count) : valuationOf (assignmentOf valuation count) var = valuation var := by
  have place : var - 1 < count := by omega
  have next : var - 1 + 1 = var := by omega
  simp [valuationOf, assignmentOf, place, next]

theorem assignmentOf_congr {first second : Valuation} {count : Nat}
    (agree : ∀ var, 0 < var → var ≤ count → first var = second var) :
    assignmentOf first count = assignmentOf second count := by
  apply List.map_congr_left
  intro place inside
  exact agree (place + 1) (Nat.succ_pos place) (List.mem_range.mp inside)

theorem assignmentOf_valuationOf (assignment : List Bool) :
    assignmentOf (valuationOf assignment) assignment.length = assignment := by
  apply List.ext_getElem (length_assignmentOf _ _)
  intro place _ inside
  simp [assignmentOf, valuationOf, inside]

theorem covers_assignmentOf (valuation : Valuation) {store : Store Node} {count : Nat}
    (bound : ∀ var ∈ store.testedVars, var ≤ count) (edge : Edge) :
    Covers store (assignmentOf valuation count) edge := by
  intro var tests
  rw [length_assignmentOf]
  exact bound var (Store.Canonical.tests_mem_testedVars tests)

theorem denote_assignmentOf {store : Store Node} (canonical : store.Canonical) {valuation : Valuation}
    {count : Nat} (bound : ∀ var ∈ store.testedVars, var ≤ count) (live : store.Live edge) :
    store.denote edge (valuationOf (assignmentOf valuation count)) = store.denote edge valuation := by
  refine canonical.dependsOn_tests live fun var tests => ?_
  exact valuationOf_assignmentOf (canonical.tests_pos tests)
    (bound var (Store.Canonical.tests_mem_testedVars tests))

/-- The value of an edge with one variable set. -/
theorem value_set (canonical : manager.store.Canonical) {assignment : List Bool} {var : Nat}
    (represents : manager.store.Represents edge function) (positive : var ≠ 0)
    (covers : Covers manager.store assignment edge) (value : Bool) :
    manager.value edge (assignment.set (var - 1) value) =
      .ok (function (Function.update (valuationOf assignment) var value)) := by
  have stillCovers : Covers manager.store (assignment.set (var - 1) value) edge := by
    intro other tests
    rw [List.length_set]
    exact covers other tests
  rw [value_spec canonical represents stillCovers, ← represents.denote_eq]
  refine congrArg Except.ok (canonical.dependsOn_tests represents.live fun other tests => ?_)
  have inside := covers other tests
  have notZero := canonical.tests_pos tests
  unfold valuationOf
  by_cases same : other = var
  · have place : var - 1 < assignment.length := by omega
    rw [same, Function.update_self, List.getD_eq_getElem?_getD, List.getElem?_set_self place,
      Option.getD_some]
  · have elsewhere : var - 1 ≠ other - 1 := by omega
    rw [Function.update_of_ne same, List.getD_eq_getElem?_getD, List.getElem?_set_ne elsewhere,
      List.getD_eq_getElem?_getD]

/-- Two edges, perhaps of different managers, have the same value under every assignment that covers
both. -/
def SameFunction (first : Manager) (edge : Edge) (second : Manager) (other : Edge) : Prop :=
  ∀ assignment, Covers first.store assignment edge → Covers second.store assignment other →
    ∃ value, first.value edge assignment = .ok value ∧ second.value other assignment = .ok value

theorem sameFunction_iff {first second : Manager} {other : Edge} (canonical : first.store.Canonical)
    (secondCanonical : second.store.Canonical) (live : first.store.Live edge)
    (otherLive : second.store.Live other) :
    SameFunction first edge second other ↔ first.store.denote edge = second.store.denote other := by
  constructor
  · intro same
    obtain ⟨count, within⟩ :=
      (first.store.testedVars ∪ second.store.testedVars).exists_nat_subset_range
    have bound : ∀ var ∈ first.store.testedVars ∪ second.store.testedVars, var ≤ count :=
      fun var member => Nat.le_of_lt (Finset.mem_range.mp (within member))
    have firstBound : ∀ var ∈ first.store.testedVars, var ≤ count := fun var member =>
      bound var (Finset.mem_union_left _ member)
    have secondBound : ∀ var ∈ second.store.testedVars, var ≤ count := fun var member =>
      bound var (Finset.mem_union_right _ member)
    funext valuation
    have covers := covers_assignmentOf valuation firstBound edge
    have otherCovers := covers_assignmentOf valuation secondBound other
    obtain ⟨value, isValue, isSame⟩ := same _ covers otherCovers
    rw [value_spec canonical live.represents covers,
      denote_assignmentOf canonical firstBound live] at isValue
    rw [value_spec secondCanonical otherLive.represents otherCovers,
      denote_assignmentOf secondCanonical secondBound otherLive] at isSame
    exact Except.ok.inj (isValue.trans isSame.symm)
  · intro same assignment covers otherCovers
    refine ⟨_, value_spec canonical live.represents covers, ?_⟩
    rw [same]
    exact value_spec secondCanonical otherLive.represents otherCovers

/-- Edges with the same values under all assignments that cover them are equal. -/
theorem eq_of_value_eq (canonical : manager.store.Canonical) {first second : Edge}
    (live : manager.store.Live first) (secondLive : manager.store.Live second)
    (same : ∀ assignment, Covers manager.store assignment first →
      Covers manager.store assignment second →
        manager.value first assignment = manager.value second assignment) : first = second := by
  refine canonical.eq_of_denote_eq live secondLive
    ((sameFunction_iff canonical canonical live secondLive).mp fun assignment covers otherCovers => ?_)
  refine ⟨_, value_spec canonical live.represents covers, ?_⟩
  rw [← same assignment covers otherCovers]
  exact value_spec canonical live.represents covers

end Manager

end DecisionDiagram
