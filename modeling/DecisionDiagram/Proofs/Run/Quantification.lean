import Mathlib
import DecisionDiagram.Proofs.Run.Yields

/-!
# Quantified variables are gone

In every state of every run, the quantifiers ask for the values that a function has when some
variables are given all possible values, and those variables do not occur in the result. The order of
the variables and repeats do not matter. The relational product comes to the edge that the quantified
conjunction is.
-/

set_option autoImplicit false

namespace DecisionDiagram.Manager

variable {manager before : Manager} {edge first second : Edge} {vars : List Nat}
  {function : BoolFunction} {assignment : List Bool}

/-- The other assignment differs in the values of some variables only. -/
def Reassigned (vars : List Nat) (assignment other : List Bool) : Prop :=
  other.length = assignment.length ∧
    ∀ place, place + 1 ∉ vars → other[place]? = assignment[place]?

/-- What it is to make a condition on assignments a function without some of the variables. -/
structure Eliminates (before : Manager) (action : Action Edge) (operands : List Edge)
    (vars : List Nat) (condition : List Bool → Prop) : Prop where
  /-- Where an assignment covers the operands, the value of the result says whether it meets the
  condition. -/
  value : ∀ result after, action before = .ok result after → ∀ assignment,
    (∀ operand ∈ operands, Covers before.store assignment operand) →
      ∃ value, after.value result assignment = .ok value ∧ (value = true ↔ condition assignment)
  eliminates : ∀ result after, action before = .ok result after →
    ∀ var ∈ vars, ¬after.store.Tests result var
  /-- Only a full store keeps the action from returning. -/
  fault : ∀ fault after, action before = .error fault after → OutOfSpace fault after

/-! ## Values of the variables as values of an assignment -/

theorem reassigned_assignmentOf {other : Valuation}
    (outside : ∀ var ∉ {var | var ∈ vars}, other var = valuationOf assignment var) :
    Reassigned vars assignment (assignmentOf other assignment.length) := by
  refine ⟨length_assignmentOf _ _, fun place free => ?_⟩
  by_cases inside : place < assignment.length
  · have same := outside (place + 1) free
    rw [valuationOf_succ, List.getElem?_eq_getElem inside, Option.getD_some] at same
    rw [List.getElem?_eq_getElem inside, ← same]
    simp [assignmentOf, inside]
  · rw [List.getElem?_eq_none (Nat.not_lt.mp inside), List.getElem?_eq_none]
    rw [length_assignmentOf]
    exact Nat.not_lt.mp inside

/-- It is enough to change the values that an assignment has. -/
theorem quantified_valuationOf_iff
    (depends : DependsOn function {var | 0 < var ∧ var ≤ assignment.length}) :
    quantified {var | var ∈ vars} function (valuationOf assignment) = true ↔
      ∃ other, Reassigned vars assignment other ∧ function (valuationOf other) = true := by
  rw [quantified_eq_true_iff]
  constructor
  · rintro ⟨other, outside, isTrue⟩
    refine ⟨_, reassigned_assignmentOf outside, ?_⟩
    rw [← isTrue]
    exact depends fun var inside => valuationOf_assignmentOf inside.1 inside.2
  · rintro ⟨other, ⟨_, outside⟩, isTrue⟩
    -- there is no variable zero, so it has no place
    refine ⟨Function.update (valuationOf other) 0 (valuationOf assignment 0),
      fun var free => ?_, ?_⟩
    · cases var with
      | zero => rw [Function.update_self]
      | succ place =>
        rw [Function.update_of_ne (Nat.succ_ne_zero place), valuationOf_succ, valuationOf_succ,
          outside place free]
    · rw [← isTrue]
      exact depends fun var inside => Function.update_of_ne (Nat.ne_of_gt inside.1) _ _

theorem covers_of_reassigned {store : Store Node} {other : List Bool}
    (reassigned : Reassigned vars assignment other) (covers : Covers store assignment edge) :
    Covers store other edge := by
  intro var tests
  rw [reassigned.1]
  exact covers var tests

/-- Where an assignment covers an edge, its value is that of its function. -/
theorem value_eq_true_iff (canonical : manager.store.Canonical) (live : manager.store.Live edge)
    (covers : Covers manager.store assignment edge) :
    manager.value edge assignment = .ok true ↔
      manager.store.denote edge (valuationOf assignment) = true := by
  rw [value_spec canonical live.represents covers]
  exact ⟨Except.ok.inj, congrArg Except.ok⟩

/-! ## One call -/

theorem eliminates_of_constructs {action : Action Edge} {operands : List Edge} {task : Task}
    {condition : List Bool → Prop}
    (constructs : Constructs action before (fun result after => task.Done result after.store)
      fun _ => False)
    (free : DependsOn task.target {var | var ∉ vars})
    (onOperands : ∀ assignment, (∀ operand ∈ operands, Covers before.store assignment operand) →
      DependsOn task.target {var | var ≤ assignment.length} ∧
        (task.target (valuationOf assignment) = true ↔ condition assignment)) :
    Eliminates before action operands vars condition where
  value result after run assignment covers := by
    obtain ⟨grows, done⟩ := constructs.result result after run
    obtain ⟨depends, isCondition⟩ := onOperands assignment covers
    exact ⟨_, value_of_dependsOn grows.sound.canonical done.represents depends, isCondition⟩
  eliminates result after run var member tests := by
    obtain ⟨grows, done⟩ := constructs.result result after run
    exact done.represents.mem_of_tests grows.sound.canonical free tests member
  fault _ _ := constructs.outOfSpace

theorem existsVars_eliminates (sound : before.Sound) (live : before.store.Live edge)
    (nonzero : 0 ∉ vars) :
    Eliminates before (existsVars edge vars) [edge] vars fun assignment =>
      ∃ other, Reassigned vars assignment other ∧ before.value edge other = .ok true := by
  have canonical := sound.canonical
  refine eliminates_of_constructs ((existsVars_confined vars canonical live.represents
    (Task.covered_faultless nonzero)).constructs_faultless sound)
      (dependsOn_quantified_free _ _) fun assignment covered => ?_
  have covers := List.forall_mem_singleton.mp covered
  have depends := covers.dependsOn canonical live.represents
  refine ⟨dependsOn_quantified (depends.mono fun _ inside => inside.2) _, ?_⟩
  refine (quantified_valuationOf_iff depends).trans (exists_congr fun other => ?_)
  exact and_congr_right fun reassigned =>
    (value_eq_true_iff canonical live (covers_of_reassigned reassigned covers)).symm

theorem forallVars_eliminates (sound : before.Sound) (live : before.store.Live edge)
    (nonzero : 0 ∉ vars) :
    Eliminates before (forallVars edge vars) [edge] vars fun assignment =>
      ∀ other, Reassigned vars assignment other → before.value edge other = .ok true := by
  have canonical := sound.canonical
  refine eliminates_of_constructs ((forallVars_confined vars canonical live.represents
    (Task.covered_faultless nonzero)).constructs_faultless sound)
      (dependsOn_not (dependsOn_quantified_free _ _)) fun assignment covered => ?_
  have covers := List.forall_mem_singleton.mp covered
  have depends := dependsOn_not (covers.dependsOn canonical live.represents)
  refine ⟨dependsOn_not (dependsOn_quantified (depends.mono fun _ inside => inside.2) _), ?_⟩
  -- no reassignment makes the complement true
  show (!quantified {var | var ∈ vars} _ (valuationOf assignment)) = true ↔ _
  rw [Bool.not_eq_true', ← Bool.not_eq_true, quantified_valuationOf_iff depends, not_exists]
  refine forall_congr' fun other => ?_
  rw [not_and]
  refine forall_congr' fun reassigned => ?_
  rw [value_eq_true_iff canonical live (covers_of_reassigned reassigned covers), Bool.not_eq_true',
    Bool.not_eq_false]

theorem relProduct_eliminates (sound : before.Sound) (live : before.store.Live first)
    (secondLive : before.store.Live second) (nonzero : 0 ∉ vars) :
    Eliminates before (relProduct first second vars) [first, second] vars fun assignment =>
      ∃ other, Reassigned vars assignment other ∧ before.value first other = .ok true ∧
        before.value second other = .ok true := by
  have canonical := sound.canonical
  refine eliminates_of_constructs ((relProduct_confined vars canonical live.represents
    secondLive.represents (Task.covered_faultless nonzero)).constructs_faultless sound)
      (dependsOn_quantified_free _ _) fun assignment covered => ?_
  obtain ⟨covers, others⟩ := List.forall_mem_cons.mp covered
  have secondCovers := List.forall_mem_singleton.mp others
  have depends := Connective.and.dependsOn_on (covers.dependsOn canonical live.represents)
    (secondCovers.dependsOn canonical secondLive.represents)
  refine ⟨dependsOn_quantified (depends.mono fun _ inside => inside.2) _, ?_⟩
  refine (quantified_valuationOf_iff depends).trans (exists_congr fun other => ?_)
  refine and_congr_right fun reassigned => ?_
  rw [value_eq_true_iff canonical live (covers_of_reassigned reassigned covers),
    value_eq_true_iff canonical secondLive (covers_of_reassigned reassigned secondCovers)]
  exact Bool.and_eq_true_iff

/-! ## Whole runs -/

/-- **Quantifiers are exact.** They hold where some reassignment of the variables, or every one,
makes the operand true, and none of the variables occurs in the result. The set of the variables
decides: lists with the same variables are one action, and in a run they lead to one edge. -/
theorem attained_eliminates {config : Config} (attained : Attained config manager)
    (live : manager.store.Live edge) (nonzero : 0 ∉ vars) :
    Eliminates manager (existsVars edge vars) [edge] vars (fun assignment =>
      ∃ other, Reassigned vars assignment other ∧ manager.value edge other = .ok true) ∧
    Eliminates manager (forallVars edge vars) [edge] vars (fun assignment =>
      ∀ other, Reassigned vars assignment other → manager.value edge other = .ok true) ∧
    ∀ others : List Nat, (∀ var, var ∈ others ↔ var ∈ vars) →
      existsVars edge others = existsVars edge vars ∧
      forallVars edge others = forallVars edge vars ∧
      Concur (.existsVars edge others) (.existsVars edge vars) manager ∧
      Concur (.forallVars edge others) (.forallVars edge vars) manager := by
  have sound := attained.sound
  refine ⟨existsVars_eliminates sound live nonzero, forallVars_eliminates sound live nonzero, ?_⟩
  intro others same
  have sameVars : {var | var ∈ others} = {var | var ∈ vars} := Set.ext same
  have sameExists : ∀ operand, existsVars operand others = existsVars operand vars := by
    intro operand
    unfold existsVars
    rw [sortedVars_congr same]
  refine ⟨sameExists edge, ?_, ?_, ?_⟩
  · unfold forallVars
    simp only [sameExists]
  · refine @concur_of_target_eq manager (.existsVars edge others) (.existsVars edge vars) sound ?_
    intro meaning
    show quantified {var | var ∈ others} _ = quantified {var | var ∈ vars} _
    rw [sameVars]
  · refine @concur_of_target_eq manager (.forallVars edge others) (.forallVars edge vars) sound ?_
    intro meaning
    show (fun valuation => !quantified {var | var ∈ others} _ valuation) = fun valuation =>
      !quantified {var | var ∈ vars} _ valuation
    rw [sameVars]

/-- A conjunction is quantified over its first variable, which is named twice. -/
theorem eliminates_repeated_variable : ∃ manager, Attained ⟨3, 1, 1⟩ manager ∧
    Eliminates manager (existsVars ⟨3, by decide⟩ [1, 1]) [⟨3, by decide⟩] [1, 1] (fun assignment =>
      ∃ other, Reassigned [1, 1] assignment other ∧
        manager.value ⟨3, by decide⟩ other = .ok true) ∧
    Eliminates manager (forallVars ⟨3, by decide⟩ [1, 1]) [⟨3, by decide⟩] [1, 1] (fun assignment =>
      ∀ other, Reassigned [1, 1] assignment other →
        manager.value ⟨3, by decide⟩ other = .ok true) ∧
    existsVars ⟨3, by decide⟩ [1] = existsVars ⟨3, by decide⟩ [1, 1] ∧
    forallVars ⟨3, by decide⟩ [1] = forallVars ⟨3, by decide⟩ [1, 1] ∧
    Concur (.existsVars ⟨3, by decide⟩ [1]) (.existsVars ⟨3, by decide⟩ [1, 1]) manager ∧
    Concur (.forallVars ⟨3, by decide⟩ [1]) (.forallVars ⟨3, by decide⟩ [1, 1]) manager := by
  obtain ⟨onExists, onForall, onSame⟩ := @attained_eliminates twoVariables ⟨3, by decide⟩ [1, 1] _
    attained_twoVariables live_twoVariables.2 (by decide)
  exact ⟨twoVariables, attained_twoVariables, onExists, onForall, onSame [1] (by simp)⟩

/-- **The relational product is the quantified conjunction**, built at once: whenever both ways
return in one run without collections, they return the same edge. -/
theorem attained_fuses {config : Config} (attained : Attained config manager)
    (live : manager.store.Live first) (secondLive : manager.store.Live second)
    (nonzero : 0 ∉ vars) :
    Eliminates manager (relProduct first second vars) [first, second] vars (fun assignment =>
      ∃ other, Reassigned vars assignment other ∧ manager.value first other = .ok true ∧
        manager.value second other = .ok true) ∧
    ∀ calls, Uncollected calls manager → ∀ both inTwoSteps atOnce,
      Yields calls manager (.apply .and first second) both →
        Yields calls manager (.existsVars both vars) inTwoSteps →
          Yields calls manager (.relProduct first second vars) atOnce → atOnce = inTwoSteps := by
  have sound := attained.sound
  refine ⟨relProduct_eliminates sound live secondLive nonzero, ?_⟩
  intro calls run both inTwoSteps atOnce joins quantifies relates
  have onBoth := @Yields.represents _ _ _ (.apply .and first second) joins sound run
  have onResult := @Yields.represents _ _ _ (.existsVars both vars) quantifies sound run
  refine @Yields.eq_of_represents _ _ _ _ (.relProduct first second vars) relates sound run ?_
  refine onResult.congr fun valuation => ?_
  show quantified _ ((leavesAll calls manager).store.denote both) valuation = _
  rw [onBoth.denote_eq]
  rfl

/-- Both ways in one run. -/
theorem fuses_equal_operands : ∃ manager calls both inTwoSteps atOnce, Attained ⟨3, 1, 1⟩ manager ∧
    Uncollected calls manager ∧
    Yields calls manager (.apply .and ⟨3, by decide⟩ ⟨3, by decide⟩) both ∧
    Yields calls manager (.existsVars both [1, 1]) inTwoSteps ∧
    Yields calls manager (.relProduct ⟨3, by decide⟩ ⟨3, by decide⟩ [1, 1]) atOnce ∧
    atOnce = inTwoSteps := by
  have live := List.forall_mem_singleton.mpr live_twoVariables.2
  have bothLive := List.forall_mem_cons.mpr ⟨live_twoVariables.2, live⟩
  have all : ∀ step ∈ [(Call.apply .and ⟨3, by decide⟩ ⟨3, by decide⟩, ⟨3, by decide⟩),
      (.existsVars ⟨3, by decide⟩ [1, 1], ⟨2, by decide⟩),
      (.relProduct ⟨3, by decide⟩ ⟨3, by decide⟩ [1, 1], ⟨2, by decide⟩)],
      twoVariables.Finds step.1 step.2 := by
    refine List.forall_mem_cons.mpr ⟨⟨bothLive, trivial, rfl⟩, List.forall_mem_cons.mpr
      ⟨⟨live, trivial, ?_⟩, List.forall_mem_singleton.mpr ⟨bothLive, trivial, ?_⟩⟩⟩
    · cbv
    · cbv
  have run := Uncollected.of_finds all
  obtain ⟨joins, others⟩ := List.forall_mem_cons.mp (Yields.of_finds all)
  obtain ⟨quantifies, others⟩ := List.forall_mem_cons.mp others
  have relates := List.forall_mem_singleton.mp others
  exact ⟨twoVariables, _, _, _, _, attained_twoVariables, run, joins, quantifies, relates,
    (attained_fuses attained_twoVariables live_twoVariables.2 live_twoVariables.2 (by decide)).2 _
      run _ _ _ joins quantifies relates⟩

end DecisionDiagram.Manager
