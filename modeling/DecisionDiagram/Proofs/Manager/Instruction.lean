import DecisionDiagram.Manager.Call
import DecisionDiagram.Proofs.Manager.Cube
import DecisionDiagram.Proofs.Manager.Join
import DecisionDiagram.Proofs.Manager.Quantify
import DecisionDiagram.Proofs.Manager.Replace
import DecisionDiagram.Proofs.Manager.WeightedSum

/-!
# Calls that make one function of others

An instruction is such a call with operands of any kind: edges, the functions that they stand for, or
the registers of a program. What an instruction has to come to is a task that its functions determine.
-/

set_option autoImplicit false

namespace DecisionDiagram

inductive Instruction (Operand : Type) where
  | node (var : Nat) (low high : Operand)
  | literal (number : Int)
  | cube (literals : List Int)
  | clause (literals : List Int)
  | apply (connective : Connective) (first second : Operand)
  | iff (first second : Operand)
  | imp (first second : Operand)
  | ite (condition whenTrue whenFalse : Operand)
  | andAll (operands : List Operand)
  | orAll (operands : List Operand)
  | compose (operand : Operand) (var : Nat) (replacement : Operand)
  | substitute (operand : Operand) (var : Nat) (replacement : Operand)
  | restrict (operand : Operand) (var : Nat) (value : Bool)
  | restrictMany (operand : Operand) (values : Std.HashMap Nat Bool)
  | existsVars (operand : Operand) (vars : List Nat)
  | forallVars (operand : Operand) (vars : List Nat)
  | relProduct (first second : Operand) (vars : List Nat)
  | weightedSum (comparison : Comparison) (weights literals : List Int) (bound : Int)

namespace Instruction

variable {First Second Third : Type}

def operands : Instruction First → List First
  | node _ low high => [low, high]
  | apply _ first second => [first, second]
  | iff first second => [first, second]
  | imp first second => [first, second]
  | ite condition whenTrue whenFalse => [condition, whenTrue, whenFalse]
  | andAll operands => operands
  | orAll operands => operands
  | compose operand _ replacement => [operand, replacement]
  | substitute operand _ replacement => [operand, replacement]
  | restrict operand _ _ => [operand]
  | restrictMany operand _ => [operand]
  | existsVars operand _ => [operand]
  | forallVars operand _ => [operand]
  | relProduct first second _ => [first, second]
  | literal _ | cube _ | clause _ | weightedSum _ _ _ _ => []

def map (change : First → Second) : Instruction First → Instruction Second
  | node var low high => node var (change low) (change high)
  | literal number => literal number
  | cube literals => cube literals
  | clause literals => clause literals
  | apply connective first second => apply connective (change first) (change second)
  | iff first second => iff (change first) (change second)
  | imp first second => imp (change first) (change second)
  | ite condition whenTrue whenFalse =>
    ite (change condition) (change whenTrue) (change whenFalse)
  | andAll operands => andAll (operands.map change)
  | orAll operands => orAll (operands.map change)
  | compose operand var replacement => compose (change operand) var (change replacement)
  | substitute operand var replacement => substitute (change operand) var (change replacement)
  | restrict operand var value => restrict (change operand) var value
  | restrictMany operand values => restrictMany (change operand) values
  | existsVars operand vars => existsVars (change operand) vars
  | forallVars operand vars => forallVars (change operand) vars
  | relProduct first second vars => relProduct (change first) (change second) vars
  | weightedSum comparison weights literals bound => weightedSum comparison weights literals bound

theorem map_map (first : First → Second) (second : Second → Third)
    (instruction : Instruction First) :
    (instruction.map first).map second = instruction.map (second ∘ first) := by
  cases instruction <;> simp [map]

theorem operands_map (change : First → Second) (instruction : Instruction First) :
    (instruction.map change).operands = instruction.operands.map change := by
  cases instruction <;> rfl

theorem forall_operands_map {change : First → Second} {instruction : Instruction First}
    {property : Second → Prop}
    (each : ∀ operand ∈ instruction.operands, property (change operand)) :
    ∀ operand ∈ (instruction.map change).operands, property operand := by
  intro operand member
  rw [operands_map] at member
  obtain ⟨source, isSource, rfl⟩ := List.mem_map.mp member
  exact each source isSource

/-- Only the operands of an instruction are changed. -/
theorem map_congr {change other : First → Second} {instruction : Instruction First}
    (agree : ∀ operand ∈ instruction.operands, change operand = other operand) :
    instruction.map change = instruction.map other := by
  cases instruction <;> simp_all [map, operands]

/-- The call that an instruction about edges is. -/
def call : Instruction Edge → Call
  | node var low high => .node var low high
  | literal number => .literal number
  | cube literals => .cube literals
  | clause literals => .clause literals
  | apply connective first second => .apply connective first second
  | iff first second => .iff first second
  | imp first second => .imp first second
  | ite condition whenTrue whenFalse => .ite condition whenTrue whenFalse
  | andAll edges => .andAll edges
  | orAll edges => .orAll edges
  | compose edge var replacement => .compose edge var replacement
  | substitute edge var replacement => .substitute edge var replacement
  | restrict edge var value => .restrict edge var value
  | restrictMany edge values => .restrictMany edge values
  | existsVars edge vars => .existsVars edge vars
  | forallVars edge vars => .forallVars edge vars
  | relProduct first second vars => .relProduct first second vars
  | weightedSum comparison weights literals bound => .weightedSum comparison weights literals bound

open Manager

/-- Joining literals, which some lists of numbers are not. -/
def literalsTask (absorbing : Bool) (literals : List Int) : Task :=
  .given (∃ outcome, sortedLiterals literals = .ok outcome) (junction absorbing literals)

/-- The task of an instruction about functions. -/
noncomputable def task : Instruction BoolFunction → Task
  | node var low high => .given (Fits var high low) (branch var high low)
  | literal number => .given (Literal number) (literalFunction number)
  | cube literals => literalsTask false literals
  | clause literals => literalsTask true literals
  | apply connective first second => .of (connective.on first second)
  | iff first second => .of (equivalence first second)
  | imp first second => .of (implication first second)
  | ite condition whenTrue whenFalse => .of (ifThenElse condition whenTrue whenFalse)
  | andAll functions => joinTask .and (fun _ => true) functions
  | orAll functions => joinTask .or (fun _ => false) functions
  | compose function var replacement => composeTask var function replacement
  | substitute function var replacement => substituteTask var function replacement
  | restrict function var value => restrictTask var value function
  | restrictMany function values => .of (fixed values function)
  | existsVars function vars => existsVarsTask vars function
  | forallVars function vars => forallVarsTask vars function
  | relProduct first second vars => relProductTask vars first second
  | weightedSum comparison weights literals bound => weightedSumTask comparison weights literals bound

/-! ## Carrying out an instruction -/

section

variable {scope : Scope} {store : Store Node}

/-- The answer is one edge, with the task done. -/
def Answers (task : Task) (answer : Answer) (store : Store Node) : Prop :=
  ∃ edge, answer = .edges [edge] ∧ task.Done edge store

theorem answers_confined {action : Manager.Action Edge} {task : Task}
    (confined : Confined steady scope action store task.Done) :
    Confined steady scope (action >>= fun edge => pure (.edges [edge])) store (Answers task) :=
  confined.bind fun edge _ grown done => Confined.pure grown.canonical ⟨edge, rfl, done⟩

/-- An operation with nothing to remember on the way. -/
theorem given_confined {action : Manager.Action Edge} {proper : Prop} {target : BoolFunction}
    (confined : Confined steady scope action store
      fun edge after => proper ∧ after.Represents edge target) :
    Confined steady scope (action >>= fun edge => pure (.edges [edge])) store
      (Answers (.given proper target)) :=
  answers_confined (confined.weaken fun _ _ _ done => Task.done_given done.1 done.2)

theorem of_confined {action : Manager.Action Edge} {target : BoolFunction}
    (confined : Confined steady scope action store
      fun edge after => after.Represents edge target) :
    Confined steady scope (action >>= fun edge => pure (.edges [edge])) store
      (Answers (.of target)) :=
  answers_confined (confined.weaken fun _ _ _ represents => Task.done_of represents)

theorem literals_confined (absorbing : Bool) (literals : List Int) (canonical : store.Canonical)
    (covered : (literalsTask absorbing literals).Covered scope) :
    Confined steady scope (joinLiterals absorbing literals) store
      fun edge after => (∃ outcome, sortedLiterals literals = .ok outcome) ∧
        after.Represents edge (junction absorbing literals) := by
  refine joinLiterals_confined absorbing literals canonical (fun _ _ => covered.mem) ?_
  intro fault failed
  refine covered.allows ?_ fault
  rintro ⟨outcome, answer⟩
  rw [failed] at answer
  cases answer

theorem literals_repeatable (absorbing : Bool) (literals : List Int) (canonical : store.Canonical)
    (covered : (literalsTask absorbing literals).Covered scope) :
    Repeatable scope (joinLiterals absorbing literals) store
      (literalsTask absorbing literals).Done := by
  refine Repeatable.of_task canonical covered fun scope later grown covered => ?_
  exact (literals_confined absorbing literals grown.canonical covered).weaken
    fun _ _ _ done => Task.done_given done.1 done.2

theorem forall₂_denote {edges : List Edge} (live : ∀ edge ∈ edges, store.Live edge) :
    List.Forall₂ store.Represents edges (edges.map store.denote) := by
  induction edges with
  | nil => exact .nil
  | cons edge rest ih =>
    obtain ⟨here, others⟩ := List.forall_mem_cons.mp live
    exact .cons here.represents (ih others)

theorem represents_pair {first second : Edge} (live : ∀ edge ∈ [first, second], store.Live edge) :
    store.Represents first (store.denote first) ∧ store.Represents second (store.denote second) := by
  obtain ⟨onFirst, others⟩ := List.forall_mem_cons.mp live
  exact ⟨onFirst.represents, (List.forall_mem_singleton.mp others).represents⟩

/-- An instruction about live edges does the task of their functions. -/
theorem perform_confined (instruction : Instruction Edge) (canonical : store.Canonical)
    (live : ∀ edge ∈ instruction.operands, store.Live edge)
    (covered : (instruction.map store.denote).task.Covered scope) :
    Confined steady scope instruction.call.perform store
      (Answers (instruction.map store.denote).task) := by
  have single : ∀ {edge : Edge}, (∀ other ∈ [edge], store.Live other) →
      store.Represents edge (store.denote edge) := fun live =>
    (List.forall_mem_singleton.mp live).represents
  cases instruction with
  | node var low high =>
    obtain ⟨onLow, onHigh⟩ := represents_pair live
    exact given_confined (node_confined canonical var onLow onHigh (fun _ => covered.mem) covered.allows)
  | literal number =>
    exact given_confined (literal_confined canonical number (fun _ => covered.mem) covered.allows)
  | cube literals =>
    have built := literals_confined false literals canonical covered
    rw [← cube_eq] at built
    exact given_confined built
  | clause literals =>
    have built := literals_confined true literals canonical covered
    rw [← clause_eq] at built
    exact given_confined built
  | apply connective first second =>
    obtain ⟨onFirst, onSecond⟩ := represents_pair live
    exact of_confined (apply_confined connective canonical onFirst onSecond covered.mem)
  | iff first second =>
    obtain ⟨onFirst, onSecond⟩ := represents_pair live
    exact of_confined (iff_confined canonical onFirst onSecond covered.mem)
  | imp first second =>
    obtain ⟨onFirst, onSecond⟩ := represents_pair live
    exact of_confined (imp_confined canonical onFirst onSecond covered.mem)
  | ite condition whenTrue whenFalse =>
    obtain ⟨onCondition, others⟩ := List.forall_mem_cons.mp live
    obtain ⟨onTrue, onFalse⟩ := represents_pair others
    exact of_confined (ite_confined canonical onCondition.represents onTrue onFalse covered.mem)
  | andAll edges => exact answers_confined (andAll_confined canonical (forall₂_denote live) covered)
  | orAll edges => exact answers_confined (orAll_confined canonical (forall₂_denote live) covered)
  | compose edge var replacement =>
    obtain ⟨onEdge, onReplacement⟩ := represents_pair live
    exact answers_confined (compose_confined var canonical onEdge onReplacement covered)
  | substitute edge var replacement =>
    obtain ⟨onEdge, onReplacement⟩ := represents_pair live
    exact answers_confined (substitute_confined var canonical onEdge onReplacement covered)
  | restrict edge var value =>
    exact answers_confined (restrict_confined var value canonical (single live) covered)
  | restrictMany edge values =>
    exact answers_confined (restrictMany_confined values canonical (single live) covered)
  | existsVars edge vars =>
    exact answers_confined (existsVars_confined vars canonical (single live) covered)
  | forallVars edge vars =>
    exact answers_confined (forallVars_confined vars canonical (single live) covered)
  | relProduct first second vars =>
    obtain ⟨onFirst, onSecond⟩ := represents_pair live
    exact answers_confined (relProduct_confined vars canonical onFirst onSecond covered)
  | weightedSum comparison weights literals bound =>
    exact answers_confined (weightedSum_confined comparison weights literals bound canonical covered)

/-- What the functions of live edges come to is the same while the store grows. -/
theorem map_denote_eq {instruction : Instruction Edge} {later : Store Node}
    (grown : store.Grown later) (live : ∀ edge ∈ instruction.operands, store.Live edge) :
    instruction.map later.denote = instruction.map store.denote :=
  map_congr fun edge member => grown.denote_eq (live edge member)

/-- Done again, an instruction costs nothing. -/
theorem perform_repeatable (instruction : Instruction Edge) (canonical : store.Canonical)
    (live : ∀ edge ∈ instruction.operands, store.Live edge)
    (covered : (instruction.map store.denote).task.Covered scope) :
    Repeatable scope instruction.call.perform store
      (Answers (instruction.map store.denote).task) := by
  refine Repeatable.of_confined (instruction.map store.denote).task.Covered canonical covered
    ?_ ?_ ?_ ?_
  · intro scope later grown covered
    rw [← map_denote_eq grown live] at covered ⊢
    exact instruction.perform_confined grown.canonical
      (fun edge member => grown.live (live edge member)) covered
  · rintro _ before after grown ⟨edge, rfl, done⟩
    exact ⟨edge, rfl, done.grow grown⟩
  · rintro _ later grown ⟨edge, rfl, done⟩
    exact done.covered grown.canonical
  · rintro _ _ later canonical ⟨edge, rfl, done⟩ ⟨other, rfl, otherDone⟩
    rw [done.unique canonical otherDone]

end

end Instruction

end DecisionDiagram
