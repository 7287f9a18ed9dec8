import DecisionDiagram.Proofs.Manager.Run
import Mathlib.Data.List.GetD

/-!
# Programs, with and without collections

A program makes one function after the other, each from earlier ones. Collections may be inserted
wherever their roots keep what is used later. The program then comes to the same functions, and it
completes if it did without them: what it has in the store at any time are functions that it would have
without collections, so it does not need more slots.
-/

set_option autoImplicit false

namespace DecisionDiagram

/-- An operand of a program: a constant or a register, perhaps complemented. -/
inductive Source where
  | constant (value : Bool)
  | register (number : Nat) (negated : Bool)

/-- A step puts a function into the next register or collects what some registers do not need. -/
inductive Step where
  | make (instruction : Instruction Source)
  | collect (numbers : List Nat)

/-- What is in a register at the moment that it is filled. -/
structure Product where
  edge : Edge
  manager : Manager

namespace Source

def numbers : Source → List Nat
  | constant _ => []
  | register number _ => [number]

/-- A register that is not filled yet reads as true. -/
def read (registers : List Edge) : Source → Edge
  | constant value => if value then .one else .zero
  | register number negated => (registers.getD number .one).flip negated

end Source

namespace Step

def call (registers : List Edge) : Step → Call
  | make instruction => (instruction.map (·.read registers)).call
  | collect numbers => .collect (numbers.map (registers.getD · .one))

/-- The instructions of a program with collections. -/
def instructions : List Step → List (Instruction Source) :=
  List.filterMap fun
    | make instruction => some instruction
    | collect _ => none

/-- The registers that some instruction uses. -/
def used (steps : List Step) : List Nat :=
  (instructions steps).flatMap fun instruction => instruction.operands.flatMap Source.numbers

/-- Carries out a program. Unless every call returns, there is no result. -/
def execute : List Step → List Edge → Manager → Option (List Product)
  | [], _, _ => some []
  | step :: rest, registers, manager =>
    match (step.call registers).perform manager with
    | .ok (.edges [edge]) after => do
      return ⟨edge, after⟩ :: (← execute rest (registers ++ [edge]) after)
    | .ok .done after => execute rest registers after
    | _ => none

/-- Every collection has roots that are not collected yet, and among them every register that is used
later. So far, `count` registers have been filled, and those in `kept` are not collected. -/
def Careful : List Step → (count : Nat) → (kept : List Nat) → Prop
  | [], _, _ => True
  | make _ :: rest, count, kept => Careful rest (count + 1) (count :: kept)
  | collect numbers :: rest, count, kept =>
    numbers ⊆ kept ∧ (∀ number ∈ used rest, number < count → number ∈ numbers) ∧
      Careful rest count numbers

end Step

open Manager

/-! ## One instruction -/

theorem Instruction.answer_eq {instruction : Instruction Edge} {before after : Manager}
    {answer : Answer} (run : instruction.call.perform before = .ok answer after) :
    ∃ edge, answer = .edges [edge] := by
  have ends : ∀ {action : Manager.Action Edge},
      (action >>= fun edge => pure (Answer.edges [edge])) before = .ok answer after →
        ∃ edge, answer = .edges [edge] := by
    intro action run
    obtain ⟨edge, middle, _, last⟩ := bind_eq_ok run
    cases last
    exact ⟨edge, rfl⟩
  cases instruction <;> exact ends run

/-- An instruction that was carried out in a manager can be carried out in one of the same capacity
that has fewer functions, on edges of the same functions. -/
theorem Instruction.perform_again {plain collected after : Manager}
    {instruction other : Instruction Edge} {edge : Edge} (sound : plain.Sound)
    (collectedSound : collected.Sound)
    (capacity : collected.store.capacity = plain.store.capacity)
    (fewer : collected.store.functions ⊆ plain.store.functions)
    (live : ∀ operand ∈ instruction.operands, plain.store.Live operand)
    (otherLive : ∀ operand ∈ other.operands, collected.store.Live operand)
    (same : instruction.map plain.store.denote = other.map collected.store.denote)
    (run : instruction.call.perform plain = .ok (.edges [edge]) after) :
    ∃ result later, other.call.perform collected = .ok (.edges [result]) later ∧
      plain.GrowsTo after ∧ collected.GrowsTo later ∧
        later.store.functions ⊆ after.store.functions ∧
          ∃ function, after.store.Represents edge function ∧
            later.store.Represents result function := by
  obtain ⟨outcome, final, ran, grows, built⟩ :=
    (instruction.perform_confined sound.canonical live (Task.covered_any _)).run sound
  rw [run] at ran
  cases outcome with
  | error fault => cases ran
  | ok answer =>
    cases ran
    obtain ⟨_, isEdge, done⟩ := built.returned _ rfl
    cases isEdge
    rw [same] at done
    -- all that is needed was there in the end, so nothing else is stored and space suffices
    have covered := done.covered grows.sound.canonical
    obtain ⟨outcome, later, otherRun, otherGrows, otherBuilt⟩ :=
      (other.perform_confined collectedSound.canonical otherLive covered).run collectedSound
    have within : later.store.functions ⊆ after.store.functions := fun function member =>
      (otherBuilt.within member).elim
        (fun known => built.grown.functions_subset (fewer known)) id
    cases outcome with
    | ok answer =>
      obtain ⟨result, rfl, otherDone⟩ := otherBuilt.returned answer rfl
      exact ⟨result, later, otherRun, grows, otherGrows, within, _, done.represents,
        otherDone.represents⟩
    | error fault =>
      rcases otherBuilt.faulted fault rfl with exhausted | impossible
      · obtain ⟨function, member, absent⟩ := exhausted.lacks
        have sameCapacity : after.store.capacity = later.store.capacity := by
          rw [grows.store.capacity, otherGrows.store.capacity, capacity]
        exact absurd (exhausted.full.functions_subset otherGrows.sound.canonical
          grows.sound.canonical sameCapacity within member) absent
      · exact impossible.elim

/-! ## A whole program -/

/-- The registers stand for one function, each in its own manager. -/
def Agree (first second : Store Node) (edge other : Edge) : Prop :=
  ∃ function, first.Represents edge function ∧ second.Represents other function

namespace Agree

variable {first second : Store Node} {edge other : Edge}

theorem live (agree : Agree first second edge other) : first.Live edge := by
  obtain ⟨_, represents, _⟩ := agree
  exact represents.live

theorem otherLive (agree : Agree first second edge other) : second.Live other := by
  obtain ⟨_, _, represents⟩ := agree
  exact represents.live

theorem denote_eq (agree : Agree first second edge other) :
    first.denote edge = second.denote other := by
  obtain ⟨_, represents, otherRepresents⟩ := agree
  exact represents.denote_eq.trans otherRepresents.denote_eq.symm

end Agree

/-- A manager in which collections were made follows one in which none were. -/
structure Follows (plain collected : Manager) (registers others : List Edge) (kept : List Nat) :
    Prop where
  sound : plain.Sound
  other : collected.Sound
  capacity : collected.store.capacity = plain.store.capacity
  functions : collected.store.functions ⊆ plain.store.functions
  count : others.length = registers.length
  filled : ∀ number ∈ kept, number < registers.length
  agree : ∀ number ∈ kept, Agree plain.store collected.store (registers.getD number .one)
    (others.getD number .one)

namespace Follows

variable {plain collected after later : Manager} {registers others : List Edge} {kept : List Nat}

theorem read (follows : Follows plain collected registers others kept) {source : Source}
    (known : ∀ number ∈ source.numbers, number < registers.length → number ∈ kept) :
    Agree plain.store collected.store (source.read registers) (source.read others) := by
  cases source with
  | constant value =>
    cases value with
    | true => exact ⟨_, follows.sound.canonical.represents_one, follows.other.canonical.represents_one⟩
    | false =>
      exact ⟨_, follows.sound.canonical.represents_zero, follows.other.canonical.represents_zero⟩
  | register number negated =>
    by_cases inside : number < registers.length
    · obtain ⟨function, represents, otherRepresents⟩ :=
        follows.agree number (known number List.mem_cons_self inside)
      exact ⟨_, represents.flip negated, otherRepresents.flip negated⟩
    · have outside := Nat.not_lt.mp inside
      have otherOutside : others.length ≤ number := by
        rw [follows.count]
        exact outside
      simp only [Source.read, List.getD_eq_default _ _ outside, List.getD_eq_default _ _ otherOutside]
      exact ⟨_, follows.sound.canonical.represents_one.flip negated,
        follows.other.canonical.represents_one.flip negated⟩

/-- A new register is filled. -/
theorem filled_next (follows : Follows plain collected registers others kept)
    (grows : plain.GrowsTo after) (otherGrows : collected.GrowsTo later)
    (functions : later.store.functions ⊆ after.store.functions) {edge other : Edge}
    (agree : Agree after.store later.store edge other) :
    Follows after later (registers ++ [edge]) (others ++ [other]) (registers.length :: kept) where
  sound := grows.sound
  other := otherGrows.sound
  capacity := by rw [grows.store.capacity, otherGrows.store.capacity, follows.capacity]
  functions := functions
  count := by simp [follows.count]
  filled := by
    intro number member
    rw [List.length_append, List.length_singleton]
    rcases List.mem_cons.mp member with rfl | old
    · exact Nat.lt_succ_self _
    · exact Nat.lt_succ_of_lt (follows.filled number old)
  agree := by
    intro number member
    rcases List.mem_cons.mp member with rfl | old
    · have last : (registers ++ [edge]).getD registers.length .one = edge := by simp
      have otherLast : (others ++ [other]).getD registers.length .one = other := by
        simp [← follows.count]
      rw [last, otherLast]
      exact agree
    · have inside := follows.filled number old
      have otherInside : number < others.length := by
        rw [follows.count]
        exact inside
      rw [List.getD_append _ _ _ _ inside, List.getD_append _ _ _ _ otherInside]
      obtain ⟨function, represents, otherRepresents⟩ := follows.agree number old
      exact ⟨function, grows.represents follows.sound represents,
        otherGrows.represents follows.other otherRepresents⟩

/-- A collection keeps its roots. -/
theorem collects (follows : Follows plain collected registers others kept) {numbers : List Nat}
    (roots : numbers ⊆ kept) :
    ∃ later, (Step.call others (.collect numbers)).perform collected = .ok .done later ∧
      Follows plain later registers others numbers := by
  have live : ∀ edge ∈ numbers.map (others.getD · .one), collected.store.Live edge := by
    intro edge member
    obtain ⟨number, known, rfl⟩ := List.mem_map.mp member
    exact (follows.agree number (roots known)).otherLive
  obtain ⟨later, run, kept⟩ := collect_spec follows.other live
  refine ⟨later, bind_ok run, follows.sound, kept.sound, ?_, ?_, follows.count,
    fun number member => follows.filled number (roots member), fun number member => ?_⟩
  · rw [kept.capacity, follows.capacity]
  · exact (kept.functions_subset follows.other).trans follows.functions
  · obtain ⟨function, represents, otherRepresents⟩ := follows.agree number (roots member)
    have isRoot : others.getD number .one ∈ numbers.map (others.getD · .one) :=
      List.mem_map_of_mem member
    exact ⟨function, represents, kept.represents follows.other
      (Store.mem_below_of_mem (List.mem_append_left _ isRoot)) otherRepresents⟩

/-- An instruction is carried out again, after whatever collections. -/
theorem made (follows : Follows plain collected registers others kept)
    {instruction : Instruction Source} {edge : Edge}
    (known : ∀ source ∈ instruction.operands, ∀ number ∈ source.numbers,
      number < registers.length → number ∈ kept)
    (run : (Step.call registers (.make instruction)).perform plain = .ok (.edges [edge]) after) :
    ∃ other later, (Step.call others (.make instruction)).perform collected =
        .ok (.edges [other]) later ∧
      Follows after later (registers ++ [edge]) (others ++ [other]) (registers.length :: kept) := by
  have agree := fun source member => follows.read (known source member)
  have same : (instruction.map (·.read registers)).map plain.store.denote =
      (instruction.map (·.read others)).map collected.store.denote := by
    rw [Instruction.map_map, Instruction.map_map]
    exact Instruction.map_congr fun source isSource => (agree source isSource).denote_eq
  obtain ⟨other, later, otherRun, grows, otherGrows, functions, both⟩ :=
    Instruction.perform_again follows.sound follows.other follows.capacity follows.functions
      (Instruction.forall_operands_map fun source isSource => (agree source isSource).live)
      (Instruction.forall_operands_map fun source isSource => (agree source isSource).otherLive)
      same run
  exact ⟨other, later, otherRun, follows.filled_next grows otherGrows functions both⟩

end Follows

/-! ## All programs -/

/-- Two registers stand for the same function when they are filled. -/
structure Corresponds (product other : Product) : Prop where
  live : product.manager.store.Live product.edge
  otherLive : other.manager.store.Live other.edge
  same : SameFunction product.manager product.edge other.manager other.edge

theorem Follows.corresponds {plain collected : Manager} {registers others : List Edge}
    {kept : List Nat} {edge other : Edge}
    (follows : Follows plain collected (registers ++ [edge]) (others ++ [other])
      (registers.length :: kept)) : Corresponds ⟨edge, plain⟩ ⟨other, collected⟩ := by
  have agree := follows.agree registers.length List.mem_cons_self
  have last : (registers ++ [edge]).getD registers.length .one = edge := by simp
  have otherLast : (others ++ [other]).getD registers.length .one = other := by
    have sameCount : others.length = registers.length := by
      simpa using follows.count
    simp [← sameCount]
  rw [last, otherLast] at agree
  exact ⟨agree.live, agree.otherLive, (sameFunction_iff follows.sound.canonical
    follows.other.canonical agree.live agree.otherLive).mpr agree.denote_eq⟩

theorem execute_make {instruction : Instruction Source} {rest : List Step} {registers : List Edge}
    {manager : Manager} {products : List Product}
    (completes : Step.execute (.make instruction :: rest) registers manager = some products) :
    ∃ edge after others, (Step.call registers (.make instruction)).perform manager =
        .ok (.edges [edge]) after ∧
      Step.execute rest (registers ++ [edge]) after = some others ∧
        products = ⟨edge, after⟩ :: others := by
  rw [Step.execute] at completes
  cases run : (Step.call registers (.make instruction)).perform manager with
  | error fault after =>
    rw [run] at completes
    cases completes
  | ok answer after =>
    obtain ⟨edge, rfl⟩ := Instruction.answer_eq run
    rw [run] at completes
    obtain ⟨others, ran, same⟩ := Option.bind_eq_some_iff.mp completes
    exact ⟨edge, after, others, rfl, ran, (Option.some.inj same).symm⟩

/-- From managers that follow one another, a program comes to the same functions with collections as
without. -/
theorem execute_again {steps : List Step} {plain collected : Manager}
    {registers others : List Edge} {kept : List Nat} {products : List Product}
    (follows : Follows plain collected registers others kept)
    (careful : Step.Careful steps registers.length kept)
    (known : ∀ number ∈ Step.used steps, number < registers.length → number ∈ kept)
    (completes : Step.execute ((Step.instructions steps).map .make) registers plain =
      some products) :
    ∃ again, Step.execute steps others collected = some again ∧
      List.Forall₂ Corresponds products again := by
  induction steps generalizing plain collected registers others kept products with
  | nil =>
    cases completes
    exact ⟨[], rfl, .nil⟩
  | cons step rest ih =>
    cases step with
    | make instruction =>
      obtain ⟨edge, after, further, run, furtherCompletes, rfl⟩ := execute_make completes
      have knownHere : ∀ source ∈ instruction.operands, ∀ number ∈ source.numbers,
          number < registers.length → number ∈ kept := by
        intro source isSource number member
        exact known number (List.mem_append_left _ (List.mem_flatMap.mpr ⟨source, isSource, member⟩))
      obtain ⟨other, later, otherRun, follows⟩ := follows.made knownHere run
      have grown : (registers ++ [edge]).length = registers.length + 1 := by simp
      have knownLater : ∀ number ∈ Step.used rest, number < (registers ++ [edge]).length →
          number ∈ registers.length :: kept := by
        intro number member inside
        rw [grown] at inside
        rcases Nat.lt_succ_iff_lt_or_eq.mp inside with old | rfl
        · exact List.mem_cons_of_mem _ (known number (List.mem_append_right _ member) old)
        · exact List.mem_cons_self
      have carefulLater : Step.Careful rest (registers ++ [edge]).length
          (registers.length :: kept) := by
        rw [grown]
        exact careful
      obtain ⟨again, ran, all⟩ := ih follows carefulLater knownLater furtherCompletes
      refine ⟨⟨other, later⟩ :: again, ?_, .cons follows.corresponds all⟩
      rw [Step.execute, otherRun]
      simp only [ran]
      rfl
    | collect numbers =>
      obtain ⟨roots, later, careful⟩ := careful
      obtain ⟨after, run, follows⟩ := follows.collects roots
      obtain ⟨again, ran, all⟩ := ih follows careful later completes
      refine ⟨again, ?_, all⟩
      rw [Step.execute, run]
      exact ran

namespace Manager

/-- **Inserting collections is invisible and never harmful.** A program that completes in a new manager
completes as well with collections that keep what is used later. Every register then stands for the
same function at the moment when it is filled. -/
theorem created_execute_again {config : Config} {manager : Manager} {steps : List Step}
    {products : List Product} (made : create config = .ok manager) (careful : Step.Careful steps 0 [])
    (completes : Step.execute ((Step.instructions steps).map .make) [] manager = some products) :
    ∃ again, Step.execute steps [] manager = some again ∧
      List.Forall₂ Corresponds products again := by
  have sound := create_sound made
  have follows : Follows manager manager [] [] [] :=
    { sound := sound
      other := sound
      capacity := rfl
      functions := subset_rfl
      count := rfl
      filled := fun _ member => absurd member List.not_mem_nil
      agree := fun _ member => absurd member List.not_mem_nil }
  exact execute_again follows careful (fun _ _ below => absurd below (Nat.not_lt_zero _)) completes

/-- The first of two literals is collected before a conjunction is made with the second one. -/
theorem execute_again_after_literals : ∃ manager products again, create ⟨3, 2, 2⟩ = .ok manager ∧
    Step.execute [.make (.literal 1), .make (.literal 2),
      .make (.node 1 (.constant false) (.register 1 false))] [] manager = some products ∧
    Step.execute [.make (.literal 1), .make (.literal 2), .collect [1],
      .make (.node 1 (.constant false) (.register 1 false))] [] manager = some again ∧
    List.Forall₂ Corresponds products again := by
  have completes : ∃ manager products, create ⟨3, 2, 2⟩ = .ok manager ∧
      Step.execute [.make (.literal 1), .make (.literal 2),
        .make (.node 1 (.constant false) (.register 1 false))] [] manager = some products :=
    ⟨_, _, rfl, by with_unfolding_all rfl⟩
  obtain ⟨manager, products, made, completes⟩ := completes
  have careful : Step.Careful [.make (.literal 1), .make (.literal 2), .collect [1],
      .make (.node 1 (.constant false) (.register 1 false))] 0 [] :=
    ⟨by decide, by decide, trivial⟩
  obtain ⟨again, completesAgain, same⟩ := created_execute_again made careful completes
  exact ⟨manager, products, again, made, completes, completesAgain, same⟩

end Manager

end DecisionDiagram
