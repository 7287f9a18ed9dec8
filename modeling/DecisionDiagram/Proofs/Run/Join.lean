import DecisionDiagram.Proofs.Run.Connectives
import DecisionDiagram.Proofs.Run.Yields

/-!
# The order of a join does not matter

A list is joined from its beginning or with its smallest functions first, and it may be put in any
order before. All these calls make different functions on their way, and a full store may stop one of
them and not the other. Those that return in one run without collections return the same edge, which
stands for the conjunction, or the disjunction, of the list.
-/

set_option autoImplicit false

namespace DecisionDiagram

open Manager

/-- The calls that make the conjunction of some edges, taken in any order. -/
inductive Call.Conjoins (edges : List Edge) : Call → Prop
  | all {order : List Edge} : order.Perm edges → Conjoins edges (.andAll order)
  | smallestFirst {order : List Edge} : order.Perm edges → Conjoins edges (.andSmallestFirst order)

/-- The calls that make the disjunction of some edges, taken in any order. -/
inductive Call.Disjoins (edges : List Edge) : Call → Prop
  | all {order : List Edge} : order.Perm edges → Disjoins edges (.orAll order)

/-- The call makes what stands for the join of the functions of the edges. -/
def Call.Joins (join : List BoolFunction → BoolFunction) (edges : List Edge) (call : Call) : Prop :=
  ∀ store : Store Node, store.Canonical → (∀ edge ∈ edges, store.Live edge) →
    Confined steady .faultless call.perform store fun answer after =>
      ∃ edge, answer = .edges [edge] ∧ after.Represents edge (join (edges.map store.denote))

variable {manager : Manager} {calls : List Call} {call first second : Call}
  {edges order : List Edge} {result : Edge} {join : List BoolFunction → BoolFunction}

/-! ## Each way for itself -/

/-- An instruction joins its operands if this is its task, whatever they stand for. -/
theorem Call.joins_of_target (instruction : Instruction Edge)
    (proper : ∀ meaning : Edge → BoolFunction, (instruction.map meaning).task.proper)
    (target : ∀ meaning : Edge → BoolFunction,
      (instruction.map meaning).task.target = join (instruction.operands.map meaning)) :
    instruction.call.Joins join instruction.operands := by
  intro store canonical live
  apply (instruction.perform_confined canonical live (Task.covered_faultless (proper _))).weaken
  intro _ after _ ⟨edge, isEdge, done⟩
  have represents := done.represents
  rw [target] at represents
  exact ⟨edge, isEdge, represents⟩

theorem Call.joins_andAll (edges : List Edge) : (Call.andAll edges).Joins conjunction edges :=
  joins_of_target (.andAll edges) (fun _ => joinTask_proper _ _ _) fun meaning => by
    simp [Instruction.map, Instruction.task, Instruction.operands, joinTask_and_target]

theorem Call.joins_orAll (edges : List Edge) : (Call.orAll edges).Joins disjunction edges :=
  joins_of_target (.orAll edges) (fun _ => joinTask_proper _ _ _) fun meaning => by
    simp [Instruction.map, Instruction.task, Instruction.operands, joinTask_or_target]

theorem Call.joins_andSmallestFirst (edges : List Edge) :
    (Call.andSmallestFirst edges).Joins conjunction edges := by
  intro store canonical live
  apply (andSmallestFirst_repeatable canonical Scope.mem_faultless live).confined.bind
  intro edge after grown represents
  exact Confined.pure grown.canonical ⟨edge, rfl, represents⟩

/-- A join in one order is a join in every order. -/
theorem Call.Joins.perm (joins : call.Joins join order) (same : order.Perm edges)
    (anyOrder : ∀ functions others : List BoolFunction, functions.Perm others →
      join functions = join others) : call.Joins join edges := by
  intro store canonical live
  rw [← anyOrder _ _ (same.map store.denote)]
  exact joins store canonical fun edge member => live edge (same.mem_iff.mp member)

theorem Call.Conjoins.joins (conjoins : call.Conjoins edges) : call.Joins conjunction edges := by
  cases conjoins with
  | all same => exact Joins.perm (joins_andAll _) same fun _ _ => conjunction_perm
  | smallestFirst same => exact Joins.perm (joins_andSmallestFirst _) same fun _ _ => conjunction_perm

theorem Call.Disjoins.joins (disjoins : call.Disjoins edges) : call.Joins disjunction edges := by
  cases disjoins with
  | all same => exact Joins.perm (joins_orAll _) same fun _ _ => disjunction_perm

/-! ## All ways together -/

namespace Manager

/-- All ways to join some edges come to the same. -/
structure JoinsAlike (manager : Manager) (edges : List Edge) (way : Call → Prop)
    (combine : (Edge → Bool) → Bool) (neutral : Edge) : Prop where
  /-- Whichever ways are gone in one run without collections, they return the same. -/
  concur : ∀ first second, way first → way second → Concur first second manager
  /-- Where an assignment covers the edges, what a way returns has the value of the join. -/
  value : ∀ calls call result, Uncollected calls manager → way call →
    Yields calls manager call result → ∀ assignment,
      (∀ edge ∈ edges, Covers manager.store assignment edge) →
        ∃ value : Edge → Bool,
          (∀ edge ∈ edges, manager.value edge assignment = .ok (value edge) ∧
            (leavesAll calls manager).value edge assignment = .ok (value edge)) ∧
          (leavesAll calls manager).value result assignment = .ok (combine value)
  neutral : edges = [] → ∀ calls call result, Uncollected calls manager → way call →
    Yields calls manager call result → result = neutral
  /-- Only a full store keeps a way from returning an edge. -/
  fault : ∀ call, way call → ∀ fault after, call.perform manager = .error fault after →
    OutOfSpace fault after

/-- At the end of the run, the returned edge stands for the join of what the edges stood for at its
start. -/
theorem Yields.joins (yields : Yields calls manager call result) (sound : manager.Sound)
    (run : Uncollected calls manager) (live : ∀ edge ∈ edges, manager.store.Live edge)
    (joins : call.Joins join edges) :
    (leavesAll calls manager).store.Represents result (join (edges.map manager.store.denote)) := by
  obtain ⟨before, after, beforeSound, grown, _, returned, later⟩ := yields.moment sound run
  have beforeLive : ∀ edge ∈ edges, before.store.Live edge := fun edge member =>
    grown.live (live edge member)
  have constructs := (joins before.store beforeSound.canonical beforeLive).constructs beforeSound
    fun _ impossible => impossible
  obtain ⟨_, _, isEdge, represents⟩ := constructs.result _ _ returned
  cases isEdge
  rw [← grown.map_denote_eq live]
  exact later.represents represents

theorem concur_of_joins (sound : manager.Sound) (live : ∀ edge ∈ edges, manager.store.Live edge)
    (joins : first.Joins join edges) (otherJoins : second.Joins join edges) :
    Concur first second manager := by
  intro calls run result other yields otherYields
  have represents := yields.joins sound run live joins
  have otherRepresents := otherYields.joins sound run live otherJoins
  exact represents.unique (leavesAll_sound sound run.admissible).canonical otherRepresents

theorem joinsAlike_of_joins {way : Call → Prop} {combine : (Edge → Bool) → Bool} {neutral : Edge}
    (sound : manager.Sound) (live : ∀ edge ∈ edges, manager.store.Live edge)
    (joins : ∀ call, way call → call.Joins join edges)
    (onOperands : ∀ left right : Edge → Bool, (∀ edge ∈ edges, left edge = right edge) →
      combine left = combine right)
    (pointwise : ∀ valuation, join (edges.map manager.store.denote) valuation =
      combine fun edge => manager.store.denote edge valuation)
    (unit : ∀ store : Store Node, store.Canonical → store.Represents neutral (join [])) :
    JoinsAlike manager edges way combine neutral where
  concur first second isWay otherWay :=
    concur_of_joins sound live (joins first isWay) (joins second otherWay)
  value calls call result run isWay yields :=
    value_of_operands (run.grown sound) live onOperands
      ((yields.joins sound run live (joins call isWay)).congr pointwise)
  neutral empty calls call result run isWay yields := by
    subst empty
    have canonical := (leavesAll_sound sound run.admissible).canonical
    exact (yields.joins sound run live (joins call isWay)).unique canonical (unit _ canonical)
  fault call isWay _ _ :=
    ((joins call isWay _ sound.canonical live).constructs sound
      fun _ impossible => impossible).outOfSpace

/-- **Strategy and order of a join do not matter**, in the runs from any state of any run. -/
theorem attained_joinsAlike {config : Config} (attained : Attained config manager)
    (live : ∀ edge ∈ edges, manager.store.Live edge) :
    JoinsAlike manager edges (Call.Conjoins edges) (fun value => edges.all value) .one ∧
      JoinsAlike manager edges (Call.Disjoins edges) (fun value => edges.any value) .zero := by
  have sound := attained.sound
  constructor
  · apply joinsAlike_of_joins sound live fun _ => Call.Conjoins.joins
    · intro left right agree
      grind
    · intro valuation
      rw [conjunction, List.all_map]
      rfl
    · exact fun store canonical => canonical.represents_one
  · apply joinsAlike_of_joins sound live fun _ => Call.Disjoins.joins
    · intro left right agree
      grind
    · intro valuation
      rw [disjunction, List.any_map]
      rfl
    · exact fun store canonical => canonical.represents_zero

/-- A variable, true and the complement of the variable are joined in both directions. -/
theorem joinsAlike_of_complements : ∃ edges calls,
    edges = [⟨2, by decide⟩, .one, ⟨-2, by decide⟩] ∧ Attained ⟨3, 1, 1⟩ twoVariables ∧
    JoinsAlike twoVariables edges (Call.Conjoins edges) (fun value => edges.all value) .one ∧
    JoinsAlike twoVariables edges (Call.Disjoins edges) (fun value => edges.any value) .zero ∧
    Uncollected calls twoVariables ∧ Yields calls twoVariables (.andAll edges) .zero ∧
    Yields calls twoVariables (.andAll edges.reverse) .zero := by
  obtain ⟨edges, isList⟩ : ∃ edges : List Edge, edges = [⟨2, by decide⟩, .one, ⟨-2, by decide⟩] :=
    ⟨_, rfl⟩
  have positive := live_twoVariables.1
  have complement : twoVariables.store.Live ⟨-2, by decide⟩ := Store.live_neg.mpr positive
  have constant := attained_twoVariables.sound.canonical.live_one
  have live : ∀ edge ∈ edges, twoVariables.store.Live edge := by
    simp [isList, positive, complement, constant]
  have reverseLive : ∀ edge ∈ edges.reverse, twoVariables.store.Live edge :=
    fun edge member => live edge (List.mem_reverse.mp member)
  have forward : twoVariables.Finds (.andAll edges) .zero := ⟨live, trivial, by rw [isList]; rfl⟩
  have backward : twoVariables.Finds (.andAll edges.reverse) .zero :=
    ⟨reverseLive, trivial, by rw [isList]; rfl⟩
  have all : ∀ step ∈ [(Call.andAll edges, Edge.zero), (.andAll edges.reverse, .zero)],
      twoVariables.Finds step.1 step.2 :=
    List.forall_mem_cons.mpr ⟨forward, List.forall_mem_singleton.mpr backward⟩
  obtain ⟨yieldsForward, others⟩ := List.forall_mem_cons.mp (Yields.of_finds all)
  have yieldsBackward := List.forall_mem_singleton.mp others
  obtain ⟨conjunctions, disjunctions⟩ := attained_joinsAlike attained_twoVariables live
  exact ⟨edges, _, isList, attained_twoVariables, conjunctions, disjunctions,
    Uncollected.of_finds all, yieldsForward, yieldsBackward⟩

end Manager

end DecisionDiagram
