import DecisionDiagram.Manager.Join
import DecisionDiagram.Proofs.Manager.Repeat

/-!
# Joining many functions

Joined from the left, a list needs the functions of all its beginnings. Which functions are joined on
the way if the smallest come first depends on the numbers of slots, so that join is confined only
where every function may be stored. What the queue stands for, the conjunction of all its functions, is
the same before and after each round, wherever the queue puts the new entry.
-/

set_option autoImplicit false

namespace DecisionDiagram.Manager

variable {scope : Scope} {store : Store Node}

/-- The functions of a list, joined one after the other onto a first one. -/
def joinTask (connective : Connective) : BoolFunction → List BoolFunction → Task
  | joined, [] => .of joined
  | joined, next :: rest =>
    { joinTask connective (connective.on joined next) rest with
      needs := insert joined (joinTask connective (connective.on joined next) rest).needs }

theorem joinTask_proper (connective : Connective) (joined : BoolFunction)
    (functions : List BoolFunction) : (joinTask connective joined functions).proper := by
  induction functions generalizing joined with
  | nil => trivial
  | cons next rest ih => exact ih (connective.on joined next)

theorem joinTask_first (connective : Connective) (joined : BoolFunction)
    (functions : List BoolFunction) : joined ∈ (joinTask connective joined functions).needs := by
  cases functions with
  | nil => exact Set.mem_singleton joined
  | cons next rest => exact Set.mem_insert joined _

theorem joinAll_confined (connective : Connective) {edges : List Edge} {start : Edge}
    {joined : BoolFunction} {functions : List BoolFunction} (canonical : store.Canonical)
    (onStart : store.Represents start joined)
    (represents : List.Forall₂ store.Represents edges functions)
    (covered : (joinTask connective joined functions).Covered scope) :
    Confined steady scope (edges.foldlM (apply connective) start) store
      (joinTask connective joined functions).Done := by
  induction edges generalizing store start joined functions with
  | nil =>
    cases represents
    exact Confined.pure canonical (Task.done_of onStart)
  | cons edge rest ih =>
    obtain ⟨function, others, onEdge, onRest, rfl⟩ := List.forall₂_cons_left_iff.mp represents
    have coveredRest : (joinTask connective (connective.on joined function) others).Covered scope :=
      ⟨fun _ member => covered.needs (Set.mem_insert_of_mem _ member), covered.allows⟩
    rw [List.foldlM_cons]
    refine (apply_confined connective canonical onStart onEdge
      (coveredRest.needs (joinTask_first _ _ _))).bind ?_
    intro next middle grown onNext
    refine (ih grown.canonical onNext (onRest.imp fun _ _ => grown.represents) coveredRest).weaken ?_
    intro result after more done
    refine ⟨done.represents, ?_, done.proper⟩
    rintro needed (rfl | member)
    · exact ((grown.trans more).represents onStart).mem_functions
    · exact done.needs member

theorem andAll_confined {edges : List Edge} {functions : List BoolFunction}
    (canonical : store.Canonical) (represents : List.Forall₂ store.Represents edges functions)
    (covered : (joinTask .and (fun _ => true) functions).Covered scope) :
    Confined steady scope (andAll edges) store (joinTask .and (fun _ => true) functions).Done :=
  joinAll_confined .and canonical canonical.represents_one represents covered

theorem orAll_confined {edges : List Edge} {functions : List BoolFunction}
    (canonical : store.Canonical) (represents : List.Forall₂ store.Represents edges functions)
    (covered : (joinTask .or (fun _ => false) functions).Covered scope) :
    Confined steady scope (orAll edges) store (joinTask .or (fun _ => false) functions).Done :=
  joinAll_confined .or canonical canonical.represents_zero represents covered

/-! ## Conjunctions and disjunctions of lists -/

def conjunction (functions : List BoolFunction) : BoolFunction := fun valuation =>
  functions.all fun function => function valuation

def disjunction (functions : List BoolFunction) : BoolFunction := fun valuation =>
  functions.any fun function => function valuation

@[simp] theorem conjunction_nil : conjunction [] = fun _ => true := rfl

@[simp] theorem conjunction_cons (first : BoolFunction) (rest : List BoolFunction) :
    conjunction (first :: rest) = fun valuation =>
      first valuation && conjunction rest valuation := rfl

@[simp] theorem disjunction_nil : disjunction [] = fun _ => false := rfl

@[simp] theorem disjunction_cons (first : BoolFunction) (rest : List BoolFunction) :
    disjunction (first :: rest) = fun valuation =>
      first valuation || disjunction rest valuation := rfl

theorem conjunction_perm {functions others : List BoolFunction} (same : functions.Perm others) :
    conjunction functions = conjunction others :=
  funext fun _ => same.all_eq

theorem disjunction_perm {functions others : List BoolFunction} (same : functions.Perm others) :
    disjunction functions = disjunction others :=
  funext fun _ => same.any_eq

theorem joinTask_and_target (joined : BoolFunction) (functions : List BoolFunction) :
    (joinTask .and joined functions).target = conjunction (joined :: functions) := by
  induction functions generalizing joined with
  | nil => simp [joinTask, Task.given]
  | cons next rest ih =>
    rw [joinTask, ih]
    simp [Connective.on, Connective.eval, Bool.and_assoc]

theorem joinTask_or_target (joined : BoolFunction) (functions : List BoolFunction) :
    (joinTask .or joined functions).target = disjunction (joined :: functions) := by
  induction functions generalizing joined with
  | nil => simp [joinTask, Task.given]
  | cons next rest ih =>
    rw [joinTask, ih]
    simp [Connective.on, Connective.eval, Bool.or_assoc]

/-! ## The smallest first -/

theorem enqueue_perm (size : Nat) (edge : Edge) (queue : List (Nat × Edge)) :
    (enqueue size edge queue).Perm ((size, edge) :: queue) := by
  induction queue with
  | nil => exact List.Perm.refl _
  | cons first rest ih =>
    rw [enqueue]
    split
    · exact List.Perm.refl _
    · exact (ih.cons first).trans (List.Perm.swap _ _ _)

/-- A queue that is filled entry by entry holds these entries. -/
theorem foldl_enqueue_perm (entries queue : List (Nat × Edge)) :
    (entries.foldl (fun queue (count, edge) => enqueue count edge queue) queue).Perm
      (entries ++ queue) := by
  induction entries generalizing queue with
  | nil => exact List.Perm.refl _
  | cons entry rest ih =>
    have next := (enqueue_perm entry.1 entry.2 queue).append_left rest
    exact (ih _).trans (next.trans List.perm_middle)

/-- What the edges of a queue stand for. -/
def queued (store : Store Node) (queue : List (Nat × Edge)) : List BoolFunction :=
  queue.map fun entry => store.denote entry.2

@[simp] theorem queued_cons (store : Store Node) (entry : Nat × Edge) (rest : List (Nat × Edge)) :
    queued store (entry :: rest) = store.denote entry.2 :: queued store rest := rfl

/-- The edges in a queue are live, and together they stand for the function. -/
structure QueueOf (store : Store Node) (queue : List (Nat × Edge)) (function : BoolFunction) :
    Prop where
  live : ∀ entry ∈ queue, store.Live entry.2
  conjunction_eq : conjunction (queued store queue) = function

namespace QueueOf

variable {queue others : List (Nat × Edge)} {function : BoolFunction}

theorem perm (holds : QueueOf store queue function) (same : others.Perm queue) :
    QueueOf store others function where
  live entry member := holds.live entry (same.mem_iff.mp member)
  conjunction_eq := by
    rw [← holds.conjunction_eq]
    exact conjunction_perm (same.map _)

/-- One round of joining: the two first edges make place for their conjunction. -/
theorem round {first second : Nat × Edge} {joined : Edge} {after : Store Node}
    (holds : QueueOf store (first :: second :: queue) function) (grown : store.Grown after)
    (represents : after.Represents joined
      (Connective.and.on (store.denote first.2) (store.denote second.2))) (count : Nat) :
    QueueOf after (enqueue count joined queue) function := by
  have restLive : ∀ entry ∈ queue, store.Live entry.2 := fun entry member =>
    holds.live entry (List.mem_cons_of_mem _ (List.mem_cons_of_mem _ member))
  have sameRest : queued after queue = queued store queue :=
    List.map_congr_left fun entry member => grown.denote_eq (restLive entry member)
  have whole : QueueOf after ((count, joined) :: queue) function := by
    refine ⟨List.forall_mem_cons.mpr ⟨represents.live, fun entry member =>
      grown.live (restLive entry member)⟩, ?_⟩
    rw [← holds.conjunction_eq]
    simp [represents.denote_eq, sameRest, Connective.on, Connective.eval, Bool.and_assoc]
  exact whole.perm (enqueue_perm count joined queue)

end QueueOf

theorem joinQueue_repeatable {queue : List (Nat × Edge)} {function : BoolFunction}
    (canonical : store.Canonical) (everything : ∀ function, function ∈ scope.family)
    (holds : QueueOf store queue function) :
    Repeatable scope (joinQueue queue) store fun edge after => after.Represents edge function := by
  -- every round takes two entries out of the queue and puts one in
  induction queue using joinQueue.induct generalizing store with
  | case1 =>
    rw [joinQueue]
    apply Repeatable.pure canonical
    rw [← holds.conjunction_eq]
    exact canonical.represents_one
  | case2 _ last =>
    rw [joinQueue]
    apply Repeatable.pure canonical
    have live : store.Live last := holds.live _ List.mem_cons_self
    rw [← holds.conjunction_eq]
    exact live.represents.congr fun valuation => by simp [queued]
  | case3 _ first _ second rest ih =>
    rw [joinQueue]
    have firstLive : store.Live first := holds.live _ List.mem_cons_self
    have secondLive : store.Live second :=
      holds.live _ (List.mem_cons_of_mem _ List.mem_cons_self)
    apply (apply_repeatable .and canonical firstLive.represents secondLive.represents
      (everything _)).bind
    intro joined middle grown done
    apply (size_repeatable grown.canonical done.live).bind
    intro count after more _
    exact ih joined count more.canonical
      (holds.round (grown.trans more) (more.represents done.represents) count)

/-- The queue that a join begins with stands for the conjunction of the list. -/
theorem queueOf_start {sizes : List Nat} {edges : List Edge} (sameLength : sizes.length = edges.length)
    (live : ∀ edge ∈ edges, store.Live edge) :
    QueueOf store
      ((sizes.zip edges).foldl (fun queue (count, edge) => enqueue count edge queue) [])
      (conjunction (edges.map store.denote)) := by
  have isList : (sizes.zip edges).map Prod.snd = edges :=
    List.map_snd_zip (Nat.le_of_eq sameLength.symm)
  have paired : QueueOf store (sizes.zip edges) (conjunction (edges.map store.denote)) := by
    refine ⟨fun entry member => live entry.2 (List.of_mem_zip member).2, ?_⟩
    have sameFunctions : queued store (sizes.zip edges) = edges.map store.denote := by
      rw [← isList, List.map_map, isList]
      rfl
    rw [sameFunctions]
  have filled := foldl_enqueue_perm (sizes.zip edges) []
  rw [List.append_nil] at filled
  exact paired.perm filled

theorem andSmallestFirst_repeatable {edges : List Edge} (canonical : store.Canonical)
    (everything : ∀ function, function ∈ scope.family) (live : ∀ edge ∈ edges, store.Live edge) :
    Repeatable scope (andSmallestFirst edges) store
      fun edge after => after.Represents edge (conjunction (edges.map store.denote)) := by
  refine (Repeatable.mapM (fun _ _ => True) (fun _ _ _ _ _ => trivial) edges canonical ?_).bind ?_
  · intro edge member middle grown
    exact (size_repeatable grown.canonical (grown.live (live edge member))).weaken
      fun _ _ _ _ => trivial
  · intro sizes after grown ⟨sameLength, _⟩
    apply joinQueue_repeatable grown.canonical everything
    rw [← grown.map_denote_eq live]
    exact queueOf_start sameLength fun edge member => grown.live (live edge member)

end DecisionDiagram.Manager
