import DecisionDiagram.Proofs.Manager.Create
import DecisionDiagram.Proofs.Manager.Instruction
import DecisionDiagram.Proofs.Manager.Translate

/-!
# Runs of calls

A call may be made when every edge it is about is in use. A manager that starts from a valid
configuration is sound after any run of such calls. A call that faults ends like any other: the
next call starts from what it left.
-/

set_option autoImplicit false

namespace DecisionDiagram

namespace Call

/-- The edges that a call is about. -/
def edges : Call → List Edge
  | node _ low high => [low, high]
  | apply _ first second => [first, second]
  | iff first second => [first, second]
  | imp first second => [first, second]
  | ite condition whenTrue whenFalse => [condition, whenTrue, whenFalse]
  | andAll edges => edges
  | orAll edges => edges
  | andSmallestFirst edges => edges
  | compose edge _ replacement => [edge, replacement]
  | substitute edge _ replacement => [edge, replacement]
  | restrict edge _ _ => [edge]
  | restrictMany edge _ => [edge]
  | existsVars edge _ => [edge]
  | forallVars edge _ => [edge]
  | relProduct first second _ => [first, second]
  | size edge => [edge]
  | pin edge => [edge]
  | unpin edge => [edge]
  | collect edges => edges
  | literal _ | cube _ | clause _ | clauses _ | weightedSum _ _ _ _ | translate _ _ => []

/-- Every edge that the call is about points at a slot in use. -/
def Admissible (call : Call) (manager : Manager) : Prop :=
  ∀ edge ∈ call.edges, manager.store.Live edge

theorem admissible_of_no_edges {call : Call} (none : call.edges = []) (manager : Manager) :
    call.Admissible manager := by
  intro edge member
  rw [none] at member
  exact absurd member List.not_mem_nil

/-- The call may give slots back. -/
def Collects : Call → Prop
  | collect _ | translate _ (some _) => True
  | _ => False

/-- The call only builds nodes and consults the caches. -/
def Builds : Call → Prop
  | collect _ | translate _ (some _) | pin _ | unpin _ => False
  | _ => True

/-- The edges that are pinned after the call, if `pinned` are before it. -/
def pinnedAfter (pinned : List Edge) : Call → List Edge
  | pin edge => pinned.insert edge
  | unpin edge => pinned.erase edge
  | _ => pinned

/-- What the call leaves of a manager, whether it returns or faults. -/
def leaves (call : Call) (manager : Manager) : Manager :=
  match call.perform manager with
  | .ok _ after => after
  | .error _ after => after

end Call

/-- Every edge in an answer points at a slot in use. -/
def Answer.LiveIn (store : Store Node) : Answer → Prop
  | .edges found => ∀ edge ∈ found, store.Live edge
  | .translation found => Manager.LiveTranslation store found
  | .done | .count _ | .flag _ => True

namespace Manager

variable {before : Manager}

theorem pin_sound {edge : Edge} (sound : before.Sound) (live : before.store.Live edge) :
    { before with pinned := before.pinned.insert edge : Manager }.Sound where
  canonical := sound.canonical
  caches := sound.caches
  pinned other member := by
    rcases List.mem_insert_iff.mp member with rfl | old
    · exact live
    · exact sound.pinned other old

theorem unpin_sound (sound : before.Sound) (edge : Edge) :
    { before with pinned := before.pinned.erase edge : Manager }.Sound where
  canonical := sound.canonical
  caches := sound.caches
  pinned other member := sound.pinned other (List.mem_of_mem_erase member)

theorem clauses_repeatable {store : Store Node} (canonical : store.Canonical)
    (literalLists : List (List Int)) :
    Repeatable .any (clauses literalLists) store
      fun edges after => ∀ edge ∈ edges, after.Live edge := by
  refine (Repeatable.mapM (fun edge after => after.Live edge)
    (fun _ _ _ grown live => grown.live live) literalLists canonical ?_).weaken
      fun _ _ _ holds => holds.2
  intro literals _ middle grown
  rw [clause_eq]
  exact (Instruction.literals_repeatable true literals grown.canonical (Task.covered_any _)).weaken
    fun _ _ _ done => done.live

end Manager

/-! ## One call -/

open Manager

/-- The calls that only build, by the way in which they do it. -/
inductive Call.Way : Call → Prop
  | instruction (instruction : Instruction Edge) : Way instruction.call
  | clauses (literalLists : List (List Int)) : Way (.clauses literalLists)
  | andSmallestFirst (edges : List Edge) : Way (.andSmallestFirst edges)
  | translate (circuit : Circuit) : Way (.translate circuit none)
  | size (edge : Edge) : Way (.size edge)

theorem Call.way_of_builds {call : Call} (builds : call.Builds) : call.Way := by
  cases call with
  | node var low high => exact .instruction (.node var low high)
  | literal number => exact .instruction (.literal number)
  | cube literals => exact .instruction (.cube literals)
  | clause literals => exact .instruction (.clause literals)
  | clauses literalLists => exact .clauses literalLists
  | apply connective first second => exact .instruction (.apply connective first second)
  | iff first second => exact .instruction (.iff first second)
  | imp first second => exact .instruction (.imp first second)
  | ite condition whenTrue whenFalse =>
    exact .instruction (.ite condition whenTrue whenFalse)
  | andAll edges => exact .instruction (.andAll edges)
  | orAll edges => exact .instruction (.orAll edges)
  | andSmallestFirst edges => exact .andSmallestFirst edges
  | compose edge var replacement => exact .instruction (.compose edge var replacement)
  | substitute edge var replacement => exact .instruction (.substitute edge var replacement)
  | restrict edge var value => exact .instruction (.restrict edge var value)
  | restrictMany edge values => exact .instruction (.restrictMany edge values)
  | existsVars edge vars => exact .instruction (.existsVars edge vars)
  | forallVars edge vars => exact .instruction (.forallVars edge vars)
  | relProduct first second vars => exact .instruction (.relProduct first second vars)
  | weightedSum comparison weights literals bound =>
    exact .instruction (.weightedSum comparison weights literals bound)
  | translate circuit threshold =>
    cases threshold with
    | none => exact .translate circuit
    | some _ => exact builds.elim
  | size edge => exact .size edge
  | pin _ | unpin _ | collect _ => exact builds.elim

theorem Instruction.edges_call (instruction : Instruction Edge) :
    instruction.call.edges = instruction.operands := by
  cases instruction <;> rfl

theorem Answer.liveIn_edge {store : Store Node} {edge : Edge} (live : store.Live edge) :
    (Answer.edges [edge]).LiveIn store :=
  List.forall_mem_singleton.mpr live

/-- Done again, a call that only builds costs nothing. It loses nothing, and its answer may be used in
further calls. -/
theorem Call.perform_repeatable {store : Store Node} {call : Call} (canonical : store.Canonical)
    (live : ∀ edge ∈ call.edges, store.Live edge) (builds : call.Builds) :
    Repeatable .any call.perform store fun answer after => answer.LiveIn after := by
  cases Call.way_of_builds builds with
  | instruction instruction =>
    rw [instruction.edges_call] at live
    apply (instruction.perform_repeatable canonical live (Task.covered_any _)).weaken
    rintro _ after _ ⟨edge, rfl, done⟩
    exact Answer.liveIn_edge done.live
  | clauses literalLists =>
    apply (clauses_repeatable canonical literalLists).bind
    intro edges after grown live
    exact Repeatable.pure grown.canonical live
  | andSmallestFirst edges =>
    apply (andSmallestFirst_repeatable canonical Scope.mem_any live).bind
    intro edge after grown represents
    exact Repeatable.pure grown.canonical (Answer.liveIn_edge represents.live)
  | translate circuit =>
    apply (translate_repeatable circuit canonical).bind
    intro translation after grown live
    exact Repeatable.pure grown.canonical live
  | size edge =>
    apply (size_repeatable canonical (List.forall_mem_singleton.mp live)).bind
    intro count after grown _
    exact Repeatable.pure grown.canonical trivial

theorem Call.perform_constructs {before : Manager} {call : Call} (sound : before.Sound)
    (admissible : call.Admissible before) (builds : call.Builds) :
    Constructs call.perform before (fun answer after => answer.LiveIn after.store) AnyFault :=
  have repeatable := Call.perform_repeatable sound.canonical admissible builds
  repeatable.confined.constructs sound fun _ _ => trivial

/-- A call comes to the same in twins and leaves twins. Its answer may be used in further calls. -/
theorem Call.perform_alike {first second : Manager} (call : Call) (twins : first.Twins second)
    (admissible : call.Admissible first) :
    Alike call.perform first second fun answer store => answer.LiveIn store := by
  by_cases builds : call.Builds
  · exact (Call.perform_repeatable twins.sound.canonical admissible builds).confined.alike twins
  · cases call with
    | translate circuit threshold =>
      apply (translate_alike circuit threshold twins).bind
      intro translation later other twins live
      exact Alike.returns twins live
    | pin edge =>
      have live := List.forall_mem_singleton.mp admissible
      refine Alike.of_ok rfl rfl ⟨pin_sound twins.sound live, ?_, twins.store, ?_⟩
        (fun forgetful => ⟨forgetful.recalls, forgetful.caches⟩) trivial
      · refine pin_sound twins.other ?_
        rw [twins.store]
        exact live
      · exact congrArg (List.insert edge) twins.pinned
    | unpin edge =>
      have sameFlag : second.pinned.contains edge = first.pinned.contains edge := by
        rw [twins.pinned]
      have run : (Call.unpin edge).perform second = .ok (.flag (second.pinned.contains edge))
          { second with pinned := second.pinned.erase edge } := rfl
      rw [sameFlag] at run
      refine Alike.of_ok rfl run
        ⟨unpin_sound twins.sound edge, unpin_sound twins.other edge, twins.store, ?_⟩
        (fun forgetful => ⟨forgetful.recalls, forgetful.caches⟩) trivial
      exact congrArg (List.erase · edge) twins.pinned
    | collect edges =>
      obtain ⟨later, other, run, otherRun, laterTwins, forgets, _⟩ := collect_twins twins admissible
      exact Alike.of_ok (bind_ok run) (bind_ok otherRun) laterTwins forgets trivial
    | _ => exact absurd trivial builds

theorem Call.leaves_of_ok {before after : Manager} {call : Call} {answer : Answer}
    (run : call.perform before = .ok answer after) : call.leaves before = after := by
  rw [leaves, run]

theorem Call.leaves_of_error {before after : Manager} {call : Call} {fault : Fault}
    (run : call.perform before = .error fault after) : call.leaves before = after := by
  rw [leaves, run]

theorem Call.leaves_of_builds {before : Manager} {call : Call} (sound : before.Sound)
    (admissible : call.Admissible before) (builds : call.Builds) :
    before.GrowsTo (call.leaves before) := by
  have constructs := Call.perform_constructs sound admissible builds
  unfold Call.leaves
  cases run : call.perform before with
  | ok answer after => exact (constructs.result answer after run).1
  | error fault after => exact (constructs.fault fault after run).1

theorem Call.leaves_twins {first second : Manager} (call : Call) (twins : first.Twins second)
    (admissible : call.Admissible first) : (call.leaves first).Twins (call.leaves second) ∧
      (second.Forgetful → (call.leaves second).Forgetful) := by
  obtain ⟨outcome, later, other, run, otherRun, laterTwins, forgets, _⟩ :=
    call.perform_alike twins admissible
  cases outcome with
  | ok answer =>
    rw [Call.leaves_of_ok run, Call.leaves_of_ok otherRun]
    exact ⟨laterTwins, forgets⟩
  | error fault =>
    rw [Call.leaves_of_error run, Call.leaves_of_error otherRun]
    exact ⟨laterTwins, forgets⟩

/-- A call leaves a sound manager. -/
theorem Call.leaves_sound {before : Manager} (call : Call) (sound : before.Sound)
    (admissible : call.Admissible before) : (call.leaves before).Sound :=
  (call.leaves_twins (.refl sound) admissible).1.sound

/-! ## All calls -/

namespace Manager

/-- What a manager with some configuration may become by calls. -/
inductive Attained (config : Config) : Manager → Prop
  | created {manager : Manager} : create config = .ok manager → Attained config manager
  | called {manager : Manager} (call : Call) : Attained config manager →
      call.Admissible manager → Attained config (call.leaves manager)

theorem Attained.sound {config : Config} {manager : Manager} (attained : Attained config manager) :
    manager.Sound := by
  induction attained with
  | created made => exact create_sound made
  | called call _ admissible ih => exact call.leaves_sound ih admissible

/-- A run that puts the literals of three variables into the slots from 2 on. -/
theorem attained_literals : ∃ manager, Attained ⟨3, 2, 2⟩ manager ∧
    manager.store.Live ⟨2, by decide⟩ ∧ manager.store.Live ⟨3, by decide⟩ ∧
      manager.store.Live ⟨4, by decide⟩ := by
  have call : ∀ number manager, Attained ⟨3, 2, 2⟩ manager →
      Attained ⟨3, 2, 2⟩ ((Call.literal number).leaves manager) := fun number _ attained =>
    .called (.literal number) attained (Call.admissible_of_no_edges rfl _)
  refine ⟨_, call 3 _ (call 2 _ (call 1 _ (.created rfl))), ⟨⟨1, .zero, .one⟩, ?_⟩,
    ⟨⟨2, .zero, .one⟩, ?_⟩, ⟨⟨3, .zero, .one⟩, ?_⟩⟩
  all_goals decide +kernel

end Manager

end DecisionDiagram
