import DecisionDiagram.Proofs.Manager.Confined

/-!
# Tasks

A task says what an operation is to come to, without a word about edges and slots: its function, the
functions that it needs on the way, and whether it can be done at all. An operation whose task is
covered by a scope stays within the scope, and when it returns, all that it needed is stored, so
that doing it again costs nothing. That is what makes an answer worth remembering.
-/

set_option autoImplicit false

namespace DecisionDiagram.Manager

structure Task where
  target : BoolFunction
  needs : Set BoolFunction
  proper : Prop

namespace Task

/-- Coming to a function by way of its cofactors, if that can be done at all. -/
def given (proper : Prop) (target : BoolFunction) : Task := ⟨target, {target}, proper⟩

abbrev of (target : BoolFunction) : Task := given True target

/-- What cannot be done at all. -/
def impossible : Task := ⟨fun _ => false, ∅, False⟩

/-- The scope has what the task needs and allows it to fail if it has to. -/
structure Covered (task : Task) (scope : Scope) : Prop where
  needs : task.needs ⊆ scope.family
  allows : ¬ task.proper → ∀ fault, scope.allows fault

/-- The edge stands for the function of the task, and the store has all that the task needs. -/
structure Done (task : Task) (edge : Edge) (store : Store Node) : Prop where
  represents : store.Represents edge task.target
  needs : task.needs ⊆ store.functions
  proper : task.proper

variable {task : Task} {scope : Scope} {store after : Store Node} {edge other : Edge}

theorem covered_any (task : Task) : task.Covered .any :=
  ⟨fun _ _ => trivial, fun _ _ => trivial⟩

theorem covered_faultless (proper : task.proper) : task.Covered .faultless :=
  ⟨fun _ _ => trivial, fun improper => absurd proper improper⟩

theorem covered_of {target : BoolFunction} (member : target ∈ scope.family) :
    (of target).Covered scope :=
  ⟨Set.singleton_subset_iff.mpr member, fun improper => absurd trivial improper⟩

theorem Covered.mem {proper : Prop} {target : BoolFunction}
    (covered : (given proper target).Covered scope) : target ∈ scope.family :=
  covered.needs rfl

theorem done_given {proper : Prop} {target : BoolFunction} (holds : proper)
    (represents : store.Represents edge target) : (given proper target).Done edge store :=
  ⟨represents, Set.singleton_subset_iff.mpr represents.mem_functions, holds⟩

theorem done_of {target : BoolFunction} (represents : store.Represents edge target) :
    (of target).Done edge store :=
  done_given trivial represents

theorem Done.live (done : task.Done edge store) : store.Live edge := done.represents.live

theorem Done.covered (done : task.Done edge store) (canonical : store.Canonical) :
    task.Covered (.stored canonical) :=
  ⟨done.needs, fun improper => absurd done.proper improper⟩

theorem Done.grow (done : task.Done edge store) (grown : store.Grown after) :
    task.Done edge after :=
  ⟨grown.represents done.represents, done.needs.trans grown.functions_subset, done.proper⟩

theorem Done.unique (canonical : store.Canonical) (first : task.Done edge store)
    (second : task.Done other store) : edge = other :=
  first.represents.unique canonical second.represents

end Task

/-! ## Remembered tasks -/

/-- Which task a key of a table stands for. -/
structure Naming (Key : Type) where
  names : Store Node → Key → Task → Prop
  grow : ∀ {before after : Store Node}, before.Grown after → ∀ {key : Key} {task : Task},
    names before key task → names after key task
  unique : ∀ {store : Store Node} {key : Key} {first second : Task},
    names store key first → names store key second → first = second

namespace Naming

variable {Key : Type}

/-- Keys that make the task by themselves. -/
def ofKey (task : Key → Task) : Naming Key where
  names _ key named := named = task key
  grow _ _ _ named := named
  unique := fun named alsoNamed => named.trans alsoNamed.symm

/-- Keys with an edge, whose function makes the task. -/
def ofEdge (edgeOf : Key → Edge) (task : Key → BoolFunction → Task) : Naming Key where
  names store key named := ∃ function, store.Represents (edgeOf key) function ∧
    named = task key function
  grow grown := fun ⟨function, represents, named⟩ =>
    ⟨function, grown.represents represents, named⟩
  unique := by
    rintro store key _ _ ⟨function, represents, rfl⟩ ⟨other, alsoRepresents, rfl⟩
    rw [represents.function_eq alsoRepresents]

/-- Keys of two edges, whose functions make the task. -/
def ofPair (task : BoolFunction → BoolFunction → Task) : Naming (Edge × Edge) where
  names store key named := ∃ first second, store.Represents key.1 first ∧
    store.Represents key.2 second ∧ named = task first second
  grow grown := fun ⟨first, second, onFirst, onSecond, named⟩ =>
    ⟨first, second, grown.represents onFirst, grown.represents onSecond, named⟩
  unique := by
    rintro store key _ _ ⟨first, second, onFirst, onSecond, rfl⟩
      ⟨other, another, alsoFirst, alsoSecond, rfl⟩
    rw [onFirst.function_eq alsoFirst, onSecond.function_eq alsoSecond]

/-- Under a key stands the edge of its task, which has been done. -/
def entry (naming : Naming Key) (store : Store Node) (key : Key) (edge : Edge) : Prop :=
  ∃ task, naming.names store key task ∧ task.Done edge store

theorem stable (naming : Naming Key) : Stable naming.entry where
  grow grown _ _ := fun ⟨task, named, done⟩ => ⟨task, naming.grow grown named, done.grow grown⟩

variable {Layer : Type → Type} [Monad Layer] [MonadLiftT (EStateM Fault Manager) Layer]
  [BEq Key] [Hashable Key] {layer : Steadiness Layer} {scope : Scope} {store : Store Node}

/-- The layer of actions that remember tasks. -/
abbrev remembers (naming : Naming Key) (layer : Steadiness Layer) :
    Steadiness (StateT (Memo Key Edge) Layer) :=
  layer.memo naming.stable

/-- A task may be remembered under its key. -/
theorem remember [LawfulBEq Key] (naming : Naming Key) {key : Key} {task : Task}
    {work : StateT (Memo Key Edge) Layer Edge} (canonical : store.Canonical)
    (named : naming.names store key task) (covered : task.Covered scope)
    (working : ∀ scope, task.Covered scope →
      Confined (naming.remembers layer) scope work store task.Done) :
    Confined (naming.remembers layer) scope (remembering key work) store task.Done := by
  refine Confined.remember task.Covered canonical ?_ ?_ ?_ covered working
  · rintro edge done other ⟨same, alsoNamed, alsoDone⟩
    rw [naming.unique alsoNamed named] at alsoDone
    exact alsoDone.unique canonical done
  · exact fun edge after grown done => ⟨task, naming.grow grown named, done⟩
  · rintro edge ⟨same, alsoNamed, alsoDone⟩
    rw [naming.unique alsoNamed named] at alsoDone
    exact alsoDone.covered canonical

end Naming

end DecisionDiagram.Manager
