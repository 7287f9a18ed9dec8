import DecisionDiagram.Proofs.Manager.Apply
import DecisionDiagram.Proofs.Manager.Reach
import DecisionDiagram.Proofs.Manager.Task

/-!
# Actions that cost nothing when they are done again

A result is settled when the action yields it again in every store that has all that is stored by
then, and takes no slot for it. A repeatable action is confined and leaves none but settled results.
Confined actions are repeatable if their results show that all they needed is stored
(`Repeatable.of_confined`), and so are actions that are put together of repeatable ones.
-/

set_option autoImplicit false

namespace DecisionDiagram.Manager

variable {Result Next : Type} {scope : Scope} {store middle after : Store Node}
  {action : Action Result} {next : Result → Action Next} {post : Result → Store Node → Prop}
  {atEnd : Next → Store Node → Prop}

/-- In every store that has grown from this one, the action yields the result and changes nothing. -/
def Settled (action : Action Result) (result : Result) (store : Store Node) : Prop :=
  ∀ later, store.Grown later → Steady action later (· = .ok result) later

/-- The action is confined, and by the time that it returns its result is settled. -/
def Repeatable (scope : Scope) (action : Action Result) (store : Store Node)
    (post : Result → Store Node → Prop) : Prop :=
  ∃ outcome after, Steady action store (· = outcome) after ∧ Built scope store outcome after post ∧
    ∀ result, outcome = .ok result → Settled action result after

theorem Settled.bind {result : Result} {last : Next} (first : Settled action result middle)
    (second : Settled (next result) last after) (grown : middle.Grown after) :
    Settled (action >>= next) last after := by
  intro later more
  refine (first later (grown.trans more)).bind ?_ fun _ impossible => nomatch impossible
  rintro _ ⟨⟩
  exact second later more

namespace Repeatable

theorem confined (repeatable : Repeatable scope action store post) :
    Confined steady scope action store post := by
  obtain ⟨outcome, after, run, built, _⟩ := repeatable
  exact ⟨outcome, after, run, built⟩

theorem pure (canonical : store.Canonical) {result : Result} (holds : post result store) :
    Repeatable scope (pure result) store post := by
  refine ⟨.ok result, store, Steady.pure rfl, .returns canonical holds, ?_⟩
  rintro _ ⟨⟩
  exact fun _ _ => Steady.pure rfl

theorem throw (canonical : store.Canonical) {fault : Fault} (holds : scope.allows fault) :
    Repeatable scope (throw fault : Action Result) store post :=
  ⟨.error fault, store, Steady.read (.error fault), .fails canonical holds,
    fun _ impossible => nomatch impossible⟩

theorem weaken {stronger : Result → Store Node → Prop}
    (repeatable : Repeatable scope action store stronger)
    (onResult : ∀ result after, store.Grown after → stronger result after → post result after) :
    Repeatable scope action store post := by
  obtain ⟨outcome, after, run, built, settles⟩ := repeatable
  exact ⟨outcome, after, run, built.weaken fun result => onResult result after, settles⟩

theorem bind (first : Repeatable scope action store post)
    (second : ∀ result after, store.Grown after → post result after →
      Repeatable scope (next result) after atEnd) :
    Repeatable scope (action >>= next) store atEnd := by
  obtain ⟨outcome, middle, run, built, settles⟩ := first
  cases outcome with
  | ok result =>
    obtain ⟨last, after, rest, more, settlesLast⟩ :=
      second result middle built.grown (built.returned result rfl)
    have whole : Steady (action >>= next) store (· = last) after := by
      refine run.bind ?_ fun _ impossible => nomatch impossible
      rintro _ ⟨⟩
      exact rest
    refine ⟨last, after, whole, built.trans more, fun final isFinal => ?_⟩
    exact (settles result rfl).bind (settlesLast final isFinal) more.grown
  | error fault =>
    refine ⟨.error fault, middle, run.bind (fun _ impossible => nomatch impossible) ?_, built.stops,
      fun _ impossible => nomatch impossible⟩
    rintro _ ⟨⟩
    exact ⟨rfl, rfl⟩

/-- A question that may have no answer, where its faults are allowed. -/
theorem read_bind {question : Except Fault Result} (canonical : store.Canonical)
    (onFault : ∀ fault, question = .error fault → scope.allows fault)
    (rest : ∀ result, question = .ok result → Repeatable scope (next result) store atEnd) :
    Repeatable scope (liftM question >>= next) store atEnd := by
  cases answer : question with
  | ok result =>
    have asked : Repeatable scope (liftM (Except.ok result : Except Fault Result) : Action Result)
        store fun found after => found = result ∧ after = store := pure canonical ⟨rfl, rfl⟩
    apply asked.bind
    rintro _ _ _ ⟨rfl, rfl⟩
    exact rest _ answer
  | error fault =>
    have asked : Repeatable scope (liftM (Except.error fault : Except Fault Result) : Action Result)
        store fun _ _ => False := throw canonical (onFault fault answer)
    exact asked.bind fun _ _ _ impossible => impossible.elim

/-- Done again, the action is confined to what is stored already. So it changes nothing, and its
result is the same. -/
theorem of_confined (needed : Scope → Prop) (canonical : store.Canonical) (afresh : needed scope)
    (working : ∀ scope later, store.Grown later → needed scope →
      Confined steady scope action later post)
    (lasts : ∀ result {before after : Store Node}, before.Grown after → post result before →
      post result after)
    (again : ∀ result later (grown : store.Grown later), post result later →
      needed (.stored grown.canonical))
    (same : ∀ result other later, later.Canonical → post result later → post other later →
      other = result) : Repeatable scope action store post := by
  obtain ⟨outcome, after, run, built⟩ := working scope store (.refl canonical) afresh
  refine ⟨outcome, after, run, built, fun result isResult later more => ?_⟩
  have grown := built.grown.trans more
  have kept := lasts result more (built.returned result isResult)
  obtain ⟨_, last, rerun, done⟩ := working _ later grown (again result later grown kept)
  obtain ⟨unchanged, other, rfl, otherKept⟩ := done.of_stored grown.canonical
  rw [unchanged, same result other later grown.canonical kept otherKept] at rerun
  exact rerun

/-- What was needed for a task that is done is stored. -/
theorem of_task {task : Task} {action : Action Edge} (canonical : store.Canonical)
    (covered : task.Covered scope)
    (working : ∀ scope later, store.Grown later → task.Covered scope →
      Confined steady scope action later task.Done) :
    Repeatable scope action store task.Done :=
  of_confined task.Covered canonical covered working (fun _ _ _ grown done => done.grow grown)
    (fun _ _ grown done => done.covered grown.canonical)
    fun _ _ _ canonical done other => other.unique canonical done

/-- Actions for the items of a list give a result for each of them, and all results have a lasting
property. -/
theorem mapM {Item : Type} {action : Item → Action Next} (property : Next → Store Node → Prop)
    (lasts : ∀ value {before after : Store Node}, before.Grown after → property value before →
      property value after)
    (items : List Item) (canonical : store.Canonical)
    (each : ∀ item ∈ items, ∀ middle, store.Grown middle →
      Repeatable scope (action item) middle property) :
    Repeatable scope (items.mapM action) store
      fun values after => values.length = items.length ∧ ∀ value ∈ values, property value after := by
  induction items generalizing store with
  | nil => exact pure canonical ⟨rfl, fun _ member => absurd member List.not_mem_nil⟩
  | cons item rest ih =>
    rw [List.mapM_cons]
    apply (each item List.mem_cons_self store (.refl canonical)).bind
    intro value middle grown holds
    refine (ih grown.canonical fun other member later more =>
      each other (List.mem_cons_of_mem item member) later (grown.trans more)).bind ?_
    intro values after more ⟨sameLength, all⟩
    refine pure more.canonical ⟨by simp [sameLength], fun other member => ?_⟩
    rcases List.mem_cons.mp member with rfl | known
    · exact lasts other more holds
    · exact all other known

/-- Having returned in one manager, the action returns the same in any that still has all of it. -/
theorem run_again {manager returned later : Manager} {result : Result} (sound : manager.Sound)
    (repeatable : Repeatable scope action manager.store post)
    (run : action manager = .ok result returned) (laterSound : later.Sound)
    (grown : returned.store.Grown later.store) :
    ∃ last, action later = .ok result last ∧ last.store = later.store := by
  obtain ⟨_, after, steadily, _, settles⟩ := repeatable
  obtain ⟨outcome, middle, ran, _, isAfter, rfl⟩ := steadily manager sound rfl
  rw [run] at ran
  cases outcome with
  | ok found =>
    cases ran
    rw [isAfter] at grown
    obtain ⟨_, last, again, _, unchanged, rfl⟩ := settles result rfl _ grown later laterSound rfl
    exact ⟨last, again, unchanged⟩
  | error fault => cases ran

end Repeatable

/-! ## Single operations -/

theorem literal_repeatable (canonical : store.Canonical) (number : Int)
    (covered : (Task.given (Literal number) (literalFunction number)).Covered scope) :
    Repeatable scope (literal number) store
      (Task.given (Literal number) (literalFunction number)).Done := by
  refine Repeatable.of_task canonical covered fun scope later grown covered => ?_
  exact (literal_confined grown.canonical number (fun _ => covered.mem) covered.allows).weaken
    fun _ _ _ done => Task.done_given done.1 done.2

theorem apply_repeatable (connective : Connective) {first second : Edge} {f g : BoolFunction}
    (canonical : store.Canonical) (represents : store.Represents first f)
    (representsSecond : store.Represents second g) (member : connective.on f g ∈ scope.family) :
    Repeatable scope (apply connective first second) store (Task.of (connective.on f g)).Done := by
  refine Repeatable.of_task canonical (Task.covered_of member) fun scope later grown covered => ?_
  exact (apply_confined connective grown.canonical (grown.represents represents)
    (grown.represents representsSecond) covered.mem).weaken fun _ _ _ => Task.done_of

/-- A size stays the same while the store grows. -/
theorem size_repeatable {edge : Edge} (canonical : store.Canonical) (live : store.Live edge) :
    Repeatable scope (size edge) store fun count after =>
      after.Live edge ∧ count = (after.below [edge]).ncard := by
  refine Repeatable.of_confined (fun _ => True) canonical trivial ?_ ?_ (fun _ _ _ _ => trivial) ?_
  · intro scope later grown _
    refine (size_confined grown.canonical (grown.live live)).weaken ?_
    rintro count _ _ ⟨isCount, rfl⟩
    exact ⟨grown.live live, isCount⟩
  · rintro count before after grown ⟨live, rfl⟩
    refine ⟨grown.live live, ?_⟩
    rw [grown.more.below_eq grown.origin (List.forall_mem_singleton.mpr live)]
  · rintro count other later _ ⟨_, rfl⟩ ⟨_, rfl⟩
    rfl

end DecisionDiagram.Manager
