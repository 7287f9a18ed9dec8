import DecisionDiagram.Proofs.Diagram.Functions
import DecisionDiagram.Proofs.Manager.Steady

/-!
# Actions confined to a family of functions

`Confined` is the contract of every operation that builds nodes. A confined action is steady, it
adds functions of a family only, and where it adds none it leaves the store as it is. It may run out
of space only while a function of the family is missing. So an action that is confined to functions
that the store has already neither changes the store nor fails, and it may as well be skipped when
its answer is remembered (`Confined.reuse`).
-/

set_option autoImplicit false

namespace DecisionDiagram.Manager

/-- Every fault is allowed. -/
def AnyFault : Fault → Prop := fun _ => True

/-- The functions that an action may add, and the faults that it may end with although there is
space. -/
structure Scope where
  family : Set BoolFunction
  closed : Closed family
  allows : Fault → Prop

namespace Scope

/-- Every function and every fault. -/
def any : Scope := ⟨Set.univ, closed_univ, AnyFault⟩

/-- Every function, and no fault but that of a full store. -/
def faultless : Scope := ⟨Set.univ, closed_univ, fun _ => False⟩

theorem mem_any (function : BoolFunction) : function ∈ any.family := trivial

theorem mem_faultless (function : BoolFunction) : function ∈ faultless.family := trivial

/-- The functions that the store has, and no fault. -/
def stored {store : Store Node} (canonical : store.Canonical) : Scope :=
  ⟨store.functions, canonical.closed_functions, fun _ => False⟩

end Scope

variable {Result Next : Type} {scope : Scope} {store after : Store Node}
  {post stronger : Result → Store Node → Prop} {atEnd : Next → Store Node → Prop}

/-- No slot is left, and some function of the family has none. -/
structure Exhausted (family : Set BoolFunction) (fault : Fault) (after : Store Node) : Prop where
  fault_eq : fault = .storageFull after.capacity
  full : after.Full
  lacks : ∃ function ∈ family, function ∉ after.functions

/-- What an action within a scope makes of a store. -/
structure Built (scope : Scope) (before : Store Node) (outcome : Except Fault Result)
    (after : Store Node) (post : Result → Store Node → Prop) : Prop where
  grown : before.Grown after
  within : after.functions ⊆ before.functions ∪ scope.family
  unchanged : after.functions ⊆ before.functions → after = before
  returned : ∀ result, outcome = .ok result → post result after
  faulted : ∀ fault, outcome = .error fault →
    Exhausted scope.family fault after ∨ scope.allows fault

namespace Built

variable {before middle : Store Node} {outcome : Except Fault Next}

theorem returns (canonical : store.Canonical) {result : Result} (holds : post result store) :
    Built scope store (.ok result) store post where
  grown := .refl canonical
  within := Set.subset_union_left
  unchanged _ := rfl
  returned := by
    rintro _ ⟨⟩
    exact holds
  faulted _ impossible := nomatch impossible

theorem fails (canonical : store.Canonical) {fault : Fault} (holds : scope.allows fault) :
    Built scope store (.error fault) store post where
  grown := .refl canonical
  within := Set.subset_union_left
  unchanged _ := rfl
  returned _ impossible := nomatch impossible
  faulted := by
    rintro _ ⟨⟩
    exact Or.inr holds

theorem weaken {outcome : Except Fault Result} (built : Built scope store outcome after stronger)
    (onResult : ∀ result, store.Grown after → stronger result after → post result after) :
    Built scope store outcome after post :=
  { built with
    returned := fun result same => onResult result built.grown (built.returned result same) }

theorem trans {result : Result} (first : Built scope before (.ok result) middle post)
    (second : Built scope middle outcome after atEnd) : Built scope before outcome after atEnd where
  grown := first.grown.trans second.grown
  within := by
    intro function member
    rcases second.within member with known | new
    · exact first.within known
    · exact Or.inr new
  unchanged := by
    intro same
    have sameMiddle := first.unchanged (second.grown.functions_subset.trans same)
    rw [← sameMiddle]
    apply second.unchanged
    rw [sameMiddle]
    exact same
  returned := second.returned
  faulted := second.faulted

theorem stops {fault : Fault} (built : Built scope store (.error fault) after post) :
    Built scope store (.error fault) after atEnd :=
  { built with
    returned := fun _ impossible => nomatch impossible
    faulted := fun other same => built.faulted other (congrArg _ (Except.error.inj same)) }

/-- Where all functions are there already, nothing changes and nothing fails. -/
theorem of_stored (canonical : store.Canonical) {outcome : Except Fault Result}
    (built : Built (.stored canonical) store outcome after post) :
    after = store ∧ ∃ result, outcome = .ok result ∧ post result store := by
  have same : after = store := built.unchanged fun function member =>
    (built.within member).elim id id
  subst same
  cases outcome with
  | ok result => exact ⟨rfl, result, rfl, built.returned result rfl⟩
  | error fault =>
    rcases built.faulted fault rfl with exhausted | impossible
    · obtain ⟨function, member, absent⟩ := exhausted.lacks
      exact absurd member absent
    · exact impossible.elim

/-- Where all functions of the family but one, up to complement, are there already, one free slot is
enough. -/
theorem returns_of_room {function : BoolFunction} {outcome : Except Fault Result}
    (built : Built scope before outcome after post) (room : ¬before.Full)
    (faultless : ∀ fault, ¬scope.allows fault)
    (few : ∀ other ∈ scope.family, other ∈ before.functions ∨ other = function ∨
      other = fun valuation => !function valuation) :
    ∃ result, outcome = .ok result ∧ post result after := by
  cases outcome with
  | ok result => exact ⟨result, rfl, built.returned result rfl⟩
  | error fault =>
    obtain ⟨_, full, missing, member, absent⟩ :=
      (built.faulted fault rfl).resolve_right (faultless fault)
    have closed := built.grown.canonical.closed_functions
    -- without the one function nothing was added, so there is a slot still
    have lacking : function ∉ after.functions := by
      intro known
      rcases few missing member with old | rfl | rfl
      · exact absent (built.grown.functions_subset old)
      · exact absent known
      · exact absent (closed.neg function known)
    have none : after.functions ⊆ before.functions := by
      intro known isThere
      rcases built.within isThere with old | new
      · exact old
      rcases few known new with old | rfl | rfl
      · exact old
      · exact absurd isThere lacking
      · exact absurd (closed.of_neg isThere) lacking
    rw [built.unchanged none] at full
    exact absurd full room

end Built

/-- The action is steady and stays within the scope, and its results have the property. -/
def Confined {Layer : Type → Type} [Monad Layer] [MonadLiftT (EStateM Fault Manager) Layer]
    (layer : Steadiness Layer) (scope : Scope) (action : Layer Result) (store : Store Node)
    (post : Result → Store Node → Prop) : Prop :=
  ∃ outcome after, layer.holds action store (· = outcome) after ∧ Built scope store outcome after post

namespace Confined

/-! ## Steps without a table -/

theorem ask {question : Manager → Except Fault Result} {result : Result}
    (canonical : store.Canonical) (plain : Plain question)
    (answer : question (bare store) = .ok result) (holds : post result store) :
    Confined steady scope (Manager.ask question) store post :=
  ⟨_, _, Steady.ask plain, by rw [answer]; exact .returns canonical holds⟩

theorem read {question : Except Fault Result} {result : Result} (canonical : store.Canonical)
    (answer : question = .ok result) (holds : post result store) :
    Confined steady scope (liftM question) store post :=
  ⟨_, _, Steady.read question, by rw [answer]; exact .returns canonical holds⟩

theorem throw (canonical : store.Canonical) {fault : Fault} (holds : scope.allows fault) :
    Confined steady scope (throw fault : Action Result) store post :=
  ⟨.error fault, store, Steady.read (.error fault), .fails canonical holds⟩

theorem throw_bind {next : Result → Action Next} (canonical : store.Canonical) {fault : Fault}
    (holds : scope.allows fault) :
    Confined steady scope ((MonadExcept.throw fault : Action Result) >>= next) store atEnd :=
  ⟨.error fault, store, Steady.bind (Steady.read (.error fault))
    (fun _ impossible => nomatch impossible) (by rintro _ ⟨⟩; exact ⟨rfl, rfl⟩),
    .fails canonical holds⟩

theorem changeCaches (canonical : store.Canonical) {change : Caches → Caches}
    (keeps : ∀ caches, CachesSound store caches → CachesKept store caches (change caches)) :
    Confined steady scope (Manager.changeCaches change) store fun _ after => after = store :=
  ⟨_, _, Steady.changeCaches keeps, .returns canonical rfl⟩

/-! ## Steps in any layer -/

section

variable {Layer : Type → Type} [Monad Layer] [MonadLiftT (EStateM Fault Manager) Layer]
  {layer : Steadiness Layer} {action : Layer Result} {next : Result → Layer Next}

theorem pure (canonical : store.Canonical) {result : Result} (holds : post result store) :
    Confined layer scope (pure result) store post :=
  ⟨_, _, layer.pure rfl, .returns canonical holds⟩

theorem weaken (confined : Confined layer scope action store stronger)
    (onResult : ∀ result after, store.Grown after → stronger result after → post result after) :
    Confined layer scope action store post := by
  obtain ⟨outcome, after, run, built⟩ := confined
  exact ⟨outcome, after, run, built.weaken fun result => onResult result after⟩

/-- What follows starts in the store that the first action left. -/
theorem bind (first : Confined layer scope action store post)
    (second : ∀ result after, store.Grown after → post result after →
      Confined layer scope (next result) after atEnd) :
    Confined layer scope (action >>= next) store atEnd := by
  obtain ⟨outcome, middle, run, built⟩ := first
  cases outcome with
  | ok result =>
    obtain ⟨last, after, rest, more⟩ :=
      second result middle built.grown (built.returned result rfl)
    refine ⟨last, after, layer.bind run ?_ ?_, built.trans more⟩
    · rintro _ ⟨⟩
      exact rest
    · exact fun _ impossible => nomatch impossible
  | error fault =>
    refine ⟨.error fault, middle, layer.bind run ?_ ?_, built.stops⟩
    · exact fun _ impossible => nomatch impossible
    · rintro _ ⟨⟩
      exact ⟨rfl, rfl⟩

theorem lift {action : Action Result} (confined : Confined steady scope action store post) :
    Confined layer scope (liftM action) store post := by
  obtain ⟨outcome, after, run, built⟩ := confined
  exact ⟨outcome, after, layer.lift built.grown run, built⟩

/-- A look that decides how to go on, where all ways to go on come to the same. -/
theorem look_bind {look : Action Result} {sees : Result → Prop} (canonical : store.Canonical)
    (looks : Steady look store (Returns sees) store)
    (rest : ∃ outcome after, (∀ result, sees result →
      layer.holds (next result) store (· = outcome) after) ∧ Built scope store outcome after atEnd) :
    Confined layer scope (liftM look >>= next) store atEnd := by
  obtain ⟨outcome, after, all, built⟩ := rest
  exact ⟨outcome, after, layer.bind (layer.lift (.refl canonical) looks) all
    fun _ impossible => impossible.elim, built⟩

theorem get_bind {next : Manager → Layer Next} {same : Layer Next} (canonical : store.Canonical)
    (agree : ∀ manager : Manager, manager.store = store → next manager = same)
    (rest : Confined layer scope same store atEnd) :
    Confined layer scope (liftM (get : Action Manager) >>= next) store atEnd := by
  obtain ⟨outcome, after, run, built⟩ := rest
  refine look_bind canonical Steady.get ⟨outcome, after, fun manager isBare => ?_, built⟩
  rw [agree manager isBare]
  exact run

/-- A question to the store that has an answer. -/
theorem ask_bind {question : Manager → Except Fault Result} {result : Result}
    (canonical : store.Canonical) (plain : Plain question)
    (answer : question (bare store) = .ok result)
    (rest : Confined layer scope (next result) store atEnd) :
    Confined layer scope (liftM (Manager.ask question) >>= next) store atEnd := by
  have asked : Confined steady scope (Manager.ask question) store
      fun found after => found = result ∧ after = store := ask canonical plain answer ⟨rfl, rfl⟩
  apply bind (lift asked)
  rintro _ _ _ ⟨rfl, rfl⟩
  exact rest

theorem read_bind {question : Except Fault Result} {result : Result} (canonical : store.Canonical)
    (answer : question = .ok result) (rest : Confined layer scope (next result) store atEnd) :
    Confined layer scope (liftM (liftM question : Action Result) >>= next) store atEnd := by
  have asked : Confined steady scope (liftM question) store
      fun found after => found = result ∧ after = store := read canonical answer ⟨rfl, rfl⟩
  apply bind (lift asked)
  rintro _ _ _ ⟨rfl, rfl⟩
  exact rest

/-- A question that may have no answer, where its faults are allowed. -/
theorem ask_any {question : Manager → Except Fault Result} (canonical : store.Canonical)
    (plain : Plain question)
    (onFault : ∀ fault, question (bare store) = .error fault → scope.allows fault)
    (rest : ∀ result, question (bare store) = .ok result →
      Confined layer scope (next result) store atEnd) :
    Confined layer scope (liftM (Manager.ask question) >>= next) store atEnd := by
  cases answer : question (bare store) with
  | ok result => exact ask_bind canonical plain answer (rest result answer)
  | error fault =>
    have asked : Confined steady scope (Manager.ask question) store fun _ _ => False :=
      ⟨_, _, Steady.ask plain, by rw [answer]; exact .fails canonical (onFault fault answer)⟩
    exact bind (lift asked) fun _ _ _ impossible => impossible.elim

theorem read_any {question : Except Fault Result} (canonical : store.Canonical)
    (onFault : ∀ fault, question = .error fault → scope.allows fault)
    (rest : ∀ result, question = .ok result → Confined layer scope (next result) store atEnd) :
    Confined layer scope (liftM (liftM question : Action Result) >>= next) store atEnd := by
  cases answer : question with
  | ok result => exact read_bind canonical rfl (rest result answer)
  | error fault =>
    have asked : Confined steady scope (liftM (Except.error fault) : Action Result) store
        fun _ _ => False :=
      ⟨_, _, Steady.read _, .fails canonical (onFault fault answer)⟩
    exact bind (lift asked) fun _ _ _ impossible => impossible.elim

/-- An answer that may be remembered. Where it is, the work would come to it again: it finds all
its functions in the store. -/
theorem reuse {action work : Layer Edge} {post : Edge → Store Node → Prop} (known : Prop)
    (canonical : store.Canonical)
    (answered : known → ∀ edge, post edge store → layer.holds work store (· = .ok edge) store →
      layer.holds action store (· = .ok edge) store)
    (worked : ¬ known → ∀ outcome after, Built scope store outcome after post →
      layer.holds work store (· = outcome) after → layer.holds action store (· = outcome) after)
    (again : known → Confined layer (.stored canonical) work store post)
    (afresh : Confined layer scope work store post) : Confined layer scope action store post := by
  by_cases isKnown : known
  · obtain ⟨outcome, after, run, built⟩ := again isKnown
    obtain ⟨rfl, edge, rfl, holds⟩ := built.of_stored canonical
    exact ⟨_, _, answered isKnown edge holds run, .returns canonical holds⟩
  · obtain ⟨outcome, after, run, built⟩ := afresh
    exact ⟨outcome, after, worked isKnown outcome after built run, built⟩

/-! ## Tables -/

section

variable {Key : Type} [BEq Key] [Hashable Key] {entry : Store Node → Key → Edge → Prop}
  {stable : Stable entry}

/-- The answer under a key may be remembered in the table. -/
theorem remember [LawfulBEq Key] {key : Key} {work : StateT (Memo Key Edge) Layer Edge}
    {post : Edge → Store Node → Prop} (needed : Scope → Prop) (canonical : store.Canonical)
    (same : ∀ edge, post edge store → ∀ other, entry store key other → other = edge)
    (right : ∀ edge after, store.Grown after → post edge after → entry after key edge)
    (again : ∀ edge, entry store key edge → needed (.stored canonical)) (afresh : needed scope)
    (working : ∀ scope, needed scope → Confined (layer.memo stable) scope work store post) :
    Confined (layer.memo stable) scope (remembering key work) store post := by
  refine reuse (∃ edge, entry store key edge) canonical ?_ ?_
    (fun known => working _ (known.elim again)) (working scope afresh)
  · intro _ edge holds run
    apply layer.remembering
    · exact fun other found => ⟨rfl, congrArg _ (same edge holds other found)⟩
    · refine (layer.memo stable).weaken run ?_
      rintro _ rfl
      refine ⟨rfl, ?_⟩
      rintro _ ⟨⟩
      exact right edge store (.refl canonical) holds
  · intro unknown outcome after built run
    apply layer.remembering
    · exact fun other found => absurd ⟨other, found⟩ unknown
    · refine (layer.memo stable).weaken run ?_
      rintro _ rfl
      exact ⟨rfl, fun edge isEdge => right edge after built.grown (built.returned edge isEdge)⟩

theorem below {action : Layer Result} (confined : Confined layer scope action store post) :
    Confined (layer.memo stable) scope (StateT.lift action) store post := by
  obtain ⟨outcome, after, run, built⟩ := confined
  exact ⟨outcome, after, layer.below built.grown run, built⟩

theorem withMemo [LawfulMonad Layer] [MonadStateOf Manager Layer]
    {action : StateT (Memo Key Edge) Layer Result}
    (reads : layer.holds (getThe Manager) store (Returns fun _ => True) store)
    (confined : Confined (layer.memo stable) scope action store post) :
    Confined layer scope (withMemo action) store post := by
  obtain ⟨outcome, after, run, built⟩ := confined
  exact ⟨outcome, after, layer.withMemo reads run, built⟩

end

end

theorem withMemo_steady {Key : Type} [BEq Key] [Hashable Key]
    {entry : Store Node → Key → Edge → Prop} {stable : Stable entry} {action : Memoized Key Result}
    (confined : Confined (steady.memo stable) scope action store post) :
    Confined steady scope (Manager.withMemo action) store post :=
  withMemo Steady.getThe confined

/-! ## Caches -/

section

variable {action : Action Result}

/-- The answer may be remembered in the caches. -/
theorem consult {look : Caches → Option Edge × Caches} {entry : Edge → Prop}
    {answer : Option Edge → Action Edge} {post : Edge → Store Node → Prop}
    (needed : Scope → Prop) (canonical : store.Canonical)
    (looks : ∀ caches, CachesSound store caches → CachesKept store caches (look caches).2 ∧
      ∀ edge, (look caches).1 = some edge → entry edge)
    (same : ∀ edge, post edge store → ∀ other, entry other →
      Steady (answer (some other)) store (· = .ok edge) store)
    (again : ∀ edge, entry edge → needed (.stored canonical)) (afresh : needed scope)
    (working : ∀ scope, needed scope → Confined steady scope (answer none) store post) :
    Confined steady scope (onCaches look >>= answer) store post := by
  have looking : Steady (onCaches look) store
      (Returns fun remembered => ∀ edge, remembered = some edge → entry edge) store :=
    Steady.onCaches looks
  refine reuse (∃ edge, entry edge) canonical ?_ ?_
    (fun known => working _ (known.elim again)) (working scope afresh)
  · intro _ edge holds run
    refine looking.bind ?_ fun _ impossible => impossible.elim
    intro remembered entries
    cases remembered with
    | none => exact run
    | some other => exact same edge holds other (entries other rfl)
  · intro unknown outcome after _ run
    refine looking.bind ?_ fun _ impossible => impossible.elim
    intro remembered entries
    cases remembered with
    | none => exact run
    | some other => exact absurd ⟨other, entries other rfl⟩ unknown

end

end Confined

/-! ## In one manager -/

/-- How a confined action ends in a sound manager. -/
theorem Confined.run {action : Action Result} {manager : Manager} (sound : manager.Sound)
    (confined : Confined steady scope action manager.store post) :
    ∃ outcome after, action manager = ending outcome after ∧ manager.GrowsTo after ∧
      Built scope manager.store outcome after.store post := by
  obtain ⟨outcome, after, steadily, built⟩ := confined
  obtain ⟨_, later, ran, grows, rfl, rfl⟩ := steadily manager sound rfl
  exact ⟨_, later, ran, grows, built⟩

/-- The store has no slot left, and the fault says so. -/
def OutOfSpace (fault : Fault) (after : Manager) : Prop :=
  fault = .storageFull after.store.capacity ∧ after.store.Full

/-- Whether it returns or faults, the action leaves a sound manager in which nothing is lost. -/
def Constructs (action : Action Result) (before : Manager) (post : Result → Manager → Prop)
    (allowed : Fault → Prop) : Prop :=
  Leads action before (fun result after => before.GrowsTo after ∧ post result after)
    fun fault after => before.GrowsTo after ∧ (OutOfSpace fault after ∨ allowed fault)

theorem Constructs.outOfSpace {action : Action Result} {before after : Manager}
    {post : Result → Manager → Prop} {fault : Fault}
    (constructs : Constructs action before post fun _ => False)
    (run : action before = .error fault after) : OutOfSpace fault after := by
  obtain ⟨_, full | impossible⟩ := constructs.fault fault after run
  · exact full
  · exact impossible.elim

/-- What a confined action does to a sound manager. -/
theorem Confined.constructs {action : Action Result} {manager : Manager} (sound : manager.Sound)
    {allowed : Fault → Prop} (confined : Confined steady scope action manager.store post)
    (onFault : ∀ fault, scope.allows fault → allowed fault) :
    Constructs action manager (fun result after => post result after.store) allowed := by
  obtain ⟨outcome, after, run, grows, built⟩ := confined.run sound
  cases outcome with
  | ok result => exact Leads.of_ok run ⟨grows, built.returned result rfl⟩
  | error fault =>
    refine Leads.of_error run ⟨grows, (built.faulted fault rfl).imp ?_ (onFault fault)⟩
    exact fun exhausted => ⟨exhausted.fault_eq, exhausted.full⟩

theorem Confined.constructs_faultless {action : Action Result} {manager : Manager}
    (sound : manager.Sound) {allowed : Fault → Prop}
    (confined : Confined steady .faultless action manager.store post) :
    Constructs action manager (fun result after => post result after.store) allowed :=
  confined.constructs sound fun _ impossible => impossible.elim

end DecisionDiagram.Manager
