import DecisionDiagram.Manager.Memoized
import DecisionDiagram.Proofs.Action
import DecisionDiagram.Proofs.Diagram.Functions
import DecisionDiagram.Proofs.Manager.Sound

/-!
# Outcomes that do not depend on the caches

A steady action comes to one outcome and leaves one store in all sound managers over the same store,
whatever their caches hold. A table that lives as long as a call is one more layer of state. What a
layer has to offer for reasoning step by step is a `Steadiness`, and `Steadiness.memo` puts a table
of right entries on top of one. So an action with two tables is reasoned about in the way of an
action with none.
-/

set_option autoImplicit false

namespace DecisionDiagram

/-- A canonical store that has all that another canonical store has. -/
structure Store.Grown (before after : Store Node) : Prop where
  origin : before.Canonical
  canonical : after.Canonical
  more : before.Extends after

namespace Store.Grown

variable {before middle after : Store Node} {edge : Edge} {function : BoolFunction}

theorem refl (canonical : before.Canonical) : before.Grown before :=
  ⟨canonical, canonical, .refl _⟩

theorem trans (first : before.Grown middle) (second : middle.Grown after) : before.Grown after :=
  ⟨first.origin, second.canonical, first.more.trans second.more⟩

theorem live (grown : before.Grown after) (live : before.Live edge) : after.Live edge :=
  grown.more.live live

theorem represents (grown : before.Grown after) (represents : before.Represents edge function) :
    after.Represents edge function :=
  grown.more.represents grown.origin grown.canonical represents

theorem denote_eq (grown : before.Grown after) (live : before.Live edge) :
    after.denote edge = before.denote edge :=
  grown.more.denote_eq grown.origin grown.canonical live

theorem map_denote_eq {edges : List Edge} (grown : before.Grown after)
    (live : ∀ edge ∈ edges, before.Live edge) : edges.map after.denote = edges.map before.denote :=
  List.map_congr_left fun edge member => grown.denote_eq (live edge member)

theorem functions_subset (grown : before.Grown after) : before.functions ⊆ after.functions :=
  grown.more.functions_subset grown.origin grown.canonical

end Store.Grown

namespace Manager

theorem GrowsTo.grown {before after : Manager} (grows : before.GrowsTo after)
    (sound : before.Sound) : before.store.Grown after.store :=
  ⟨sound.canonical, grows.sound.canonical, grows.store⟩

variable {Result Next : Type} {store middle after : Store Node}

theorem ask_ok {manager : Manager} {question : Manager → Except Fault Result} {result : Result}
    (answer : question manager = .ok result) : ask question manager = .ok result manager := by
  unfold ask
  rw [answer]

theorem ask_error {manager : Manager} {question : Manager → Except Fault Result} {fault : Fault}
    (answer : question manager = .error fault) : ask question manager = .error fault manager := by
  unfold ask
  rw [answer]

/-- How an action ends that comes to an outcome. -/
def ending {State : Type} (outcome : Except Fault Result) (state : State) :
    EStateM.Result Fault State Result :=
  match outcome with
  | .ok result => .ok result state
  | .error fault => .error fault state

/-- A manager over a store that remembers nothing. -/
def bare (store : Store Node) : Manager := ⟨store, .empty true, [], true⟩

theorem bare_sound (canonical : store.Canonical) : (bare store).Sound :=
  ⟨canonical, .empty _ _, fun _ member => absurd member List.not_mem_nil⟩

/-- A question that the store alone answers. -/
def Plain (question : Manager → Except Fault Result) : Prop :=
  ∀ manager, question manager = question (bare manager.store)

/-- In every sound manager over `store` the action comes to an outcome that fits and leaves
`after`. -/
def Steady (action : Action Result) (store : Store Node) (fits : Except Fault Result → Prop)
    (after : Store Node) : Prop :=
  ∀ manager : Manager, manager.Sound → manager.store = store → ∃ outcome later,
    action manager = ending outcome later ∧ manager.GrowsTo later ∧ later.store = after ∧
      fits outcome

/-- The outcome is a result of some kind. -/
def Returns (kind : Result → Prop) : Except Fault Result → Prop
  | .ok result => kind result
  | .error _ => False

namespace Steady

variable {action : Action Result} {next : Result → Action Next}
  {fits weaker : Except Fault Result → Prop} {atEnd : Except Fault Next → Prop}

theorem pure {result : Result} (holds : fits (.ok result)) :
    Steady (pure result) store fits store :=
  fun manager sound isBare => ⟨.ok result, manager, rfl, .refl sound, isBare, holds⟩

theorem bind (first : Steady action store fits middle)
    (rest : ∀ result, fits (.ok result) → Steady (next result) middle atEnd after)
    (stops : ∀ fault, fits (.error fault) → middle = after ∧ atEnd (.error fault)) :
    Steady (action >>= next) store atEnd after := by
  intro manager sound isBare
  obtain ⟨outcome, between, run, grows, isMiddle, holds⟩ := first manager sound isBare
  cases outcome with
  | ok result =>
    obtain ⟨last, later, ran, more, isAfter, ends⟩ :=
      rest result holds between grows.sound isMiddle
    exact ⟨last, later, (bind_ok run).trans ran, grows.trans more, isAfter, ends⟩
  | error fault =>
    obtain ⟨same, ends⟩ := stops fault holds
    exact ⟨.error fault, between, bind_error run, grows, isMiddle.trans same, ends⟩

theorem weaken (run : Steady action store fits after)
    (weakens : ∀ outcome, fits outcome → weaker outcome) : Steady action store weaker after := by
  intro manager sound isBare
  obtain ⟨outcome, later, ran, grows, isAfter, holds⟩ := run manager sound isBare
  exact ⟨outcome, later, ran, grows, isAfter, weakens outcome holds⟩

/-- An action on the store alone. -/
theorem onStore {action : Store.Action Node Result} {outcome : Except Fault Result}
    (run : action store = ending outcome after) (canonical : after.Canonical)
    (more : store.Extends after) : Steady (onStore action) store (· = outcome) after := by
  rintro ⟨_, caches, pinned, recalls⟩ sound rfl
  refine ⟨outcome, ⟨after, caches, pinned, recalls⟩, ?_, .of_store sound canonical more, rfl, rfl⟩
  simp only [Manager.onStore, run]
  cases outcome <;> rfl

theorem onCaches {look : Caches → Result × Caches} {sees : Result → Prop}
    (looks : ∀ caches, CachesSound store caches →
      CachesKept store caches (look caches).2 ∧ sees (look caches).1) :
    Steady (onCaches look) store (Returns sees) store := by
  rintro ⟨_, caches, pinned, recalls⟩ sound rfl
  obtain ⟨kept, seen⟩ := looks caches sound.caches
  exact ⟨.ok _, _, rfl, .of_caches sound kept, rfl, seen⟩

theorem changeCaches {change : Caches → Caches}
    (keeps : ∀ caches, CachesSound store caches → CachesKept store caches (change caches)) :
    Steady (changeCaches change) store (· = .ok ()) store := by
  rintro ⟨_, caches, pinned, recalls⟩ sound rfl
  exact ⟨_, _, rfl, .of_caches sound (keeps caches sound.caches), rfl, rfl⟩

theorem get : Steady (get : Action Manager) store (Returns fun manager => manager.store = store)
    store :=
  fun manager sound isBare => ⟨.ok manager, manager, rfl, .refl sound, isBare, isBare⟩

theorem getThe : Steady (getThe Manager) store (Returns fun _ => True) store :=
  get.weaken fun outcome => by cases outcome <;> simp [Returns]

theorem ask {question : Manager → Except Fault Result} (plain : Plain question) :
    Steady (ask question) store (· = question (bare store)) store := by
  rintro manager sound rfl
  refine ⟨_, manager, ?_, .refl sound, rfl, rfl⟩
  unfold Manager.ask
  rw [plain manager]
  cases question (bare manager.store) <;> rfl

theorem read (question : Except Fault Result) :
    Steady (liftM question) store (· = question) store := by
  intro manager sound isBare
  refine ⟨question, manager, ?_, .refl sound, isBare, rfl⟩
  cases question <;> rfl

end Steady

/-! ## Layers -/

/-- A way of stating that an action is steady. -/
structure Steadiness (Layer : Type → Type) [Monad Layer]
    [MonadLiftT (EStateM Fault Manager) Layer] where
  holds : ∀ {Result : Type}, Layer Result → Store Node → (Except Fault Result → Prop) →
    Store Node → Prop
  pure : ∀ {Result : Type} {result : Result} {store : Store Node}
    {fits : Except Fault Result → Prop}, fits (.ok result) → holds (pure result) store fits store
  bind : ∀ {Result Next : Type} {action : Layer Result} {next : Result → Layer Next}
    {fits : Except Fault Result → Prop} {atEnd : Except Fault Next → Prop}
    {store middle after : Store Node}, holds action store fits middle →
    (∀ result, fits (.ok result) → holds (next result) middle atEnd after) →
    (∀ fault, fits (.error fault) → middle = after ∧ atEnd (.error fault)) →
    holds (action >>= next) store atEnd after
  weaken : ∀ {Result : Type} {action : Layer Result} {fits weaker : Except Fault Result → Prop}
    {store after : Store Node}, holds action store fits after →
    (∀ outcome, fits outcome → weaker outcome) → holds action store weaker after
  lift : ∀ {Result : Type} {action : Action Result} {fits : Except Fault Result → Prop}
    {store after : Store Node}, store.Grown after → Steady action store fits after →
    holds (liftM action) store fits after

/-- The layer of actions without a table. -/
def steady : Steadiness (EStateM Fault Manager) where
  holds := Steady
  pure := Steady.pure
  bind := Steady.bind
  weaken := Steady.weaken
  lift _ run := run

section

variable {Key : Type} [BEq Key] [Hashable Key] {Layer : Type → Type} [Monad Layer]
  [MonadLiftT (EStateM Fault Manager) Layer] {entry : Store Node → Key → Edge → Prop}

/-- Entries that stay right while the store grows. -/
structure Stable (entry : Store Node → Key → Edge → Prop) : Prop where
  grow : ∀ {before after : Store Node}, before.Grown after → ∀ key edge,
    entry before key edge → entry after key edge

/-- The outcome fits, and a table that comes with it has right entries. -/
def WithTable (entry : Key → Edge → Prop) (fits : Except Fault Result → Prop) :
    Except Fault (Result × Memo Key Edge) → Prop
  | .ok (result, table) => table.Holds entry ∧ fits (.ok result)
  | .error fault => fits (.error fault)

namespace Steadiness

/-- A layer with a table of right entries on top of another. -/
def memo (base : Steadiness Layer) (stable : Stable entry) :
    Steadiness (StateT (Memo Key Edge) Layer) where
  holds action store fits after := ∀ table, table.Holds (entry store) →
    base.holds (action table) store (WithTable (entry after) fits) after
  pure holds _ kept := base.pure ⟨kept, holds⟩
  bind first rest stops table kept := by
    refine base.bind (first table kept) ?_ stops
    rintro ⟨result, later⟩ ⟨laterKept, holds⟩
    exact rest result holds later laterKept
  weaken run weakens table kept := by
    refine base.weaken (run table kept) ?_
    rintro (fault | ⟨result, later⟩) holds
    · exact weakens _ holds
    · exact ⟨holds.1, weakens _ holds.2⟩
  lift grown run table kept := by
    refine base.bind (base.lift grown run) ?_ fun fault holds => ⟨rfl, holds⟩
    exact fun result holds => base.pure ⟨kept.mono (stable.grow grown), holds⟩

/-- A layer is steady over what a layer below does. -/
theorem below (base : Steadiness Layer) {stable : Stable entry} {action : Layer Result}
    {fits : Except Fault Result → Prop} (grown : store.Grown after)
    (run : base.holds action store fits after) :
    (base.memo stable).holds (StateT.lift action) store fits after := by
  intro table kept
  refine base.bind run ?_ fun fault holds => ⟨rfl, holds⟩
  exact fun result holds => base.pure ⟨kept.mono (stable.grow grown), holds⟩

/-- An action is begun with an empty table. -/
theorem withMemo [LawfulMonad Layer] [MonadStateOf Manager Layer] (base : Steadiness Layer)
    {stable : Stable entry} {action : StateT (Memo Key Edge) Layer Result}
    {fits : Except Fault Result → Prop}
    (reads : base.holds (getThe Manager) store (Returns fun _ => True) store)
    (run : (base.memo stable).holds action store fits after) :
    base.holds (withMemo action) store fits after := by
  refine base.bind reads (fun manager _ => ?_) fun _ impossible => impossible.elim
  show base.holds (Prod.fst <$> action (.empty manager.recalls)) store fits after
  rw [map_eq_pure_bind]
  refine base.bind (run _ (Memo.holds_empty _)) ?_ fun fault holds => ⟨rfl, holds⟩
  rintro ⟨result, table⟩ ⟨_, holds⟩
  exact base.pure holds

/-- A remembered answer has to fit, and what the work comes to has to be right to be remembered. -/
theorem remembering [LawfulBEq Key] (base : Steadiness Layer) {stable : Stable entry} {key : Key}
    {work : StateT (Memo Key Edge) Layer Edge} {fits : Except Fault Edge → Prop}
    (hit : ∀ edge, entry store key edge → store = after ∧ fits (.ok edge))
    (miss : (base.memo stable).holds work store
      (fun outcome => fits outcome ∧ ∀ edge, outcome = .ok edge → entry after key edge) after) :
    (base.memo stable).holds (remembering key work) store fits after := by
  intro table kept
  -- reading the table yields the table itself
  have reads : base.holds (Pure.pure (table, table)) store (· = .ok (table, table)) store :=
    base.pure rfl
  refine base.bind reads ?_ fun _ impossible => nomatch impossible
  rintro _ ⟨⟩
  cases found : table.find? key with
  | some edge =>
    simp only [found]
    obtain ⟨rfl, holds⟩ := hit edge (kept.find? found)
    exact base.pure ⟨kept, holds⟩
  | none =>
    simp only [found]
    refine base.bind (miss table kept) ?_ fun fault holds => ⟨rfl, holds.1⟩
    rintro ⟨edge, later⟩ ⟨laterKept, holds, right⟩
    have stores : base.holds (Pure.pure ((), later.insert key edge)) after
        (· = .ok ((), later.insert key edge)) after := base.pure rfl
    refine base.bind stores ?_ fun _ impossible => nomatch impossible
    rintro _ ⟨⟩
    exact base.pure ⟨laterKept.insert (right edge rfl), holds⟩

end Steadiness

end

end Manager

end DecisionDiagram
