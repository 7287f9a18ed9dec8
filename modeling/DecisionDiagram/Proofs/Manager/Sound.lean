import DecisionDiagram.Manager.Basic
import DecisionDiagram.Proofs.Diagram.Represents
import DecisionDiagram.Proofs.Memo
import Mathlib.Data.Set.Card

/-!
# The invariant of managers

A sound manager has a canonical store, caches whose entries are right for that store, and pinned
edges that are in use. Since right entries stay right while the store grows, every operation that
only builds nodes may consult and fill the caches at any time.
-/

set_option autoImplicit false

namespace DecisionDiagram

/-- The cache of a connective. -/
def Caches.binary (caches : Caches) : Connective → Cache (Edge × Edge) Edge
  | .and => caches.and
  | .or => caches.or
  | .xor => caches.xor

/-- None of the caches recalls anything. -/
structure Caches.Forgetful (caches : Caches) : Prop where
  ite : caches.ite.Forgetful
  binary : ∀ connective, (caches.binary connective).Forgetful
  size : caches.size.Forgetful

namespace Caches.Forgetful

variable {caches : Caches}

theorem empty : (Caches.empty false).Forgetful where
  ite := .empty _
  binary connective := by
    cases connective <;> exact .empty _
  size := .empty _

theorem clear (forgetful : caches.Forgetful) : caches.clear.Forgetful where
  ite := forgetful.ite.clear
  binary connective := by
    have cleared := (forgetful.binary connective).clear
    cases connective <;> exact cleared
  size := forgetful.size.clear

end Caches.Forgetful

/-! ## Right entries -/

/-- The edges point at three different slots, none of them the terminal's. -/
structure Edge.Apart (first second third : Edge) : Prop where
  first_inner : first.index ≠ 1
  second_inner : second.index ≠ 1
  third_inner : third.index ≠ 1
  first_second : first.index ≠ second.index
  first_third : first.index ≠ third.index
  second_third : second.index ≠ third.index

namespace Store

variable {before after : Store Node}

/-- A remembered connective: two different inner slots in the order of their edges, and an answer
that is right. -/
structure BinaryEntry (store : Store Node) (connective : Connective) (key : Edge × Edge)
    (answer : Edge) : Prop where
  first_live : store.Live key.1
  second_live : store.Live key.2
  ordered : key.1.code < key.2.code
  first_inner : key.1.index ≠ 1
  second_inner : key.2.index ≠ 1
  apart : key.1.index ≠ key.2.index
  answer : store.Represents answer fun valuation =>
    connective.eval (store.denote key.1 valuation) (store.denote key.2 valuation)

/-- A remembered if-then-else: three different inner slots, the first two edges uncomplemented, and
an answer that is right. -/
structure IteEntry (store : Store Node) (key : Edge × Edge × Edge) (answer : Edge) : Prop where
  condition_live : store.Live key.1
  whenTrue_live : store.Live key.2.1
  whenFalse_live : store.Live key.2.2
  condition_regular : key.1.isNegated = false
  whenTrue_regular : key.2.1.isNegated = false
  apart : Edge.Apart key.1 key.2.1 key.2.2
  answer : store.Represents answer fun valuation =>
    if store.denote key.1 valuation then store.denote key.2.1 valuation
    else store.denote key.2.2 valuation

/-- A remembered size: the number of slots below the edge. -/
structure SizeEntry (store : Store Node) (edge : Edge) (count : Nat) : Prop where
  live : store.Live edge
  count_eq : count = (store.below [edge]).ncard

theorem BinaryEntry.grow {connective : Connective} {key : Edge × Edge} {answer : Edge}
    (entry : before.BinaryEntry connective key answer) (grows : before.Extends after)
    (canonical : before.Canonical) (other : after.Canonical) :
    after.BinaryEntry connective key answer :=
  { entry with
    first_live := grows.live entry.first_live
    second_live := grows.live entry.second_live
    answer := by
      rw [grows.denote_eq canonical other entry.first_live,
        grows.denote_eq canonical other entry.second_live]
      exact grows.represents canonical other entry.answer }

theorem IteEntry.grow {key : Edge × Edge × Edge} {answer : Edge}
    (entry : before.IteEntry key answer) (grows : before.Extends after)
    (canonical : before.Canonical) (other : after.Canonical) : after.IteEntry key answer :=
  { entry with
    condition_live := grows.live entry.condition_live
    whenTrue_live := grows.live entry.whenTrue_live
    whenFalse_live := grows.live entry.whenFalse_live
    answer := by
      rw [grows.denote_eq canonical other entry.condition_live,
        grows.denote_eq canonical other entry.whenTrue_live,
        grows.denote_eq canonical other entry.whenFalse_live]
      exact grows.represents canonical other entry.answer }

theorem Extends.below_eq (grows : before.Extends after) (canonical : before.Canonical)
    {edges : List Edge} (live : ∀ edge ∈ edges, before.Live edge) :
    after.below edges = before.below edges := by
  ext index
  refine or_congr_right (exists_congr fun edge => and_congr_right fun member => ?_)
  exact (grows.agreeBelow canonical (live edge member)).reaches_iff index

theorem SizeEntry.grow {edge : Edge} {count : Nat} (entry : before.SizeEntry edge count)
    (grows : before.Extends after) (canonical : before.Canonical) : after.SizeEntry edge count := by
  refine ⟨grows.live entry.live, ?_⟩
  rw [grows.below_eq canonical, entry.count_eq]
  intro other member
  rw [List.mem_singleton.mp member]
  exact entry.live

end Store

/-! ## Sound caches -/

structure CachesSound (store : Store Node) (caches : Caches) : Prop where
  ite : caches.ite.memo.Holds store.IteEntry
  binary : ∀ connective, (caches.binary connective).memo.Holds (store.BinaryEntry connective)
  size : caches.size.memo.Holds store.SizeEntry

/-- Caches that are still sound, and forgetful if they were before. -/
structure CachesKept (store : Store Node) (before after : Caches) : Prop where
  sound : CachesSound store after
  forgetful : before.Forgetful → after.Forgetful

namespace CachesSound

variable {store after : Store Node} {caches : Caches}

theorem grow (sound : CachesSound store caches) (grows : store.Extends after)
    (canonical : store.Canonical) (other : after.Canonical) : CachesSound after caches where
  ite := sound.ite.mono fun _ _ entry => entry.grow grows canonical other
  binary connective := (sound.binary connective).mono fun _ _ entry =>
    entry.grow grows canonical other
  size := sound.size.mono fun _ _ entry => entry.grow grows canonical

theorem empty (store : Store Node) (recalls : Bool) : CachesSound store (.empty recalls) where
  ite := Memo.holds_empty recalls
  binary connective := by
    cases connective <;> exact Memo.holds_empty recalls
  size := Memo.holds_empty recalls

theorem clear (store : Store Node) (caches : Caches) : CachesSound store caches.clear where
  ite := Memo.holds_empty _
  binary connective := by
    cases connective <;> exact Memo.holds_empty _
  size := Memo.holds_empty _

theorem lookupBinary (sound : CachesSound store caches) (connective : Connective)
    (key : Edge × Edge) :
    CachesKept store caches (caches.lookupBinary connective key).2 ∧
      ∀ answer, (caches.lookupBinary connective key).1 = some answer →
        store.BinaryEntry connective key answer := by
  refine ⟨⟨⟨?_, fun other => ?_, ?_⟩, fun forgetful => ⟨?_, fun other => ?_, ?_⟩⟩,
    fun answer found => ?_⟩
  · cases connective <;> exact sound.ite
  · have kept := sound.binary other
    cases connective <;> cases other <;> try exact kept
    all_goals
      simp only [Caches.lookupBinary, Caches.binary, Cache.memo_lookup]
      exact kept
  · cases connective <;> exact sound.size
  · cases connective <;> exact forgetful.ite
  · have kept := forgetful.binary other
    have looked := kept.lookup key
    cases connective <;> cases other <;> first | exact kept | exact looked
  · cases connective <;> exact forgetful.size
  · apply (sound.binary connective).find?
    rw [← Cache.lookup_answer]
    cases connective <;> exact found

theorem insertBinary (sound : CachesSound store caches) {connective : Connective}
    {key : Edge × Edge} {answer : Edge} (entry : store.BinaryEntry connective key answer) :
    CachesKept store caches (caches.insertBinary connective key answer) := by
  refine ⟨⟨?_, fun other => ?_, ?_⟩, fun forgetful => ⟨?_, fun other => ?_, ?_⟩⟩
  · cases connective <;> exact sound.ite
  · by_cases same : other = connective
    · subst same
      have added := (sound.binary other).insert entry
      cases other <;> exact added
    · have kept := sound.binary other
      cases connective <;> cases other <;> first | exact absurd rfl same | exact kept
  · cases connective <;> exact sound.size
  · cases connective <;> exact forgetful.ite
  · have kept := forgetful.binary other
    have added := kept.insert key answer
    cases connective <;> cases other <;> first | exact kept | exact added
  · cases connective <;> exact forgetful.size

theorem lookupIte (sound : CachesSound store caches) (key : Edge × Edge × Edge) :
    CachesKept store caches (caches.lookupIte key).2 ∧
      ∀ answer, (caches.lookupIte key).1 = some answer → store.IteEntry key answer := by
  refine ⟨⟨⟨?_, fun other => ?_, sound.size⟩,
    fun forgetful => ⟨forgetful.ite.lookup key, fun other => ?_, forgetful.size⟩⟩,
    fun answer found => ?_⟩
  · simp only [Caches.lookupIte, Cache.memo_lookup]
    exact sound.ite
  · have kept := sound.binary other
    cases other <;> exact kept
  · have kept := forgetful.binary other
    cases other <;> exact kept
  · apply sound.ite.find?
    rw [← Cache.lookup_answer]
    exact found

theorem insertIte (sound : CachesSound store caches) {key : Edge × Edge × Edge} {answer : Edge}
    (entry : store.IteEntry key answer) : CachesKept store caches (caches.insertIte key answer) := by
  refine ⟨⟨sound.ite.insert entry, fun other => ?_, sound.size⟩,
    fun forgetful => ⟨forgetful.ite.insert key answer, fun other => ?_, forgetful.size⟩⟩
  · have kept := sound.binary other
    cases other <;> exact kept
  · have kept := forgetful.binary other
    cases other <;> exact kept

theorem lookupSize (sound : CachesSound store caches) (edge : Edge) :
    CachesKept store caches (caches.lookupSize edge).2 ∧
      ∀ count, (caches.lookupSize edge).1 = some count → store.SizeEntry edge count := by
  refine ⟨⟨⟨sound.ite, fun other => ?_, ?_⟩,
    fun forgetful => ⟨forgetful.ite, fun other => ?_, forgetful.size.lookup edge⟩⟩,
    fun count found => ?_⟩
  · have kept := sound.binary other
    cases other <;> exact kept
  · simp only [Caches.lookupSize, Cache.memo_lookup]
    exact sound.size
  · have kept := forgetful.binary other
    cases other <;> exact kept
  · apply sound.size.find?
    rw [← Cache.lookup_answer]
    exact found

theorem insertSize (sound : CachesSound store caches) {edge : Edge} {count : Nat}
    (entry : store.SizeEntry edge count) : CachesKept store caches (caches.insertSize edge count) := by
  refine ⟨⟨sound.ite, fun other => ?_, sound.size.insert entry⟩,
    fun forgetful => ⟨forgetful.ite, fun other => ?_, forgetful.size.insert edge count⟩⟩
  · have kept := sound.binary other
    cases other <;> exact kept
  · have kept := forgetful.binary other
    cases other <;> exact kept

end CachesSound

/-! ## Sound managers -/

namespace Manager

structure Sound (manager : Manager) : Prop where
  canonical : manager.store.Canonical
  caches : CachesSound manager.store manager.caches
  pinned : ∀ edge ∈ manager.pinned, manager.store.Live edge

/-- Nothing is recalled, neither between calls nor within one. -/
structure Forgetful (manager : Manager) : Prop where
  recalls : manager.recalls = false
  caches : manager.caches.Forgetful

/-- What building nodes does to a manager: the result is sound, and nothing is lost. -/
structure GrowsTo (before after : Manager) : Prop where
  sound : after.Sound
  store : before.store.Extends after.store
  pinned : after.pinned = before.pinned
  recalls : after.recalls = before.recalls
  forgetful : before.caches.Forgetful → after.caches.Forgetful

namespace GrowsTo

variable {before middle after : Manager}

theorem refl (sound : before.Sound) : before.GrowsTo before :=
  ⟨sound, .refl _, rfl, rfl, id⟩

theorem trans (first : before.GrowsTo middle) (second : middle.GrowsTo after) :
    before.GrowsTo after :=
  ⟨second.sound, first.store.trans second.store, second.pinned.trans first.pinned,
    second.recalls.trans first.recalls, second.forgetful ∘ first.forgetful⟩

theorem live {edge : Edge} (grows : before.GrowsTo after) (live : before.store.Live edge) :
    after.store.Live edge :=
  grows.store.live live

theorem represents {edge : Edge} {function : BoolFunction} (grows : before.GrowsTo after)
    (sound : before.Sound) (represents : before.store.Represents edge function) :
    after.store.Represents edge function :=
  grows.store.represents sound.canonical grows.sound.canonical represents

/-- The store has grown, and everything else is as before. -/
theorem of_store (sound : before.Sound) {store : Store Node} (canonical : store.Canonical)
    (grows : before.store.Extends store) : before.GrowsTo { before with store := store } where
  sound :=
    { canonical := canonical
      caches := sound.caches.grow grows sound.canonical canonical
      pinned := fun edge member => grows.live (sound.pinned edge member) }
  store := grows
  pinned := rfl
  recalls := rfl
  forgetful := id

/-- The caches have changed, and everything else is as before. -/
theorem of_caches (sound : before.Sound) {caches : Caches}
    (kept : CachesKept before.store before.caches caches) :
    before.GrowsTo { before with caches := caches } where
  sound := { sound with caches := kept.sound }
  store := .refl _
  pinned := rfl
  recalls := rfl
  forgetful := kept.forgetful

end GrowsTo

end Manager

end DecisionDiagram
