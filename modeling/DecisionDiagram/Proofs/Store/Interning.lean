import DecisionDiagram.Node
import DecisionDiagram.Proofs.Store.Create

/-!
# Putting value after value

Equality of values may be coarser than identity, as long as equal values have equal hashes. Then a
store that is filled by `put` alone has one slot for each class of equal values, and the index of the
slot is what `put` returns for every value of the class, from the first time on.
-/

set_option autoImplicit false

namespace DecisionDiagram.Store

variable {Value : Type} [BEq Value] [BucketHash Value]

/-- Values are put one after the other. The history has the values with their indices, the last one
first. A refused value is not in it. -/
inductive Putting (start : Store Value) : List (Value × Nat) → Store Value → Prop
  | start : Putting start [] start
  | stored {history : List (Value × Nat)} {store after : Store Value} {value : Value} {index : Nat} :
      Putting start history store → put value store = .ok index after →
      Putting start ((value, index) :: history) after
  | refused {history : List (Value × Nat)} {store after : Store Value} {value : Value}
      {fault : Fault} : Putting start history store → put value store = .error fault after →
      Putting start history after

/-- The history is true of the store, and nothing else is in it. -/
structure Records (store : Store Value) (history : List (Value × Nat)) : Prop where
  allotted : store.Allotted
  threaded : store.Threaded ∅
  held : ∀ value index, (value, index) ∈ history →
    ∃ stored, store.contents index = some stored ∧ stored == value
  entered : ∀ index stored, store.contents index = some stored → (stored, index) ∈ history

/-- What putting a value comes to, given what has been put before. -/
structure Answers (store : Store Value) (history : List (Value × Nat)) (value : Value) : Prop where
  found : ∀ item index, (item, index) ∈ history → item == value → put value store = .ok index store
  full : (∀ entry ∈ history, ¬entry.1 == value) → store.Full →
    put value store = .error (.storageFull store.capacity) store
  stored : (∀ entry ∈ history, ¬entry.1 == value) → ¬store.Full →
    ∃ index after, put value store = .ok index after ∧ store.LowestFree index ∧
      after.contents = Function.update store.contents index (some value)

/-- Each class of equal values has its own slot, which lies in the chain of their bucket and in no
other. -/
structure IsSetOf (store : Store Value) (history : List (Value × Nat)) : Prop where
  index_eq_iff : ∀ first second index other, (first, index) ∈ history → (second, other) ∈ history →
    (index = other ↔ first == second)
  value : ∀ item index, (item, index) ∈ history →
    ∃ stored, (stored, index) ∈ history ∧ stored == item ∧ store.value index = .ok stored
  chains : ∃ slotsOf : Nat → List Nat,
    (∀ number, number < store.bucketCount → store.chain number = .ok (slotsOf number) ∧
      (slotsOf number).Nodup ∧ ∀ index, index ∈ slotsOf number ↔
        ∃ item, (item, index) ∈ history ∧ store.bucketIndex item = number) ∧
    store.chainLengths = .ok ((List.range store.bucketCount).map fun number => (slotsOf number).length)
  bucketIndex_lt : ∀ item index, (item, index) ∈ history → store.bucketIndex item < store.bucketCount

theorem Fresh.records [Inhabited Value] {store : Store Value} {bits bucketBits : Nat}
    (fresh : store.Fresh bits bucketBits) (few : bucketBits ≤ maxBits) : store.Records [] where
  allotted := fresh.allotted
  threaded := fresh.threaded few
  held _ _ member := absurd member List.not_mem_nil
  entered index stored held := by
    rw [fresh.contents_eq_none] at held
    cases held

namespace Records

variable {start store after : Store Value} {history : List (Value × Nat)} {value : Value}

/-- What no entry is equal to, no slot holds. -/
theorem lacks (records : store.Records history) (unknown : ∀ entry ∈ history, ¬entry.1 == value) :
    store.Lacks (∅ : Set Nat)ᶜ value :=
  fun index _ stored held => unknown (stored, index) (records.entered index stored held)

theorem answers [PartialEquivBEq Value] [LawfulBucketHash Value] (records : store.Records history)
    (value : Value) : store.Answers history value where
  found item index member same := by
    obtain ⟨stored, held, storedSame⟩ := records.held item index member
    exact records.threaded.put_found records.allotted (Set.notMem_empty index) held
      (PartialEquivBEq.trans storedSame same)
  full unknown full :=
    records.threaded.put_full records.allotted (records.lacks unknown)
      (records.allotted.full_iff.mp full)
  stored unknown notFull := by
    have space := not_not.mp (mt records.allotted.full_iff.mpr notFull)
    obtain ⟨after, run, inserted⟩ :=
      records.threaded.put_new records.allotted (records.lacks unknown) space
    exact ⟨_, after, run, records.allotted.lowestFree space, inserted.contents⟩

/-- One more value is found, refused or stored in a slot of its own. -/
theorem put_cases [PartialEquivBEq Value] [LawfulBucketHash Value] (records : store.Records history)
    (value : Value) :
    (∃ index stored, put value store = .ok index store ∧ store.contents index = some stored ∧
        stored == value) ∨
      (∃ fault, put value store = .error fault store) ∨
      ∃ index after, put value store = .ok index after ∧ store.LowestFree index ∧
        store.Inserted index value after ∧ after.Threaded ∅ := by
  by_cases known : ∃ entry ∈ history, entry.1 == value
  · obtain ⟨⟨item, index⟩, member, same⟩ := known
    obtain ⟨stored, held, storedSame⟩ := records.held item index member
    exact Or.inl ⟨index, stored, (records.answers value).found item index member same, held,
      PartialEquivBEq.trans storedSame same⟩
  have unknown : ∀ entry ∈ history, ¬entry.1 == value :=
    fun entry member same => known ⟨entry, member, same⟩
  by_cases space : store.firstFree < store.capacity
  · obtain ⟨after, run, inserted⟩ :=
      records.threaded.put_new records.allotted (records.lacks unknown) space
    have lowest := records.allotted.lowestFree space
    exact Or.inr (Or.inr ⟨_, after, run, lowest, inserted,
      records.threaded.inserted lowest (Set.notMem_empty _) (records.lacks unknown) inserted⟩)
  · exact Or.inr (Or.inl ⟨_, records.threaded.put_full records.allotted (records.lacks unknown) space⟩)

theorem inserted [ReflBEq Value] {index : Nat} (records : store.Records history)
    (lowest : store.LowestFree index) (inserted : store.Inserted index value after) (threaded : after.Threaded ∅) :
    after.Records ((value, index) :: history) where
  allotted := inserted.allotted
  threaded := threaded
  held item other member := by
    rcases List.mem_cons.mp member with new | old
    · cases new
      refine ⟨value, ?_, ReflBEq.rfl⟩
      rw [inserted.contents, Function.update_self]
    · obtain ⟨stored, held, same⟩ := records.held item other old
      exact ⟨stored, (inserted.extends lowest.free).contents other stored held, same⟩
  entered other stored held := by
    rw [inserted.contents] at held
    by_cases isNew : other = index
    · rw [isNew, Function.update_self] at held
      cases held
      rw [isNew]
      exact List.mem_cons_self
    · rw [Function.update_of_ne isNew] at held
      exact List.mem_cons_of_mem _ (records.entered other stored held)

/-- A value that is found is one more entry for its slot. -/
theorem found {index : Nat} {stored : Value} (records : store.Records history)
    (held : store.contents index = some stored) (same : stored == value) :
    store.Records ((value, index) :: history) where
  allotted := records.allotted
  threaded := records.threaded
  held item other member := by
    rcases List.mem_cons.mp member with new | old
    · cases new
      exact ⟨stored, held, same⟩
    · exact records.held item other old
  entered other item otherHeld := List.mem_cons_of_mem _ (records.entered other item otherHeld)

theorem isSetOf [PartialEquivBEq Value] [LawfulBucketHash Value]
    (records : store.Records history) : store.IsSetOf history where
  index_eq_iff first second index other firstMember secondMember := by
    obtain ⟨stored, held, same⟩ := records.held first index firstMember
    obtain ⟨otherStored, otherHeld, otherSame⟩ := records.held second other secondMember
    constructor
    · rintro rfl
      rw [held] at otherHeld
      cases otherHeld
      exact PartialEquivBEq.trans (PartialEquivBEq.symm same) otherSame
    · intro equal
      exact records.threaded.distinct index other stored otherStored (Set.notMem_empty _)
        (Set.notMem_empty _) held otherHeld
        (PartialEquivBEq.trans (PartialEquivBEq.trans same equal) (PartialEquivBEq.symm otherSame))
  value item index member := by
    obtain ⟨stored, held, same⟩ := records.held item index member
    exact ⟨stored, records.entered index stored held, same, value_eq_ok held⟩
  chains := by
    obtain ⟨slotsOf, chains⟩ := records.threaded.exists_chains
    refine ⟨slotsOf, fun number inside => ?_, records.threaded.chainLengths_eq_map chains⟩
    have chain := chains number inside
    have ⟨_, _, linked⟩ := chain
    refine ⟨records.threaded.chain_eq_ok chain, linked.nodup, fun index => ?_⟩
    rw [records.threaded.mem_chain chain]
    constructor
    · rintro ⟨_, stored, held, own⟩
      exact ⟨stored, records.entered index stored held, own⟩
    · rintro ⟨item, member, own⟩
      obtain ⟨stored, held, same⟩ := records.held item index member
      exact ⟨Set.notMem_empty index, stored, held, (bucketIndex_eq same).trans own⟩
  bucketIndex_lt item _ _ := records.threaded.bucketIndex_lt item

end Records

namespace Putting

variable {start store later : Store Value} {history more : List (Value × Nat)}

/-- What is stored stays, and the records go on. -/
theorem records [EquivBEq Value] [LawfulBucketHash Value] (putting : store.Putting more later)
    (records : store.Records history) :
    later.Records (more ++ history) ∧ later.capacity = store.capacity ∧
      ∀ index value, store.contents index = some value → later.contents index = some value := by
  induction putting with
  | start => exact ⟨records, rfl, fun _ _ held => held⟩
  | @stored more middle after value index _ run ih =>
    obtain ⟨middleRecords, capacity, kept⟩ := ih
    rcases middleRecords.put_cases value with ⟨other, stored, found, held, same⟩ | ⟨fault, refused⟩ |
      ⟨other, inserter, ran, lowest, inserted, threaded⟩
    · cases run.symm.trans found
      exact ⟨middleRecords.found held same, capacity, kept⟩
    · cases run.symm.trans refused
    · cases run.symm.trans ran
      refine ⟨middleRecords.inserted lowest inserted threaded, inserted.capacity.trans capacity, ?_⟩
      exact fun index value held =>
        (inserted.extends lowest.free).contents index value (kept index value held)
  | @refused more middle after value fault _ run ih =>
    rcases ih.1.put_cases value with ⟨other, stored, found, _⟩ | ⟨fault, refused⟩ |
      ⟨other, inserter, ran, _⟩
    · cases run.symm.trans found
    · cases run.symm.trans refused
      exact ih
    · cases run.symm.trans ran

end Putting

/-- **The unique table is a set.** A store can be created, and whatever has been put into it, the next
value is found where an equal one is, is stored, or is refused by a full store. The entries are in
the chains of their buckets, once each, and their slots never change. -/
theorem putting_isSetOf [Inhabited Value] [EquivBEq Value] [LawfulBucketHash Value]
    {bits bucketBits : Nat} (few : bits ≤ maxBits) (fewBuckets : bucketBits ≤ maxBits) : ∃ start : Store Value, create bits bucketBits = .ok start ∧
      ∀ history store, start.Putting history store →
        store.capacity = 2 ^ bits ∧ store.IsSetOf history ∧
          (∀ value, store.Answers history value) ∧
          ∀ more later, store.Putting more later → ∀ item index, (item, index) ∈ history →
            later.value index = store.value index := by
  obtain ⟨start, made, fresh⟩ : ∃ start : Store Value,
      create bits bucketBits = .ok start ∧ start.Fresh bits bucketBits := create_spec few fewBuckets
  refine ⟨start, made, fun history store putting => ?_⟩
  obtain ⟨records, capacity, _⟩ := putting.records (fresh.records fewBuckets)
  rw [List.append_nil] at records
  refine ⟨capacity.trans fresh.capacity, records.isSetOf, records.answers, ?_⟩
  intro more later onward item index member
  obtain ⟨stored, held, _⟩ := records.held item index member
  obtain ⟨_, _, kept⟩ := onward.records records
  rw [value_eq_ok held, value_eq_ok (kept index stored held)]

/-- A store with one slot finds what it holds also when it is full, and refuses the rest. -/
theorem putting_isSetOf_single : (1 ≤ maxBits ∧ 0 ≤ maxBits) ∧
    ∃ start store : Store Node, create 1 0 = .ok start ∧ start.Putting [(default, 1)] store ∧
      put default store = .ok 1 store ∧
      put ⟨1, Edge.one, Edge.zero⟩ store = .error (.storageFull 2) store := by
  have few : 1 ≤ maxBits := by decide
  have fewBuckets : 0 ≤ maxBits := by decide
  obtain ⟨start, made, law⟩ := @putting_isSetOf Node _ _ _ _ _ 1 0 few fewBuckets
  obtain ⟨other, alsoMade, fresh⟩ : ∃ other : Store Node,
      create 1 0 = .ok other ∧ other.Fresh 1 0 := create_spec few fewBuckets
  cases made.symm.trans alsoMade
  obtain ⟨_, _, answers, _⟩ := law [] start .start
  obtain ⟨index, store, run, lowest, contents⟩ := (answers default).stored
    (fun entry member => absurd member List.not_mem_nil) (fresh.not_full Nat.one_ne_zero)
  obtain rfl := lowest.eq_one fresh.capacity
  have putting : start.Putting [(default, 1)] store := .stored .start run
  obtain ⟨capacity, _, laterAnswers, _⟩ := law _ store putting
  have held : store.contents 1 = some default := by
    rw [contents, Function.update_self]
  have refused := (laterAnswers ⟨1, Edge.one, Edge.zero⟩).full (by decide)
    (full_of_capacity_eq_two capacity held)
  rw [capacity] at refused
  exact ⟨⟨few, fewBuckets⟩, start, store, made, putting,
    (laterAnswers default).found default 1 List.mem_cons_self (by decide), refused⟩

end DecisionDiagram.Store
