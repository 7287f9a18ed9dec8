import DecisionDiagram.Proofs.Store.Allocation
import DecisionDiagram.Proofs.Store.Chain
import Mathlib.Algebra.BigOperators.Group.Finset.Basic
import Mathlib.Algebra.Ring.Nat

/-!
# The unique table is a set

Every slot in use, apart from a few loose ones, lies in the chain of its value's bucket, and no
value lies in two slots. Putting a value keeps this: it finds the slot of the value, or appends the
lowest free slot to the value's chain, or is refused by a full store.
-/

set_option autoImplicit false

namespace DecisionDiagram.Store

variable {Value : Type}

/-! ## Searching a walk -/

section

variable [BEq Value] {store : Store Value} {value : Value} {slots : List Nat} {head fuel : Nat}

/-- One step of a search. -/
theorem searchFrom_succ {index : Nat} {stored : Value} (held : store.contents index = some stored) :
    store.searchFrom value (fuel + 1) index =
      if stored == value then .ok (.found index)
      else if store.link index = 0 then .ok (.missing index)
      else store.searchFrom value fuel (store.link index) := by
  obtain ⟨_, found⟩ := contents_eq_some.mp held
  have read : store.slotAt index = .ok ⟨stored, store.link index, true⟩ := by
    simp only [slotAt, found]
  rw [searchFrom, read]
  rfl

theorem searchFrom_outside {index : Nat} (outside : store.capacity ≤ index) :
    store.searchFrom value (fuel + 1) index = .error (.outOfBounds store.capacity index) := by
  have read : store.slotAt index = .error (.outOfBounds store.capacity index) := by
    simp only [slotAt, Array.getElem?_eq_none outside, capacity]
  rw [searchFrom, read]
  rfl

/-- None of the slots holds the value. -/
def Lacks (store : Store Value) (slots : Set Nat) (value : Value) : Prop :=
  ∀ index ∈ slots, ∀ stored, store.contents index = some stored → ¬stored == value

theorem lacks_iff [LawfulBEq Value] {slots : Set Nat} :
    store.Lacks slots value ↔ ∀ index ∈ slots, store.contents index ≠ some value := by
  simp only [Lacks, beq_iff_eq]
  refine forall₂_congr fun index _ => ⟨fun lacks held => lacks value held rfl, ?_⟩
  rintro absent _ held rfl
  exact absent held

/-- How a search from `head` along some slots can end. -/
inductive SearchEnds (store : Store Value) (value : Value) (head : Nat) (slots : List Nat) :
    Except Fault Search → Prop
  | found {index : Nat} {stored : Value} : index ∈ slots → store.contents index = some stored →
      stored == value → SearchEnds store value head slots (.ok (.found index))
  | missing {last : Nat} : store.Lacks {index | index ∈ slots} value → last ∈ slots →
      store.link last = 0 → SearchEnds store value head slots (.ok (.missing last))
  | leaves {outside : Nat} : store.capacity ≤ outside →
      (outside = head ∨ ∃ last ∈ slots, store.link last = outside) →
      SearchEnds store value head slots (.error (.outOfBounds store.capacity outside))

theorem searchFrom_ends (nonzero : head ≠ 0)
    (linked : Linked (store.inward ∘ store.link) (store.inward head) slots)
    (held : ∀ index ∈ slots, ∃ value, store.contents index = some value)
    (enough : slots.length < fuel) :
    SearchEnds store value head slots (store.searchFrom value fuel head) := by
  obtain ⟨fuel, rfl⟩ := Nat.exists_eq_succ_of_ne_zero (Nat.ne_of_gt (Nat.zero_lt_of_lt enough))
  induction slots generalizing head fuel with
  | nil =>
    have outside := capacity_le_of_inward_eq_zero (linked.head_eq_zero_iff.mpr rfl) nonzero
    rw [searchFrom_outside outside]
    exact .leaves outside (Or.inl rfl)
  | cons first rest ih =>
    have onward : store.inward head ≠ 0 := mt linked.head_eq_zero_iff.mp (List.cons_ne_nil _ _)
    rw [inward_eq_of_ne_zero onward] at linked
    cases linked with
    | cons _ linked =>
      obtain ⟨stored, firstHeld⟩ := held first List.mem_cons_self
      rw [searchFrom_succ firstHeld]
      by_cases same : stored == value
      · rw [if_pos same]
        exact .found List.mem_cons_self firstHeld same
      rw [if_neg same]
      by_cases stops : store.link first = 0
      · rw [if_pos stops]
        have ends : rest = [] := linked.head_eq_zero_iff.mp (by
          rw [Function.comp_apply, stops, inward_zero])
        refine .missing ?_ List.mem_cons_self stops
        rintro index member other indexHeld
        rw [ends] at member
        rw [List.mem_singleton.mp member, firstHeld] at indexHeld
        exact Option.some.inj indexHeld ▸ same
      rw [if_neg stops]
      have shorter : rest.length < fuel := Nat.lt_of_succ_lt_succ enough
      obtain ⟨fuel, rfl⟩ := Nat.exists_eq_succ_of_ne_zero
        (Nat.ne_of_gt (Nat.zero_lt_of_lt shorter))
      have ends := ih stops linked (fun index member => held index (List.mem_cons_of_mem _ member))
        fuel shorter
      generalize store.searchFrom value (fuel + 1) (store.link first) = outcome at ends
      cases ends with
      | found member indexHeld same =>
        exact .found (List.mem_cons_of_mem _ member) indexHeld same
      | missing lacks member stops =>
        refine .missing ?_ (List.mem_cons_of_mem _ member) stops
        intro index indexMember other indexHeld
        rcases List.mem_cons.mp indexMember with rfl | later
        · rw [firstHeld] at indexHeld
          exact Option.some.inj indexHeld ▸ same
        · exact lacks index later other indexHeld
      | leaves outside source =>
        refine .leaves outside (Or.inr ?_)
        rcases source with rfl | ⟨last, member, linksOut⟩
        · exact ⟨first, List.mem_cons_self, rfl⟩
        · exact ⟨last, List.mem_cons_of_mem _ member, linksOut⟩

end

/-! ## The invariant -/

variable [BucketHash Value]

/-- The slots outside `loose` are chained by their buckets and hold different values. -/
structure Threaded [BEq Value] (store : Store Value) (loose : Set Nat) : Prop where
  bucketCount_pos : 0 < store.bucketCount
  bucketCount_lt : store.bucketCount < 2 ^ 64
  chained : ∀ number, number < store.bucketCount → ∃ slots, store.ChainOf number slots ∧
    ∀ index, index ∈ slots ↔ index ∉ loose ∧
      ∃ value, store.contents index = some value ∧ store.bucketIndex value = number
  distinct : ∀ first second value other, first ∉ loose → second ∉ loose →
    store.contents first = some value → store.contents second = some other → value == other →
      first = second

theorem bucketIndex_lt {store : Store Value} (positive : 0 < store.bucketCount)
    (few : store.bucketCount < 2 ^ 64) (value : Value) :
    store.bucketIndex value < store.bucketCount := by
  have exact : (UInt64.ofNat store.bucketCount).toNat = store.bucketCount :=
    UInt64.toNat_ofNat_of_lt' few
  unfold bucketIndex bucketAmong
  rw [UInt64.toNat_mod, exact]
  exact Nat.mod_lt _ positive

theorem bucketIndex_eq [BEq Value] [LawfulBucketHash Value] {store : Store Value}
    {first second : Value} (same : first == second) :
    store.bucketIndex first = store.bucketIndex second := by
  unfold bucketIndex bucketAmong
  rw [LawfulBucketHash.bucketHash_eq same]

namespace Threaded

variable [BEq Value] {store : Store Value} {loose : Set Nat}

theorem bucketIndex_lt (threaded : store.Threaded loose) (value : Value) :
    store.bucketIndex value < store.bucketCount :=
  Store.bucketIndex_lt threaded.bucketCount_pos threaded.bucketCount_lt value

theorem mem_chain {number : Nat} {slots : List Nat} (threaded : store.Threaded loose)
    (chain : store.ChainOf number slots) (index : Nat) :
    index ∈ slots ↔ index ∉ loose ∧
      ∃ value, store.contents index = some value ∧ store.bucketIndex value = number := by
  have ⟨head, entry, _⟩ := chain
  have inside : number < store.bucketCount := (Array.getElem?_eq_some_iff.mp entry).1
  obtain ⟨same, found, members⟩ := threaded.chained number inside
  rw [chain.unique found]
  exact members index

theorem held_of_mem {number : Nat} {slots : List Nat} (threaded : store.Threaded loose)
    (chain : store.ChainOf number slots) {index : Nat} (member : index ∈ slots) :
    ∃ value, store.contents index = some value := by
  obtain ⟨_, value, held, _⟩ := (threaded.mem_chain chain index).mp member
  exact ⟨value, held⟩

/-- Two chains with a slot in common are the same bucket's. -/
theorem number_unique {first second : Nat} {slots others : List Nat} {index : Nat}
    (threaded : store.Threaded loose) (chain : store.ChainOf first slots)
    (other : store.ChainOf second others) (left : index ∈ slots) (right : index ∈ others) :
    first = second := by
  obtain ⟨_, value, held, number⟩ := (threaded.mem_chain chain index).mp left
  obtain ⟨_, again, heldAgain, numberAgain⟩ := (threaded.mem_chain other index).mp right
  rw [held] at heldAgain
  cases heldAgain
  exact number.symm.trans numberAgain

theorem length_le {number : Nat} {slots : List Nat} (threaded : store.Threaded loose)
    (chain : store.ChainOf number slots) : slots.length ≤ store.capacity := by
  have ⟨_, _, linked⟩ := chain
  refine length_le_of_nodup linked.nodup fun index member => ?_
  obtain ⟨_, held⟩ := threaded.held_of_mem chain member
  exact lt_capacity_of_contents held

theorem chain_eq_ok {number : Nat} {slots : List Nat} (threaded : store.Threaded loose)
    (chain : store.ChainOf number slots) : store.chain number = .ok slots := by
  refine chain.chain_eq_ok fun index member => ?_
  obtain ⟨value, held⟩ := threaded.held_of_mem chain member
  exact lt_capacity_of_contents held

/-- What is read as the chain of a bucket is its chain. -/
theorem chainOf_of_chain {number : Nat} {slots : List Nat} (threaded : store.Threaded loose)
    (read : store.chain number = .ok slots) : store.ChainOf number slots := by
  by_cases inside : number < store.bucketCount
  · obtain ⟨known, chain, _⟩ := threaded.chained number inside
    rw [threaded.chain_eq_ok chain] at read
    rw [← Except.ok.inj read]
    exact chain
  · have missing : store.buckets[number]? = none :=
      Array.getElem?_eq_none (Nat.le_of_not_lt inside)
    simp only [chain, bucket, missing] at read
    cases read

end Threaded

/-! ## Counting -/

/-- The bucket of what a slot holds. -/
def slotBucket (store : Store Value) (index : Nat) : Nat :=
  (store.contents index).elim 0 store.bucketIndex

namespace Threaded

variable [BEq Value] {store : Store Value} {loose : Set Nat}

/-- A chain is as long as its bucket has slots. -/
theorem length_chain [DecidablePred (· ∈ loose)] {number : Nat} {slots : List Nat}
    (threaded : store.Threaded loose) (chain : store.ChainOf number slots) : slots.length =
      (store.liveSlots.filter fun index => index ∉ loose ∧ store.slotBucket index = number).card := by
  have ⟨_, _, linked⟩ := chain
  have same : slots.toFinset =
      store.liveSlots.filter fun index => index ∉ loose ∧ store.slotBucket index = number := by
    ext index
    rw [List.mem_toFinset, threaded.mem_chain chain, Finset.mem_filter, mem_liveSlots, slotBucket]
    constructor
    · rintro ⟨tight, value, held, bucket⟩
      refine ⟨⟨value, held⟩, tight, ?_⟩
      rw [held]
      exact bucket
    · rintro ⟨⟨value, held⟩, tight, bucket⟩
      rw [held] at bucket
      exact ⟨tight, value, held, bucket⟩
  rw [← same, List.toFinset_card_of_nodup linked.nodup]

/-- The lengths of the chains, bucket by bucket. -/
theorem chainLengths_eq_map {slotsOf : Nat → List Nat} (threaded : store.Threaded loose)
    (chains : ∀ number, number < store.bucketCount → store.ChainOf number (slotsOf number)) :
    store.chainLengths =
      .ok ((List.range store.bucketCount).map fun number => (slotsOf number).length) := by
  have heads : store.buckets.toList =
      (List.range store.bucketCount).map fun number => store.buckets.getD number 0 := by
    refine List.ext_getElem (by simp [bucketCount]) fun number first second => ?_
    have inside : number < store.buckets.size := by simpa using first
    rw [List.getElem_map, List.getElem_range, Array.getElem_toList, Array.getD_eq_getD_getElem?,
      Array.getElem?_eq_getElem inside, Option.getD_some]
  unfold chainLengths
  rw [heads, List.mapM_map]
  refine mapM_eq_ok _ fun number member => ?_
  have chain := chains number (List.mem_range.mp member)
  obtain ⟨head, entry, linked⟩ := chains number (List.mem_range.mp member)
  have inside : ∀ index ∈ slotsOf number, index < store.capacity := fun index member =>
    (threaded.held_of_mem chain member).elim fun _ => lt_capacity_of_contents
  have walked := chainFrom_eq_ok linked inside (threaded.length_le chain)
  simp only [Function.comp_apply, Array.getD_eq_getD_getElem?, entry, Option.getD_some, walked]
  rfl

theorem exists_chains (threaded : store.Threaded loose) : ∃ slotsOf : Nat → List Nat,
    ∀ number, number < store.bucketCount → store.ChainOf number (slotsOf number) := by
  have every : ∀ number, ∃ slots, number < store.bucketCount → store.ChainOf number slots := by
    intro number
    by_cases inside : number < store.bucketCount
    · obtain ⟨slots, chain, _⟩ := threaded.chained number inside
      exact ⟨slots, fun _ => chain⟩
    · exact ⟨[], fun other => absurd other inside⟩
  choose slotsOf chains using every
  exact ⟨slotsOf, chains⟩

/-- The lengths of the chains add up to the number of slots that are not loose. -/
theorem chainLengths_eq_ok [DecidablePred (· ∈ loose)] (threaded : store.Threaded loose) :
    ∃ lengths, store.chainLengths = .ok lengths ∧
      lengths.sum = (store.liveSlots.filter (· ∉ loose)).card := by
  obtain ⟨slotsOf, chains⟩ := threaded.exists_chains
  refine ⟨_, threaded.chainLengths_eq_map chains, ?_⟩
  have maps : ∀ index ∈ store.liveSlots.filter (· ∉ loose),
      store.slotBucket index ∈ Finset.range store.bucketCount := by
    intro index member
    obtain ⟨live, _⟩ := Finset.mem_filter.mp member
    obtain ⟨value, held⟩ := mem_liveSlots.mp live
    simp only [slotBucket, held, Option.elim_some, Finset.mem_range]
    exact threaded.bucketIndex_lt value
  rw [Finset.card_eq_sum_card_fiberwise maps]
  have each : ((List.range store.bucketCount).map fun number => (slotsOf number).length).sum =
      ∑ number ∈ Finset.range store.bucketCount, (slotsOf number).length := rfl
  rw [each]
  refine Finset.sum_congr rfl fun number member => ?_
  rw [threaded.length_chain (chains number (Finset.mem_range.mp member)), Finset.filter_filter]

end Threaded

/-! ## Putting a value -/

/-- `after` is `before` with a value in one more slot, at the end of the value's chain. -/
structure Inserted (before : Store Value) (index : Nat) (value : Value) (after : Store Value) :
    Prop where
  allotted : after.Allotted
  contents : after.contents = Function.update before.contents index (some value)
  capacity : after.capacity = before.capacity
  bucketCount : after.bucketCount = before.bucketCount
  lastUsed : after.lastUsed = max before.lastUsed index
  liveCount : after.liveCount = before.liveCount + 1
  chain : ∀ number slots, before.ChainOf number slots →
    after.ChainOf number
      (if before.bucketIndex value = number then slots ++ [index] else slots)

namespace Threaded

variable [BEq Value] {store after : Store Value} {loose : Set Nat} {value : Value} {index : Nat}

theorem inserted [PartialEquivBEq Value] (threaded : store.Threaded loose)
    (lowest : store.LowestFree index) (tight : index ∉ loose)
    (lacks : store.Lacks looseᶜ value)
    (inserted : store.Inserted index value after) : after.Threaded loose := by
  have sameBucket : ∀ value : Value, after.bucketIndex value = store.bucketIndex value := by
    intro value
    unfold bucketIndex
    rw [inserted.bucketCount]
  have old : ∀ other, other ≠ index → after.contents other = store.contents other := by
    intro other apart
    rw [inserted.contents, Function.update_of_ne apart]
  have new : after.contents index = some value := by
    rw [inserted.contents, Function.update_self]
  refine ⟨?_, ?_, ?_, ?_⟩
  · rw [inserted.bucketCount]
    exact threaded.bucketCount_pos
  · rw [inserted.bucketCount]
    exact threaded.bucketCount_lt
  · intro number inside
    rw [inserted.bucketCount] at inside
    obtain ⟨slots, chain, members⟩ := threaded.chained number inside
    refine ⟨_, inserted.chain number slots chain, ?_⟩
    intro other
    have fresh : index ∉ slots := by
      rw [members, lowest.free]
      simp
    by_cases same : other = index
    · subst same
      rw [new]
      by_cases own : store.bucketIndex value = number
      · simp [own, sameBucket, tight]
      · simp [own, sameBucket, fresh]
    · rw [old other same]
      simp only [sameBucket]
      by_cases own : store.bucketIndex value = number
      · rw [if_pos own, List.mem_append, List.mem_singleton, members]
        simp [same]
      · rw [if_neg own, members]
  · intro first second left right firstTight secondTight firstHeld secondHeld same
    by_cases atFirst : first = index
    · by_cases atSecond : second = index
      · rw [atFirst, atSecond]
      · rw [atFirst, new] at firstHeld
        rw [old second atSecond] at secondHeld
        rw [← Option.some.inj firstHeld] at same
        exact absurd (PartialEquivBEq.symm same) (lacks second secondTight right secondHeld)
    · by_cases atSecond : second = index
      · rw [atSecond, new] at secondHeld
        rw [old first atFirst] at firstHeld
        rw [← Option.some.inj secondHeld] at same
        exact absurd same (lacks first firstTight left firstHeld)
      · rw [old first atFirst] at firstHeld
        rw [old second atSecond] at secondHeld
        exact threaded.distinct first second left right firstTight secondTight firstHeld secondHeld
          same

theorem fresh_of_chain {number : Nat} {slots : List Nat} (threaded : store.Threaded loose)
    (lowest : store.LowestFree index) (chain : store.ChainOf number slots) : index ∉ slots := by
  rw [threaded.mem_chain chain, lowest.free]
  simp

/-- A new slot becomes the head of an empty chain. -/
theorem inserted_first (threaded : store.Threaded loose) (allotted : store.Allotted)
    (lowest : store.LowestFree index) (empty : store.ChainOf (store.bucketIndex value) []) :
    store.Inserted index value
      ((store.added index value).rebucketed (store.bucketIndex value) index) := by
  have ⟨head, entry, _⟩ := empty
  have kept : (store.added index value).buckets[store.bucketIndex value]? = some head := entry
  refine ⟨(allotted.added lowest value).rebucketed _ _,
    contents_added lowest.nonzero lowest.inside value, capacity_added value,
    bucketCount_rebucketed _ _ _, rfl, rfl, ?_⟩
  intro number slots chain
  have ⟨start, startEntry, linked⟩ := chain
  by_cases own : store.bucketIndex value = number
  · subst own
    rw [if_pos rfl, chain.unique empty]
    refine ⟨index, ?_, ?_⟩
    · rw [buckets_rebucketed kept, if_pos rfl]
    · rw [link_rebucketed, link_added lowest.inside]
      refine .cons lowest.nonzero ?_
      rw [Function.update_self]
      exact .nil
  · rw [if_neg own]
    refine ⟨start, ?_, ?_⟩
    · rw [buckets_rebucketed kept, if_neg own]
      exact startEntry
    · rw [link_rebucketed, link_added lowest.inside]
      refine linked.congr fun other member => Function.update_of_ne ?_ _ _
      intro same
      exact threaded.fresh_of_chain lowest chain (same ▸ member)

/-- A new slot is linked from the last one of its chain. -/
theorem inserted_last {front : List Nat} {last : Nat} {lastValue : Value}
    (threaded : store.Threaded loose) (allotted : store.Allotted)
    (lowest : store.LowestFree index)
    (chain : store.ChainOf (store.bucketIndex value) (front ++ [last]))
    (lastKept : (store.added index value).contents last = some lastValue) :
    store.Inserted index value ((store.added index value).relinked last index) := by
  have lastMember : last ∈ front ++ [last] := List.mem_append_right front List.mem_cons_self
  refine ⟨(allotted.added lowest value).relinked _ _, ?_, ?_, rfl, rfl, rfl, ?_⟩
  · rw [contents_relinked, contents_added lowest.nonzero lowest.inside]
  · rw [capacity_relinked, capacity_added]
  · intro number slots other
    have ⟨start, startEntry, linked⟩ := other
    refine ⟨start, startEntry, ?_⟩
    rw [link_relinked lastKept, link_added lowest.inside]
    by_cases own : store.bucketIndex value = number
    · subst own
      rw [if_pos rfl]
      rw [other.unique chain] at linked ⊢
      exact linked.append (threaded.fresh_of_chain lowest chain) lowest.nonzero
    · rw [if_neg own]
      refine linked.congr fun slot member => ?_
      have notLast : slot ≠ last := by
        intro same
        exact own (threaded.number_unique chain other lastMember (same ▸ member))
      have notNew : slot ≠ index := by
        intro same
        exact threaded.fresh_of_chain lowest other (same ▸ member)
      rw [Function.update_of_ne notLast, Function.update_of_ne notNew]

end Threaded

/-! ### Every outcome -/

/-- How putting a value can end, by what is met on the walk from its bucket. -/
inductive PutEnds [BEq Value] (store : Store Value) (value : Value) (slots : List Nat) :
    EStateM.Result Fault (Store Value) Nat → Prop
  | found {index : Nat} {stored : Value} : index ∈ slots → store.contents index = some stored →
      stored == value → PutEnds store value slots (.ok index store)
  | leaves {outside : Nat} : store.capacity ≤ outside →
      (store.buckets[store.bucketIndex value]? = some outside ∨
        ∃ last ∈ slots, store.link last = outside) →
      PutEnds store value slots (.error (.outOfBounds store.capacity outside) store)
  | refused : store.Lacks {index | index ∈ slots} value → ¬store.firstFree < store.capacity →
      PutEnds store value slots (.error (.storageFull store.capacity) store)
  | first : slots = [] → store.firstFree < store.capacity →
      store.buckets[store.bucketIndex value]? = some 0 →
      PutEnds store value slots (.ok store.firstFree
        ((store.added store.firstFree value).rebucketed (store.bucketIndex value) store.firstFree))
  | appended {last : Nat} : store.Lacks {index | index ∈ slots} value →
      store.firstFree < store.capacity → last ∈ slots → store.link last = 0 →
      PutEnds store value slots
        (.ok store.firstFree ((store.added store.firstFree value).relinked last store.firstFree))

section

variable [BEq Value] {store : Store Value} {value : Value} {slots : List Nat}

theorem put_ends (allotted : store.Allotted) (walk : store.WalkOf (store.bucketIndex value) slots)
    (held : ∀ index ∈ slots, ∃ value, store.contents index = some value) :
    PutEnds store value slots (put value store) := by
  obtain ⟨head, entry, linked⟩ := walk
  have added := add_eq store value
  unfold put
  rw [bind_ok (get_ok store), bind_ok (get_ok store), bind_ok (read_ok (bucket_eq_ok entry) store)]
  by_cases empty : head = 0
  · subst empty
    have none : slots = [] := linked.head_eq_zero_iff.mp (inward_zero store)
    rw [if_pos rfl]
    by_cases space : store.firstFree < store.capacity
    · rw [if_pos space] at added
      have kept : (store.added store.firstFree value).buckets[store.bucketIndex value]? = some 0 :=
        entry
      rw [bind_ok added, bind_ok (setBucket_eq_ok kept store.firstFree)]
      exact .first none space entry
    · rw [if_neg space] at added
      rw [bind_error added]
      refine .refused ?_ space
      rw [none]
      exact fun _ member => absurd member List.not_mem_nil
  have positive : 0 < store.capacity := Nat.zero_lt_of_lt allotted.lastUsed_lt
  have shorter := length_lt_of_nodup positive linked.nodup linked.zero_notMem fun index member =>
    (held index member).elim fun _ => lt_capacity_of_contents
  obtain ⟨outcome, searched, ends⟩ : ∃ outcome, store.searchFrom value store.capacity head = outcome ∧
      SearchEnds store value head slots outcome := ⟨_, rfl, searchFrom_ends empty linked held shorter⟩
  rw [if_neg empty, bind_ok (get_ok store), bind_ok (get_ok store)]
  cases ends with
  | found member indexHeld same =>
    rw [bind_ok (read_ok searched store)]
    exact .found member indexHeld same
  | leaves outside source =>
    rw [bind_error (read_error searched store)]
    exact .leaves outside (source.imp_left fun isHead => by rw [entry, isHead])
  | @missing last lacks member stops =>
    rw [bind_ok (read_ok searched store)]
    show PutEnds store value slots ((add value >>= fun index => do
      setNext last index
      return index : Action Value Nat) store)
    by_cases space : store.firstFree < store.capacity
    · rw [if_pos space] at added
      have lowest := allotted.lowestFree space
      obtain ⟨lastValue, lastHeld⟩ := held last member
      have kept : (store.added store.firstFree value).contents last = some lastValue := by
        rw [contents_added lowest.nonzero lowest.inside, Function.update_of_ne, lastHeld]
        rintro rfl
        rw [lowest.free] at lastHeld
        cases lastHeld
      rw [bind_ok added, bind_ok (setNext_eq_ok kept store.firstFree)]
      exact .appended lacks space member stops
    · rw [if_neg space] at added
      rw [bind_error added]
      exact .refused lacks space

end

namespace Threaded

variable [BEq Value] {store after : Store Value} {loose : Set Nat} {value : Value} {index : Nat}

/-- In a threaded store the walk from a bucket stays in its chain. -/
theorem put_ends (threaded : store.Threaded loose) (allotted : store.Allotted) (value : Value) :
    ∃ slots, store.ChainOf (store.bucketIndex value) slots ∧
      PutEnds store value slots (put value store) ∧
      ∀ outside, store.capacity ≤ outside → ¬(store.buckets[store.bucketIndex value]? = some outside ∨
        ∃ last ∈ slots, store.link last = outside) := by
  obtain ⟨slots, chain, members⟩ := threaded.chained _ (threaded.bucketIndex_lt value)
  have held : ∀ index ∈ slots, ∃ value, store.contents index = some value :=
    fun index member => threaded.held_of_mem chain member
  have inside : ∀ index ∈ slots, index < store.capacity := fun index member =>
    (held index member).elim fun _ => lt_capacity_of_contents
  refine ⟨slots, chain, Store.put_ends allotted (chain.walkOf inside) held, ?_⟩
  intro outside atLeast source
  have stays := chain.stays (Nat.zero_lt_of_lt allotted.lastUsed_lt) inside source
  omega

/-- A slot with an equal value lies in the value's chain. -/
theorem mem_chain_of_beq [LawfulBucketHash Value] {slots : List Nat} {stored : Value}
    (threaded : store.Threaded loose) (chain : store.ChainOf (store.bucketIndex value) slots) (tight : index ∉ loose)
    (held : store.contents index = some stored) (same : stored == value) : index ∈ slots :=
  (threaded.mem_chain chain index).mpr ⟨tight, stored, held, bucketIndex_eq same⟩

theorem put_found [PartialEquivBEq Value] [LawfulBucketHash Value] {stored : Value}
    (threaded : store.Threaded loose) (allotted : store.Allotted) (tight : index ∉ loose)
    (held : store.contents index = some stored) (same : stored == value) :
    put value store = .ok index store := by
  obtain ⟨slots, chain, ends, stays⟩ := threaded.put_ends allotted value
  have member := threaded.mem_chain_of_beq chain tight held same
  generalize put value store = outcome at ends
  cases ends with
  | @found other stored' otherMember otherHeld otherSame =>
    obtain ⟨otherTight, _⟩ := (threaded.mem_chain chain other).mp otherMember
    rw [threaded.distinct other index stored' stored otherTight tight otherHeld held
      (PartialEquivBEq.trans otherSame (PartialEquivBEq.symm same))]
  | leaves outside source => exact absurd source (stays _ outside)
  | refused lacks _ => exact absurd same (lacks index member stored held)
  | first none _ _ =>
    rw [none] at member
    cases member
  | appended lacks _ _ _ => exact absurd same (lacks index member stored held)

theorem put_full (threaded : store.Threaded loose) (allotted : store.Allotted)
    (lacks : store.Lacks looseᶜ value) (full : ¬store.firstFree < store.capacity) :
    put value store = .error (.storageFull store.capacity) store := by
  obtain ⟨slots, chain, ends, stays⟩ := threaded.put_ends allotted value
  generalize put value store = outcome at ends
  cases ends with
  | @found other stored member held same =>
    obtain ⟨tight, _⟩ := (threaded.mem_chain chain other).mp member
    exact absurd same (lacks other tight stored held)
  | leaves outside source => exact absurd source (stays _ outside)
  | refused _ _ => rfl
  | first _ space _ => exact absurd space full
  | appended _ space _ _ => exact absurd space full

theorem put_new (threaded : store.Threaded loose) (allotted : store.Allotted)
    (lacks : store.Lacks looseᶜ value) (space : store.firstFree < store.capacity) :
    ∃ after, put value store = .ok store.firstFree after ∧
      store.Inserted store.firstFree value after := by
  obtain ⟨slots, chain, ends, stays⟩ := threaded.put_ends allotted value
  have lowest := allotted.lowestFree space
  generalize put value store = outcome at ends
  cases ends with
  | @found other stored member held same =>
    obtain ⟨tight, _⟩ := (threaded.mem_chain chain other).mp member
    exact absurd same (lacks other tight stored held)
  | leaves outside source => exact absurd source (stays _ outside)
  | refused _ full => exact absurd space full
  | first none _ _ => exact ⟨_, rfl, threaded.inserted_first allotted lowest (none ▸ chain)⟩
  | @appended last _ _ member stops =>
    have ⟨_, _, linked⟩ := chain
    obtain ⟨front, rfl⟩ := linked.split_last member stops
    obtain ⟨lastValue, lastHeld⟩ := threaded.held_of_mem chain member
    have lastKept : (store.added store.firstFree value).contents last = some lastValue := by
      rw [contents_added lowest.nonzero lowest.inside, Function.update_of_ne, lastHeld]
      rintro rfl
      exact threaded.fresh_of_chain lowest chain member
    exact ⟨_, rfl, threaded.inserted_last allotted lowest chain lastKept⟩

end Threaded

/-! ## Growing -/

/-- `after` holds all that `before` holds, where `before` holds it, and has grown at the ends of
the chains only. -/
structure Extends (before after : Store Value) : Prop where
  contents : ∀ index value, before.contents index = some value → after.contents index = some value
  capacity : after.capacity = before.capacity
  bucketCount : after.bucketCount = before.bucketCount
  lastUsed : before.lastUsed ≤ after.lastUsed
  liveCount : before.liveCount ≤ after.liveCount
  chain : ∀ number slots, before.ChainOf number slots → ∃ more, after.ChainOf number (slots ++ more)

omit [BucketHash Value] in
theorem Extends.refl (store : Store Value) : store.Extends store :=
  ⟨fun _ _ held => held, rfl, rfl, Nat.le_refl _, Nat.le_refl _,
    fun _ slots chain => ⟨[], by rw [List.append_nil]; exact chain⟩⟩

omit [BucketHash Value] in
theorem Extends.trans {before middle after : Store Value} (first : before.Extends middle)
    (second : middle.Extends after) : before.Extends after := by
  refine ⟨fun index value held => second.contents index value (first.contents index value held),
    second.capacity.trans first.capacity, second.bucketCount.trans first.bucketCount,
    first.lastUsed.trans second.lastUsed, first.liveCount.trans second.liveCount, ?_⟩
  intro number slots chain
  obtain ⟨more, middleChain⟩ := first.chain number slots chain
  obtain ⟨rest, afterChain⟩ := second.chain number _ middleChain
  exact ⟨more ++ rest, by rw [← List.append_assoc]; exact afterChain⟩

theorem Inserted.extends {before after : Store Value} {index : Nat} {value : Value}
    (inserted : before.Inserted index value after) (free : before.contents index = none) :
    before.Extends after := by
  refine ⟨?_, inserted.capacity, inserted.bucketCount, ?_, ?_, ?_⟩
  · intro other held stored
    have apart : other ≠ index := by
      intro same
      rw [same, free] at stored
      cases stored
    rw [inserted.contents, Function.update_of_ne apart, stored]
  · rw [inserted.lastUsed]
    exact Nat.le_max_left _ _
  · rw [inserted.liveCount]
    exact Nat.le_succ _
  · intro number slots chain
    have grown := inserted.chain number slots chain
    by_cases own : before.bucketIndex value = number
    · rw [if_pos own] at grown
      exact ⟨[index], grown⟩
    · rw [if_neg own] at grown
      exact ⟨[], by rw [List.append_nil]; exact grown⟩

end DecisionDiagram.Store
