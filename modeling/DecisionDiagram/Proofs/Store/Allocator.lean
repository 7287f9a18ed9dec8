import DecisionDiagram.Node
import DecisionDiagram.Proofs.Store.Create

/-!
# Slots under any sequence of requests

Values may be added loose, put into the unique table and given back, and links and buckets may be set
by hand, in any order, as long as no chain is bent into a cycle or onto a free slot. Chains may then
share slots, and may lead out of the store, so the unique table is no set any more. The slots are
still handed out lowest first, each only while it is free, and the counters are right.
-/

set_option autoImplicit false

namespace DecisionDiagram.Store

variable {Value : Type}

/-! ## What can be asked of a store -/

inductive Request (Value : Type) where
  | add (value : Value)
  | put (value : Value)
  | free (index : Nat)
  | setNext (index next : Nat)
  | setBucket (number head : Nat)

/-- Every chain ends and meets slots in use only. -/
def Walkable (store : Store Value) : Prop :=
  ∀ number, number < store.bucketCount → ∃ slots, store.WalkOf number slots ∧
    ∀ index ∈ slots, ∃ value, store.contents index = some value

namespace Request

variable [BEq Value] [BucketHash Value]

/-- Carries the request out and yields the slot where the value is, if it is about a value. -/
def perform : Request Value → Action Value (Option Nat)
  | add value => return some (← Store.add value)
  | put value => return some (← Store.put value)
  | free index => do
    Store.free index
    return none
  | setNext index next => do
    Store.setNext index next
    return none
  | setBucket number head => do
    Store.setBucket number head
    return none

/-- What the request leaves of a store, whether it returns or faults. -/
def leaves (request : Request Value) (store : Store Value) : Store Value :=
  match request.perform store with
  | .ok _ after => after
  | .error _ after => after

/-- The slot that the request takes into use. -/
def takes (request : Request Value) (store : Store Value) : Option Nat :=
  match request.perform store with
  | .ok (some index) _ => if (store.contents index).isNone then some index else none
  | _ => none

/-- A slot is given back when no chain reaches it, and links are set such that every chain still ends
and meets no free slot. -/
def Permitted (store : Store Value) : Request Value → Prop
  | add _ | put _ => True
  | free index => ∀ number slots, store.WalkOf number slots → index ∉ slots
  | setNext index next => ((setNext index next).leaves store).Walkable
  | setBucket number head => ((setBucket number head).leaves store).Walkable

end Request

/-- The counters are right and every chain can be walked. -/
structure Tended (store : Store Value) : Prop where
  allotted : store.Allotted
  bucketCount_pos : 0 < store.bucketCount
  bucketCount_lt : store.bucketCount < 2 ^ 64
  walkable : store.Walkable

theorem Fresh.tended [Inhabited Value] {store : Store Value} {bits bucketBits : Nat}
    (fresh : store.Fresh bits bucketBits) (few : bucketBits ≤ maxBits) : store.Tended where
  allotted := fresh.allotted
  bucketCount_pos := fresh.bucketCount_pos
  bucketCount_lt := fresh.bucketCount_lt few
  walkable _ inside := by
    have none : ∀ index ∈ ([] : List Nat), index < store.capacity :=
      fun _ member => absurd member List.not_mem_nil
    exact ⟨[], (fresh.chainOf inside).walkOf none, fun _ member => absurd member List.not_mem_nil⟩

/-! ## What the chains are after a change -/

namespace Tended

variable {store : Store Value} {index last number : Nat} {slots : List Nat}

theorem held_of_mem (tended : store.Tended) (walk : store.WalkOf number slots)
    (member : index ∈ slots) : ∃ value, store.contents index = some value := by
  have ⟨_, entry, _⟩ := walk
  obtain ⟨same, found, held⟩ := tended.walkable number (Array.getElem?_eq_some_iff.mp entry).1
  rw [walk.unique found] at member
  exact held index member

theorem free_notMem (tended : store.Tended) (free : store.contents index = none)
    (walk : store.WalkOf number slots) : index ∉ slots := by
  intro member
  obtain ⟨value, held⟩ := tended.held_of_mem walk member
  rw [free] at held
  cases held

theorem added (tended : store.Tended) (lowest : store.LowestFree index) (value : Value) :
    (store.added index value).Tended where
  allotted := tended.allotted.added lowest value
  bucketCount_pos := tended.bucketCount_pos
  bucketCount_lt := tended.bucketCount_lt
  walkable number inside := by
    obtain ⟨slots, walk, held⟩ := tended.walkable number inside
    have apart : ∀ other ∈ slots, other ≠ index := by
      rintro _ member rfl
      exact tended.free_notMem lowest.free walk member
    refine ⟨slots, walk.congr rfl (capacity_added value) fun other member => ?_, fun other member => ?_⟩
    · rw [link_added lowest.inside, Function.update_of_ne (apart other member)]
    · rw [contents_added lowest.nonzero lowest.inside, Function.update_of_ne (apart other member)]
      exact held other member

theorem freed {value : Value} (tended : store.Tended) (held : store.contents index = some value)
    (loose : ∀ number slots, store.WalkOf number slots → index ∉ slots) :
    (store.freed index).Tended where
  allotted := tended.allotted.freed held
  bucketCount_pos := tended.bucketCount_pos
  bucketCount_lt := tended.bucketCount_lt
  walkable number inside := by
    obtain ⟨slots, walk, heldAll⟩ := tended.walkable number inside
    have apart : ∀ other ∈ slots, other ≠ index := by
      rintro _ member rfl
      exact loose number slots walk member
    refine ⟨slots, walk.congr rfl capacity_freed fun other member => ?_, fun other member => ?_⟩
    · rw [link_freed, Function.update_of_ne (apart other member)]
    · rw [contents_freed, Function.update_of_ne (apart other member)]
      exact heldAll other member

/-- A slot that links nowhere becomes the only one of a bucket. -/
theorem headed {value : Value} (tended : store.Tended) (held : store.contents index = some value)
    (stops : store.link index = 0) : (store.rebucketed number index).Tended where
  allotted := tended.allotted.rebucketed number index
  bucketCount_pos := by
    rw [bucketCount_rebucketed]
    exact tended.bucketCount_pos
  bucketCount_lt := by
    rw [bucketCount_rebucketed]
    exact tended.bucketCount_lt
  walkable other inside := by
    rw [bucketCount_rebucketed] at inside
    obtain ⟨slots, walk, heldAll⟩ := tended.walkable other inside
    have ⟨head, entry, _⟩ := walk
    by_cases own : number = other
    · subst own
      refine ⟨[index], ⟨index, by rw [buckets_rebucketed entry, if_pos rfl], ?_⟩, ?_⟩
      · show Linked (store.inward ∘ store.link) (store.inward index) [index]
        rw [inward_eq (lt_capacity_of_contents held)]
        refine .cons (ne_zero_of_contents held) ?_
        rw [Function.comp_apply, stops, inward_zero]
        exact .nil
      · rintro _ (_ | ⟨_, ⟨⟩⟩)
        exact ⟨value, held⟩
    · refine ⟨slots, walk.congr ?_ rfl fun _ _ => rfl, heldAll⟩
      exact Array.getElem?_setIfInBounds_ne own

/-- A new slot is linked from a slot at the end of one chain or more. -/
theorem extended {lastValue : Value} (tended : store.Tended) (lowest : store.LowestFree index)
    (value : Value) (held : store.contents last = some lastValue) (stops : store.link last = 0) :
    ((store.added index value).relinked last index).Tended := by
  have apart : last ≠ index := by
    rintro rfl
    rw [lowest.free] at held
    cases held
  have kept : (store.added index value).contents last = some lastValue := by
    rw [contents_added lowest.nonzero lowest.inside, Function.update_of_ne apart, held]
  have capacity : ((store.added index value).relinked last index).capacity = store.capacity := by
    rw [capacity_relinked, capacity_added]
  have inward : ((store.added index value).relinked last index).inward = store.inward := by
    unfold Store.inward
    rw [capacity]
  have links : ((store.added index value).relinked last index).link =
      Function.update (Function.update store.link index 0) last index := by
    rw [link_relinked kept, link_added lowest.inside]
  have contents : ((store.added index value).relinked last index).contents =
      Function.update store.contents index (some value) := by
    rw [contents_relinked, contents_added lowest.nonzero lowest.inside]
  refine ⟨(tended.allotted.added lowest value).relinked last index, tended.bucketCount_pos,
    tended.bucketCount_lt, fun number inside => ?_⟩
  obtain ⟨slots, walk, heldAll⟩ := tended.walkable number inside
  have fresh := tended.free_notMem lowest.free walk
  have heldOld : ∀ other ∈ slots, ∃ stored,
      ((store.added index value).relinked last index).contents other = some stored := by
    intro other member
    have notNew : other ≠ index := fun same => fresh (same ▸ member)
    rw [contents, Function.update_of_ne notNew]
    exact heldAll other member
  by_cases member : last ∈ slots
  · obtain ⟨head, entry, linked⟩ := walk
    obtain ⟨front, rfl⟩ := linked.split_last member
      (by rw [Function.comp_apply, stops, inward_zero])
    refine ⟨front ++ [last] ++ [index], ⟨head, entry, ?_⟩, ?_⟩
    · rw [inward, links, Function.comp_update, Function.comp_update, inward_zero,
        inward_eq lowest.inside]
      exact linked.append fresh lowest.nonzero
    · intro other otherMember
      rcases List.mem_append.mp otherMember with old | new
      · exact heldOld other old
      · rw [List.mem_singleton.mp new, contents, Function.update_self]
        exact ⟨value, rfl⟩
  · refine ⟨slots, walk.congr rfl capacity fun other otherMember => ?_, heldOld⟩
    have notLast : other ≠ last := fun same => member (same ▸ otherMember)
    have notNew : other ≠ index := fun same => fresh (same ▸ otherMember)
    rw [links, Function.update_of_ne notLast, Function.update_of_ne notNew]

end Tended

/-! ## What one request does -/

/-- How a request can end: with nothing changed, with a slot taken into use, or with a change that
takes no slot. The walk along a chain always comes to an end. -/
inductive RequestEnds [BEq Value] (store : Store Value) (request : Request Value) :
    EStateM.Result Fault (Store Value) (Option Nat) → Prop
  | refused {fault : Fault} : fault ≠ .depthExceeded → RequestEnds store request (.error fault store)
  | found {index : Nat} {stored value : Value} : request = .put value →
      store.contents index = some stored → stored == value →
      RequestEnds store request (.ok (some index) store)
  | taken {index : Nat} {value : Value} {after : Store Value} :
      request = .add value ∨ request = .put value → store.LowestFree index →
      after.contents = Function.update store.contents index (some value) →
      after.capacity = store.capacity → after.lastUsed = max store.lastUsed index → after.Tended →
      RequestEnds store request (.ok (some index) after)
  | changed {after : Store Value} : after.capacity = store.capacity →
      after.lastUsed = store.lastUsed → after.Tended → RequestEnds store request (.ok none after)

section

variable {store : Store Value} {index : Nat}

theorem slot_error {fault : Fault} (read : store.slot index = .error fault) :
    fault ≠ .depthExceeded := by
  rintro rfl
  unfold Store.slot slotAt at read
  split at read
  · cases read
  · split at read <;> cases read

theorem free_cases (store : Store Value) (index : Nat) :
    (∃ fault, fault ≠ .depthExceeded ∧ free index store = .error fault store) ∨
      ∃ value, store.contents index = some value ∧ free index store = .ok () (store.freed index) := by
  cases held : store.contents index with
  | some value => exact Or.inr ⟨value, rfl, free_eq_ok held⟩
  | none =>
    refine Or.inl ?_
    unfold free
    cases read : store.slot index with
    | error fault =>
      refine ⟨fault, slot_error read, ?_⟩
      rw [bind_ok (get_ok store), bind_error (read_error read store)]
    | ok slot =>
      have idle : slot.occupied = false := by
        by_contra used
        unfold Store.slot slotAt at read
        unfold contents at held
        split at read
        · cases read
        · rename_i nonzero
          split at read
          · rename_i found
            cases read
            simp only [if_neg nonzero, found, Bool.eq_true_of_not_eq_false used, if_true] at held
            cases held
          · cases read
      refine ⟨.slotNotOccupied index, nofun, ?_⟩
      rw [bind_ok (get_ok store), bind_ok (read_ok read store), idle]
      rfl

theorem setNext_cases (store : Store Value) (index next : Nat) :
    (∃ fault, fault ≠ .depthExceeded ∧ setNext index next store = .error fault store) ∨
      setNext index next store = .ok () (store.relinked index next) := by
  unfold setNext
  cases read : store.slot index with
  | error fault =>
    refine Or.inl ⟨fault, slot_error read, ?_⟩
    rw [bind_ok (get_ok store), bind_error (read_error read store)]
  | ok slot =>
    refine Or.inr ?_
    rw [bind_ok (get_ok store), bind_ok (read_ok read store)]
    rfl

theorem setBucket_cases (store : Store Value) (number head : Nat) :
    (∃ fault, fault ≠ .depthExceeded ∧ setBucket number head store = .error fault store) ∨
      setBucket number head store = .ok () (store.rebucketed number head) := by
  cases entry : store.buckets[number]? with
  | some old => exact Or.inr (setBucket_eq_ok entry head)
  | none =>
    have read : store.bucket number = .error (.outOfBounds store.buckets.size number) := by
      simp only [bucket, entry]
    refine Or.inl ⟨.outOfBounds store.buckets.size number, by rintro ⟨⟩, ?_⟩
    unfold setBucket
    rw [bind_ok (get_ok store), bind_error (read_error read store)]

variable [BEq Value] [BucketHash Value]

/-- A chain that ends may be searched, wherever it leads. -/
theorem put_requestEnds (tended : store.Tended) (value : Value) :
    RequestEnds store (.put value) ((Request.put value).perform store) := by
  have inside := bucketIndex_lt tended.bucketCount_pos tended.bucketCount_lt value
  obtain ⟨slots, walk, held⟩ := tended.walkable _ inside
  obtain ⟨outcome, run, ends⟩ : ∃ outcome, put value store = outcome ∧
      PutEnds store value slots outcome := ⟨_, rfl, put_ends tended.allotted walk held⟩
  rw [Request.perform]
  cases ends with
  | found _ indexHeld same =>
    rw [bind_ok run]
    exact .found rfl indexHeld same
  | leaves _ _ =>
    rw [bind_error run]
    exact .refused nofun
  | refused _ _ =>
    rw [bind_error run]
    exact .refused nofun
  | first none space entry =>
    have lowest := tended.allotted.lowestFree space
    have contents := contents_added lowest.nonzero lowest.inside value
    have newHeld : (store.added store.firstFree value).contents store.firstFree = some value := by
      rw [contents, Function.update_self]
    have newEnds : (store.added store.firstFree value).link store.firstFree = 0 := by
      rw [link_added lowest.inside, Function.update_self]
    rw [bind_ok run]
    exact .taken (Or.inr rfl) lowest contents (capacity_added value) rfl
      ((tended.added lowest value).headed newHeld newEnds)
  | @appended last _ space member stops =>
    have lowest := tended.allotted.lowestFree space
    have contents : ((store.added store.firstFree value).relinked last store.firstFree).contents =
        Function.update store.contents store.firstFree (some value) := by
      rw [contents_relinked, contents_added lowest.nonzero lowest.inside]
    obtain ⟨lastValue, lastHeld⟩ := held last member
    have capacity : ((store.added store.firstFree value).relinked last store.firstFree).capacity =
        store.capacity := by
      rw [capacity_relinked, capacity_added]
    rw [bind_ok run]
    exact .taken (Or.inr rfl) lowest contents capacity rfl
      (tended.extended lowest value lastHeld stops)

/-- Adding a value is refused exactly where all slots are in use. -/
theorem Tended.added_or_full (tended : store.Tended) (value : Value) :
    (store.Full ∧ (Request.add value).perform store = .error (.storageFull store.capacity) store) ∨
      (¬store.Full ∧ ∃ index, (Request.add value).takes store = some index) := by
  have run := add_eq store value
  unfold Request.takes
  rw [Request.perform]
  by_cases space : store.firstFree < store.capacity
  · rw [if_pos space] at run
    refine Or.inr ⟨fun full => tended.allotted.full_iff.mp full space, store.firstFree, ?_⟩
    rw [bind_ok run]
    exact if_pos (Option.isNone_iff_eq_none.mpr (tended.allotted.lowestFree space).free)
  · rw [if_neg space] at run
    exact Or.inl ⟨tended.allotted.full space, bind_error run⟩

/-- A permitted request ends in one of the ways that keep the chains walkable. -/
theorem Request.ends {request : Request Value} (tended : store.Tended)
    (permitted : request.Permitted store) : RequestEnds store request (request.perform store) := by
  cases request with
  | put value => exact put_requestEnds tended value
  | add value =>
    rw [perform]
    have run := add_eq store value
    by_cases space : store.firstFree < store.capacity
    · rw [if_pos space] at run
      have lowest := tended.allotted.lowestFree space
      rw [bind_ok run]
      exact .taken (Or.inl rfl) lowest (contents_added lowest.nonzero lowest.inside value)
        (capacity_added value) rfl (tended.added lowest value)
    · rw [if_neg space] at run
      rw [bind_error run]
      exact .refused nofun
  | free index =>
    rw [perform]
    rcases free_cases store index with ⟨fault, sort, run⟩ | ⟨value, held, run⟩
    · rw [bind_error run]
      exact .refused sort
    · rw [bind_ok run]
      exact .changed capacity_freed rfl (tended.freed held permitted)
  | setNext index next =>
    rcases setNext_cases store index next with ⟨fault, sort, run⟩ | run
    · rw [perform, bind_error run]
      exact .refused sort
    · have performed : (setNext index next).perform store = .ok none (store.relinked index next) := by
        rw [perform, bind_ok run]
        rfl
      have walkable : ((setNext index next).leaves store).Walkable := permitted
      unfold leaves at walkable
      rw [performed] at walkable ⊢
      exact .changed (capacity_relinked store index next) rfl
        ⟨tended.allotted.relinked index next, tended.bucketCount_pos, tended.bucketCount_lt, walkable⟩
  | setBucket number head =>
    rcases setBucket_cases store number head with ⟨fault, sort, run⟩ | run
    · rw [perform, bind_error run]
      exact .refused sort
    · have performed :
          (setBucket number head).perform store = .ok none (store.rebucketed number head) := by
        rw [perform, bind_ok run]
        rfl
      have walkable : ((setBucket number head).leaves store).Walkable := permitted
      unfold leaves at walkable
      rw [performed] at walkable ⊢
      refine .changed rfl rfl ⟨tended.allotted.rebucketed number head, ?_, ?_, walkable⟩
      · rw [bucketCount_rebucketed]
        exact tended.bucketCount_pos
      · rw [bucketCount_rebucketed]
        exact tended.bucketCount_lt

end

/-! ## Every sequence of requests -/

section

variable [Inhabited Value] [BEq Value] [BucketHash Value] {bits bucketBits : Nat}
  {store : Store Value} {taken : List Nat}

/-- The stores that permitted requests lead to, with the slots that were taken into use on the way,
the last one first. A request that faults ends like any other. -/
inductive Requested (bits bucketBits : Nat) : List Nat → Store Value → Prop
  | created {store : Store Value} : create bits bucketBits = .ok store →
      Requested bits bucketBits [] store
  | asked {taken : List Nat} {store : Store Value} (request : Request Value) :
      Requested bits bucketBits taken store → request.Permitted store →
      Requested bits bucketBits ((request.takes store).toList ++ taken) (request.leaves store)

/-- The bookkeeping of the slots, after `taken` have been handed out. -/
structure Accounted (store : Store Value) (bits : Nat) (taken : List Nat) : Prop where
  capacity : store.capacity = 2 ^ bits
  sentinel : ∃ slot, store.slots[0]? = some slot ∧ slot.occupied = true
  sentinel_notMem : 0 ∉ taken
  used_below : ∀ index, index ≠ 0 → index < store.minFree →
    ∃ value, store.contents index = some value
  free_above : ∀ index, store.lastUsed < index → store.contents index = none
  lastUsed : store.lastUsed = taken.foldr max 0
  liveCount : store.liveCount = store.liveSlots.card

/-- What the next request does with the slots. -/
structure Allocates (store : Store Value) (request : Request Value) : Prop where
  refused : ∀ fault after, request.perform store = .error fault after →
    after = store ∧ fault ≠ .depthExceeded
  found : ∀ index after, request.perform store = .ok (some index) after →
    request.takes store = none → after = store ∧ ∃ value stored, request = .put value ∧
      store.contents index = some stored ∧ stored == value
  taken : ∀ index, request.takes store = some index → store.LowestFree index ∧
    ∃ value after, (request = .add value ∨ request = .put value) ∧
      request.perform store = .ok (some index) after ∧
        after.contents = Function.update store.contents index (some value)
  added : ∀ value, request = .add value →
    (store.Full ∧ request.perform store = .error (.storageFull store.capacity) store) ∨
      (¬store.Full ∧ ∃ index, request.takes store = some index)
  grows : store.lastUsed ≤ (request.leaves store).lastUsed

theorem Requested.tended (few : bits ≤ maxBits) (fewBuckets : bucketBits ≤ maxBits)
    (requested : Requested bits bucketBits taken store) :
    store.Tended ∧ store.capacity = 2 ^ bits ∧ 0 ∉ taken ∧ store.lastUsed = taken.foldr max 0 := by
  induction requested with
  | created made =>
    obtain ⟨other, alsoMade, fresh⟩ : ∃ other : Store Value,
        create bits bucketBits = .ok other ∧ other.Fresh bits bucketBits := create_spec few fewBuckets
    cases made.symm.trans alsoMade
    exact ⟨fresh.tended fewBuckets, fresh.capacity, List.not_mem_nil, fresh.lastUsed⟩
  | @asked taken store request _ permitted ih =>
    obtain ⟨tended, capacity, notZero, lastUsed⟩ := ih
    obtain ⟨outcome, run, ends⟩ : ∃ outcome, request.perform store = outcome ∧
        RequestEnds store request outcome := ⟨_, rfl, Request.ends tended permitted⟩
    unfold Request.leaves Request.takes
    rw [run]
    cases ends with
    | refused _ => exact ⟨tended, capacity, notZero, lastUsed⟩
    | found _ held _ =>
      simp only [held, Option.isNone_some]
      exact ⟨tended, capacity, notZero, lastUsed⟩
    | @taken index value after _ lowest _ sameCapacity last laterTended =>
      simp only [lowest.free, Option.isNone_none, if_true]
      refine ⟨laterTended, sameCapacity.trans capacity, ?_, ?_⟩
      · exact List.not_mem_cons_of_ne_of_not_mem (Ne.symm lowest.nonzero) notZero
      · rw [last, lastUsed]
        exact Nat.max_comm _ _
    | changed sameCapacity same laterTended =>
      exact ⟨laterTended, sameCapacity.trans capacity, notZero, same.trans lastUsed⟩

theorem Tended.allocates (tended : store.Tended) {request : Request Value}
    (permitted : request.Permitted store) : store.Allocates request := by
  have added : ∀ value, request = .add value →
      (store.Full ∧ request.perform store = .error (.storageFull store.capacity) store) ∨
        (¬store.Full ∧ ∃ index, request.takes store = some index) := by
    rintro value rfl
    exact tended.added_or_full value
  obtain ⟨outcome, run, ends⟩ : ∃ outcome, request.perform store = outcome ∧
      RequestEnds store request outcome := ⟨_, rfl, Request.ends tended permitted⟩
  cases ends with
  | refused sort =>
    refine ⟨?_, ?_, ?_, added, ?_⟩
    · rw [run]
      rintro _ _ ⟨⟩
      exact ⟨rfl, sort⟩
    · simp [run]
    · simp [Request.takes, run]
    · simp [Request.leaves, run]
  | found isPut held same =>
    refine ⟨by simp [run], ?_, ?_, added, ?_⟩
    · rw [run]
      rintro _ _ ⟨⟩ _
      exact ⟨rfl, _, _, isPut, held, same⟩
    · simp [Request.takes, run, held]
    · simp [Request.leaves, run]
  | @taken index value after kind lowest contents _ last _ =>
    refine ⟨by simp [run], ?_, ?_, added, ?_⟩
    · simp [Request.takes, run, lowest.free]
    · intro other taking
      simp only [Request.takes, run, lowest.free, Option.isNone_none, if_true,
        Option.some.injEq] at taking
      subst taking
      exact ⟨lowest, value, after, kind, run, contents⟩
    · simp [Request.leaves, run, last]
  | changed _ same _ =>
    refine ⟨by simp [run], by simp [run], ?_, added, ?_⟩
    · simp [Request.takes, run]
    · simp [Request.leaves, run, same]

theorem Requested.accounted (few : bits ≤ maxBits) (fewBuckets : bucketBits ≤ maxBits)
    (requested : Requested bits bucketBits taken store) : store.Accounted bits taken := by
  obtain ⟨tended, capacity, notZero, lastUsed⟩ := requested.tended few fewBuckets
  have allotted := tended.allotted
  refine ⟨capacity, allotted.sentinel, notZero, allotted.used_below, fun index above => ?_, lastUsed,
    allotted.liveCount_eq⟩
  cases held : store.contents index with
  | none => rfl
  | some value =>
    have := allotted.free_above index value held
    omega

/-- **The law of the allocator.** A store can be created, and after any permitted requests the
counters are right and the next request takes the lowest free slot or none. -/
theorem requested_allocates (few : bits ≤ maxBits) (fewBuckets : bucketBits ≤ maxBits) :
    (∃ store : Store Value, create bits bucketBits = .ok store) ∧
      ∀ (taken : List Nat) (store : Store Value), Requested bits bucketBits taken store →
        store.Accounted bits taken ∧
          ∀ request : Request Value, request.Permitted store → store.Allocates request := by
  constructor
  · obtain ⟨store, made, _⟩ : ∃ store : Store Value,
        create bits bucketBits = .ok store ∧ store.Fresh bits bucketBits := create_spec few fewBuckets
    exact ⟨store, made⟩
  · intro taken store requested
    have tended := (requested.tended few fewBuckets).1
    exact ⟨requested.accounted few fewBuckets, fun _ permitted => tended.allocates permitted⟩

end

/-- A store with one slot hands it out once and then refuses. -/
theorem requested_allocates_once : (1 ≤ maxBits ∧ 0 ≤ maxBits) ∧
    ∃ store : Store Node, Requested 1 0 [1] store ∧ store.lastUsed = 1 ∧
      (Request.add default).perform store = .error (.storageFull 2) store := by
  have few : 1 ≤ maxBits := by decide
  have fewBuckets : 0 ≤ maxBits := by decide
  obtain ⟨⟨start, made⟩, law⟩ := @requested_allocates Node _ _ _ 1 0 few fewBuckets
  obtain ⟨other, alsoMade, fresh⟩ : ∃ other : Store Node,
      create 1 0 = .ok other ∧ other.Fresh 1 0 := create_spec few fewBuckets
  cases made.symm.trans alsoMade
  have created : Requested 1 0 [] start := .created made
  obtain ⟨_, handsOut⟩ := law [] start created
  have taking := handsOut (.add default) trivial
  obtain ⟨index, takes⟩ := ((taking.added default rfl).resolve_left fun refusal =>
    fresh.not_full Nat.one_ne_zero refusal.1).2
  obtain ⟨lowest, value, after, _, run, contents⟩ := taking.taken index takes
  obtain rfl := lowest.eq_one fresh.capacity
  have asked : Requested 1 0 [1] after := by
    have next := created.asked (.add default) trivial
    rw [takes, Request.leaves, run] at next
    exact next
  obtain ⟨accounted, refuses⟩ := law [1] after asked
  refine ⟨⟨few, fewBuckets⟩, after, asked, accounted.lastUsed, ?_⟩
  rcases (refuses (.add default) trivial).added default rfl with ⟨_, refusal⟩ | ⟨hasRoom, _⟩
  · rw [refusal, accounted.capacity]
    rfl
  · have held : after.contents 1 = some value := by
      rw [contents, Function.update_self]
    exact absurd (full_of_capacity_eq_two accounted.capacity held) hasRoom

end DecisionDiagram.Store
