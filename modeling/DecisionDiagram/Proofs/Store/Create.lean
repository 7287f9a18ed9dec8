import DecisionDiagram.Proofs.Store.UniqueTable

/-!
# New stores

A new store has nothing in use and no slot in any chain.
-/

set_option autoImplicit false

namespace DecisionDiagram.Store

variable {Value : Type} [Inhabited Value]

/-- A store in which no slot has been handed out. -/
structure Fresh (store : Store Value) (bits bucketBits : Nat) : Prop where
  slots : ∀ index, index ≠ 0 → index < store.capacity →
    store.slots[index]? = some ⟨default, 0, false⟩
  sentinel : ∃ slot, store.slots[0]? = some slot ∧ slot.occupied = true
  buckets : ∀ number, number < store.bucketCount → store.buckets[number]? = some 0
  capacity : store.capacity = 2 ^ bits
  bucketCount : store.bucketCount = 2 ^ bucketBits
  minFree : store.minFree = 1
  lastUsed : store.lastUsed = 0
  liveCount : store.liveCount = 0

theorem create_spec {bits bucketBits : Nat} (few : bits ≤ maxBits) (fewBuckets : bucketBits ≤ maxBits) :
    ∃ store, (create bits bucketBits : Except Fault (Store Value)) = .ok store ∧
      store.Fresh bits bucketBits := by
  have checked : checkBits bits bucketBits = .ok () := by
    unfold checkBits
    rw [if_neg (Nat.not_lt.mpr few), if_neg (Nat.not_lt.mpr fewBuckets)]
    rfl
  have positive : 0 < 1 <<< bits := by
    rw [Nat.one_shiftLeft]
    exact Nat.two_pow_pos bits
  unfold create
  rw [checked]
  refine ⟨_, rfl, ?_, ?_, ?_, ?_, ?_, rfl, rfl, rfl⟩
  · intro index nonzero inside
    simp only [capacity, Array.size_modify, Array.size_replicate] at inside
    simp only [Array.getElem?_modify, if_neg (Ne.symm nonzero), Array.getElem?_replicate, if_pos inside]
  · refine ⟨⟨default, 0, true⟩, ?_, rfl⟩
    simp only [Array.getElem?_modify, if_pos, Array.getElem?_replicate, if_pos positive, Option.map_some]
  · intro number inside
    simp only [bucketCount, Array.size_replicate] at inside
    simp [inside]
  · simp [capacity, Nat.one_shiftLeft]
  · simp [bucketCount, Nat.one_shiftLeft]

namespace Fresh

variable {store : Store Value} {bits bucketBits : Nat}

theorem contents_eq_none (fresh : store.Fresh bits bucketBits) (index : Nat) :
    store.contents index = none := by
  cases held : store.contents index with
  | none => rfl
  | some value =>
    obtain ⟨nonzero, found⟩ := contents_eq_some.mp held
    rw [fresh.slots index nonzero (lt_capacity_of_contents held)] at found
    have occupied := congrArg (Option.map Slot.occupied) found
    simp at occupied

theorem liveSlots_eq_empty (fresh : store.Fresh bits bucketBits) : store.liveSlots = ∅ := by
  refine Finset.eq_empty_of_forall_notMem fun index member => ?_
  obtain ⟨value, held⟩ := mem_liveSlots.mp member
  rw [fresh.contents_eq_none] at held
  cases held

theorem allotted (fresh : store.Fresh bits bucketBits) : store.Allotted where
  sentinel := fresh.sentinel
  minFree_pos := by
    rw [fresh.minFree]
    exact Nat.one_pos
  minFree_le := by
    rw [fresh.minFree, fresh.lastUsed]
  used_below index nonzero below := by
    rw [fresh.minFree] at below
    omega
  free_above index value held := by
    rw [fresh.contents_eq_none] at held
    cases held
  lastUsed_lt := by
    rw [fresh.lastUsed, fresh.capacity]
    exact Nat.two_pow_pos bits
  liveCount_eq := by
    rw [fresh.liveSlots_eq_empty, fresh.liveCount]
    rfl

theorem bucketCount_pos (fresh : store.Fresh bits bucketBits) : 0 < store.bucketCount := by
  rw [fresh.bucketCount]
  exact Nat.two_pow_pos bucketBits

theorem bucketCount_lt (fresh : store.Fresh bits bucketBits) (few : bucketBits ≤ maxBits) :
    store.bucketCount < 2 ^ 64 := by
  rw [fresh.bucketCount]
  exact Nat.pow_lt_pow_right Nat.one_lt_two (Nat.lt_of_le_of_lt few (by decide))

theorem chainOf (fresh : store.Fresh bits bucketBits) {number : Nat}
    (inside : number < store.bucketCount) : store.ChainOf number [] :=
  ⟨0, fresh.buckets number inside, .nil⟩

theorem threaded [BEq Value] [BucketHash Value] (fresh : store.Fresh bits bucketBits)
    (few : bucketBits ≤ maxBits) : store.Threaded ∅ := by
  refine ⟨fresh.bucketCount_pos, fresh.bucketCount_lt few, fun number inside => ?_, ?_⟩
  · refine ⟨[], fresh.chainOf inside, fun index => ?_⟩
    simp [fresh.contents_eq_none]
  · intro first second value other _ _ held
    rw [fresh.contents_eq_none] at held
    cases held

theorem not_full (fresh : store.Fresh bits bucketBits) (some : bits ≠ 0) : ¬store.Full := by
  intro full
  have two : 1 < store.capacity := by
    rw [fresh.capacity]
    exact Nat.one_lt_two_pow some
  obtain ⟨value, held⟩ := full 1 Nat.one_ne_zero two
  rw [fresh.contents_eq_none] at held
  cases held

end Fresh

/-! ## The smallest store -/

section

variable {store : Store Value} {index : Nat} {value : Value}

omit [Inhabited Value] in
theorem LowestFree.eq_one (lowest : store.LowestFree index) (small : store.capacity = 2) :
    index = 1 := by
  have nonzero := lowest.nonzero
  have inside := lowest.inside
  omega

omit [Inhabited Value] in
theorem full_of_capacity_eq_two (small : store.capacity = 2)
    (held : store.contents 1 = some value) : store.Full := by
  intro index nonzero inside
  have only : index = 1 := by omega
  exact ⟨value, only ▸ held⟩

end

end DecisionDiagram.Store
