import DecisionDiagram.Proofs.Store.Sweep

/-!
# Walks along the chains

A walk along the chain of a bucket takes no more steps than there are slots in use, be it to list the
chain, to search it or to sweep it: a chain meets no slot twice, and all its slots are in use. A sweep
goes from bucket to bucket, and it leaves the chains that are still to be swept in order.
-/

set_option autoImplicit false

namespace DecisionDiagram.Store

variable {Value : Type} [BEq Value] {store : Store Value} {value : Value} {slots : List Nat}
  {head number : Nat}

/-- A search along a chain ends at one of its slots, and any bound that covers the chain will do. -/
theorem searchFrom_settles (linked : Linked store.link head slots) (nonzero : head ≠ 0)
    (held : ∀ index ∈ slots, ∃ value, store.contents index = some value) :
    ∃ search, ∀ fuel, slots.length ≤ fuel → store.searchFrom value fuel head = .ok search := by
  induction linked with
  | nil => exact absurd rfl nonzero
  | @cons index rest _ _ ih =>
    obtain ⟨stored, indexHeld⟩ := held index List.mem_cons_self
    have step : ∀ fuel, (index :: rest).length ≤ fuel → ∃ less, rest.length ≤ less ∧
        store.searchFrom value fuel index =
          if stored == value then .ok (.found index)
          else if store.link index = 0 then .ok (.missing index)
          else store.searchFrom value less (store.link index) := by
      intro fuel enough
      obtain ⟨less, rfl⟩ := Nat.exists_eq_succ_of_ne_zero
        (Nat.ne_of_gt (Nat.lt_of_lt_of_le (Nat.succ_pos _) enough))
      exact ⟨less, Nat.le_of_succ_le_succ enough, searchFrom_succ indexHeld⟩
    by_cases same : stored == value
    · refine ⟨.found index, fun fuel enough => ?_⟩
      obtain ⟨less, _, stepped⟩ := step fuel enough
      rw [stepped, if_pos same]
    by_cases stops : store.link index = 0
    · refine ⟨.missing index, fun fuel enough => ?_⟩
      obtain ⟨less, _, stepped⟩ := step fuel enough
      rw [stepped, if_neg same, if_pos stops]
    obtain ⟨search, settles⟩ := ih stops fun other member =>
      held other (List.mem_cons_of_mem _ member)
    refine ⟨search, fun fuel enough => ?_⟩
    obtain ⟨less, still, stepped⟩ := step fuel enough
    rw [stepped, if_neg same, if_neg stops, settles less still]

variable [BucketHash Value] {before after : Store Value} {loose : Set Nat} {marked : Nat → Bool}

theorem Threaded.length_le_liveCount (threaded : store.Threaded loose) (allotted : store.Allotted)
    (chain : store.ChainOf number slots) : slots.length ≤ store.liveCount := by
  classical
  rw [threaded.length_chain chain, allotted.liveCount_eq]
  exact Finset.card_filter_le _ _

/-- From every bucket on, each walk comes to its end within as many steps as there are slots in use, and
a larger bound makes no difference. -/
structure WalksEnd (store : Store Value) : Prop where
  chain : ∀ number head, store.bucket number = .ok head → ∃ slots, ∀ fuel, store.liveCount ≤ fuel →
    store.chainFrom fuel head = .ok slots
  search : ∀ number head value, store.bucket number = .ok head → head ≠ 0 → ∃ search, ∀ fuel,
    store.liveCount ≤ fuel → store.searchFrom value fuel head = .ok search
  sweep : ∀ number head marked, store.bucket number = .ok head → ∃ start after, ∀ fuel,
    store.liveCount ≤ fuel → sweepFrom marked fuel head store = .ok start after
  /-- The bound that a walk is given is large enough. -/
  enough : store.liveCount ≤ store.capacity

theorem Threaded.chainOf_of_bucket (threaded : store.Threaded loose)
    (read : store.bucket number = .ok head) :
    ∃ slots, Linked store.link head slots ∧ store.ChainOf number slots := by
  unfold bucket at read
  cases entry : store.buckets[number]? with
  | none =>
    rw [entry] at read
    cases read
  | some found =>
    rw [entry] at read
    cases read
    obtain ⟨slots, chain, _⟩ := threaded.chained number (Array.getElem?_eq_some_iff.mp entry).1
    have ⟨start, isStart, linked⟩ := chain
    rw [entry] at isStart
    cases isStart
    exact ⟨slots, linked, chain⟩

theorem Threaded.walksEnd (threaded : store.Threaded loose) (allotted : store.Allotted) :
    store.WalksEnd where
  chain number head read := by
    obtain ⟨slots, linked, chain⟩ := threaded.chainOf_of_bucket read
    have few := threaded.length_le_liveCount allotted chain
    refine ⟨slots, fun fuel enough => chainFrom_eq_ok linked (fun index member => ?_)
      (few.trans enough)⟩
    obtain ⟨_, held⟩ := threaded.held_of_mem chain member
    exact lt_capacity_of_contents held
  search number head value read nonzero := by
    obtain ⟨slots, linked, chain⟩ := threaded.chainOf_of_bucket read
    have few := threaded.length_le_liveCount allotted chain
    obtain ⟨search, settles⟩ := searchFrom_settles linked nonzero fun index member =>
      threaded.held_of_mem chain member
    exact ⟨search, fun fuel enough => settles fuel (few.trans enough)⟩
  sweep number head marked read := by
    obtain ⟨slots, linked, chain⟩ := threaded.chainOf_of_bucket read
    have few := threaded.length_le_liveCount allotted chain
    obtain ⟨start, after, run, _⟩ := sweepFrom_spec marked linked allotted fun index member =>
      threaded.held_of_mem chain member
    exact ⟨start, after, fun fuel enough => run fuel (few.trans enough)⟩
  enough := by
    rw [allotted.liveCount_eq, ← Finset.card_range store.capacity]
    exact Finset.card_filter_le _ _

/-! ## During a sweep -/

/-- Some buckets are swept one after the other. -/
inductive Sweeping (marked : Nat → Bool) (before : Store Value) : Store Value → Prop
  | begin : Sweeping marked before before
  | bucket {middle after : Store Value} (number : Nat) : Sweeping marked before middle →
      sweepBucket marked number middle = .ok () after → Sweeping marked before after

omit [BEq Value] [BucketHash Value] in
theorem Swept.liveCount_le {visited : Set Nat} (swept : before.Swept marked visited after)
    (allotted : before.Allotted) : after.liveCount ≤ before.liveCount := by
  rw [swept.allotted.liveCount_eq, allotted.liveCount_eq]
  refine Finset.card_le_card fun index member => ?_
  obtain ⟨value, held⟩ := mem_liveSlots.mp member
  exact mem_liveSlots.mpr ⟨value, (swept.contents_eq_some_iff.mp held).1⟩

/-- What is known of the store between two buckets. -/
structure Orderly (before : Store Value) (loose : Set Nat) (after : Store Value) : Prop where
  threaded : after.Threaded loose
  allotted : after.Allotted
  liveCount_le : after.liveCount ≤ before.liveCount

theorem Threaded.sweeping (threaded : before.Threaded loose) (allotted : before.Allotted)
    (sweeping : Sweeping marked before after) : before.Orderly loose after := by
  induction sweeping with
  | begin => exact ⟨threaded, allotted, Nat.le_refl _⟩
  | @bucket middle after number _ swept ih =>
    obtain ⟨threaded, allotted, fewer⟩ := ih
    obtain ⟨head, read, _⟩ := read_bind_eq_ok (get_bind_eq_ok swept)
    obtain ⟨slots, _, chain⟩ := threaded.chainOf_of_bucket read
    obtain ⟨same, run, spec, bucketCount, chains⟩ := sweepBucket_spec marked threaded allotted chain
    rw [swept] at run
    cases run
    exact ⟨threaded.swept chain spec bucketCount chains, spec.allotted,
      (spec.liveCount_le allotted).trans fewer⟩

end DecisionDiagram.Store
