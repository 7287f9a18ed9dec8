import DecisionDiagram.Proofs.Manager.Run

/-!
# Stores are well formed at all times

`Store.WellFormed` is what can be observed of the representation: the shape of the nodes, the
chains of the unique table, and the counters. It holds after every call of every run.
-/

set_option autoImplicit false

namespace DecisionDiagram

structure Store.WellFormed (store : Store Node) : Prop where
  terminal : store.contents 1 = some Node.terminal
  normal : ∀ index node, store.contents index = some node → index ≠ 1 → store.Normal node
  distinct : ∀ first second node, store.contents first = some node →
    store.contents second = some node → first = second
  bucket_lt : ∀ node, store.bucketIndex node < store.bucketCount
  /-- The links lead from the head of a bucket through its slots, each of them once, to the end. -/
  chain : ∀ number, number < store.bucketCount → ∃ slots, store.ChainOf number slots ∧
    store.chain number = .ok slots ∧ slots.Nodup ∧
      ∀ index, index ∈ slots ↔ index ≠ 1 ∧
        ∃ node, store.contents index = some node ∧ store.bucketIndex node = number
  liveCount : store.liveCount = store.liveSlots.card
  liveCount_pos : 1 ≤ store.liveCount
  chainLengths : ∃ lengths, store.chainLengths = .ok lengths ∧
    store.liveCount = 1 + lengths.sum

namespace Store.Canonical

variable {store : Store Node}

/-- All slots in use but the terminal's. -/
theorem card_inner (canonical : store.Canonical) :
    (store.liveSlots.filter (· ∉ ({1} : Set Nat))).card + 1 = store.liveSlots.card := by
  have member : 1 ∈ store.liveSlots := mem_liveSlots.mpr ⟨_, canonical.terminal⟩
  have same : store.liveSlots.filter (· ∉ ({1} : Set Nat)) = store.liveSlots.erase 1 := by
    ext index
    rw [Finset.mem_filter, Finset.mem_erase, Set.mem_singleton_iff]
    exact and_comm
  rw [same]
  exact Finset.card_erase_add_one member

theorem wellFormed (canonical : store.Canonical) : store.WellFormed := by
  have counted := canonical.allotted.liveCount_eq
  have inner := canonical.card_inner
  refine ⟨canonical.terminal, canonical.normal, fun _ _ _ => canonical.distinct,
    canonical.threaded.bucketIndex_lt, ?_, counted, by omega, ?_⟩
  · intro number inside
    obtain ⟨slots, chain, members⟩ := canonical.threaded.chained number inside
    have ⟨_, _, linked⟩ := chain
    exact ⟨slots, chain, canonical.threaded.chain_eq_ok chain, linked.nodup, members⟩
  · obtain ⟨lengths, read, sum⟩ := canonical.threaded.chainLengths_eq_ok
    refine ⟨lengths, read, ?_⟩
    rw [counted, ← inner, sum, Nat.add_comm]

end Store.Canonical

namespace Manager

/-- **The invariant of the representation.** A valid configuration makes a manager, and after every
run of calls, whether they returned or faulted, its store is well formed. -/
theorem attained_wellFormed {config : Config} (valid : config.validate = .ok ()) :
    (∃ manager, create config = .ok manager) ∧
      ∀ manager, Attained config manager → manager.store.WellFormed := by
  obtain ⟨manager, made, _⟩ := createWith_spec valid true
  exact ⟨⟨manager, made⟩, fun _ attained => attained.sound.canonical.wellFormed⟩

/-- The second call faults: there is no literal of number zero. -/
theorem wellFormed_after_fault : ∃ manager, create ⟨3, 2, 2⟩ = .ok manager ∧
    ((Call.literal 0).leaves ((Call.literal 1).leaves manager)).store.WellFormed := by
  obtain ⟨⟨manager, made⟩, wellFormed⟩ := @attained_wellFormed ⟨3, 2, 2⟩ rfl
  have first : Attained ⟨3, 2, 2⟩ ((Call.literal 1).leaves manager) :=
    .called (.literal 1) (.created made) fun edge member => absurd member List.not_mem_nil
  have second : Attained ⟨3, 2, 2⟩ ((Call.literal 0).leaves ((Call.literal 1).leaves manager)) :=
    .called (.literal 0) first fun edge member => absurd member List.not_mem_nil
  exact ⟨manager, made, wellFormed _ second⟩

end Manager

end DecisionDiagram
