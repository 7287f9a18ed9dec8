import DecisionDiagram.Proofs.Store.Contents
import DecisionDiagram.Store.Allocation

/-!
# Which slot is handed out

The cursor `minFree` is only a hint: every slot below it is in use, and no slot behind `lastUsed`
is. Under this invariant the search from the cursor finds the lowest free slot, and a value that is
added goes there.
-/

set_option autoImplicit false

namespace DecisionDiagram.Store

variable {Value : Type}

/-- The bookkeeping of the slots. -/
structure Allotted (store : Store Value) : Prop where
  sentinel : ∃ slot, store.slots[0]? = some slot ∧ slot.occupied = true
  minFree_pos : 0 < store.minFree
  minFree_le : store.minFree ≤ store.lastUsed + 1
  used_below : ∀ index, index ≠ 0 → index < store.minFree →
    ∃ value, store.contents index = some value
  free_above : ∀ index value, store.contents index = some value → index ≤ store.lastUsed
  lastUsed_lt : store.lastUsed < store.capacity
  liveCount_eq : store.liveCount = store.liveSlots.card

/-- A free slot below which all slots are in use. -/
structure LowestFree (store : Store Value) (index : Nat) : Prop where
  nonzero : index ≠ 0
  inside : index < store.capacity
  free : store.contents index = none
  used_below : ∀ other, other ≠ 0 → other < index → ∃ value, store.contents other = some value

/-- All slots are in use. -/
def Full (store : Store Value) : Prop :=
  ∀ index, index ≠ 0 → index < store.capacity → ∃ value, store.contents index = some value

/-! ## The search for a free slot -/

theorem firstFreeFrom_spec (store : Store Value) (count index : Nat) (nonzero : index ≠ 0) :
    index ≤ firstFreeFrom store.slots count index ∧
      firstFreeFrom store.slots count index ≤ index + count ∧
      (∀ other, index ≤ other → other < firstFreeFrom store.slots count index →
        ∃ value, store.contents other = some value) ∧
      (firstFreeFrom store.slots count index < index + count →
        store.contents (firstFreeFrom store.slots count index) = none) := by
  induction count generalizing index with
  | zero =>
    refine ⟨Nat.le_refl _, Nat.le_refl _, ?_, ?_⟩
    · intro other atLeast below
      exact absurd below (Nat.not_lt.mpr atLeast)
    · intro below
      exact absurd below (Nat.lt_irrefl _)
  | succ count ih =>
    unfold firstFreeFrom
    cases found : store.slots[index]? with
    | none =>
      refine ⟨Nat.le_refl _, Nat.le_add_right _ _, ?_, ?_⟩
      · intro other atLeast below
        exact absurd below (Nat.not_lt.mpr atLeast)
      · intro _
        simp only [contents, found, if_neg nonzero]
    | some slot =>
      by_cases occupied : slot.occupied
      · simp only [occupied, if_true]
        obtain ⟨lower, upper, used, stops⟩ := ih (index + 1) (Nat.succ_ne_zero index)
        refine ⟨Nat.le_of_succ_le lower, by omega, ?_, ?_⟩
        · intro other atLeast below
          rcases Nat.eq_or_lt_of_le atLeast with same | later
          · subst same
            exact ⟨slot.value, by simp only [contents, found, if_neg nonzero, occupied, if_true]⟩
          · exact used other later below
        · intro below
          exact stops (by omega)
      · simp only [occupied, if_false, Bool.false_eq_true]
        refine ⟨Nat.le_refl _, Nat.le_add_right _ _, ?_, ?_⟩
        · intro other atLeast below
          exact absurd below (Nat.not_lt.mpr atLeast)
        · intro _
          simp only [contents, found, if_neg nonzero, occupied, if_false, Bool.false_eq_true]

/-- The search ends at a free slot, if only behind the last slot, and passes no free slot. -/
theorem Allotted.firstFree_spec {store : Store Value} (allotted : store.Allotted) :
    store.firstFree ≠ 0 ∧ store.contents store.firstFree = none ∧
      ∀ other, other ≠ 0 → other < store.firstFree →
        ∃ value, store.contents other = some value := by
  have cursor := allotted.minFree_pos
  have close := allotted.minFree_le
  obtain ⟨lower, upper, used, stops⟩ := firstFreeFrom_spec store
    (store.lastUsed + 1 - store.minFree) store.minFree (by omega)
  have reaches : store.minFree + (store.lastUsed + 1 - store.minFree) = store.lastUsed + 1 := by
    omega
  rw [reaches] at upper stops
  refine ⟨by unfold firstFree; omega, ?_, ?_⟩
  · rcases Nat.lt_or_ge store.firstFree (store.lastUsed + 1) with inside | behind
    · exact stops inside
    · cases held : store.contents store.firstFree with
      | none => rfl
      | some value =>
        have := allotted.free_above _ _ held
        omega
  · intro other nonzero below
    rcases Nat.lt_or_ge other store.minFree with early | late
    · exact allotted.used_below other nonzero early
    · exact used other late below

theorem Allotted.lowestFree {store : Store Value} (allotted : store.Allotted)
    (inside : store.firstFree < store.capacity) : store.LowestFree store.firstFree := by
  obtain ⟨nonzero, free, used⟩ := allotted.firstFree_spec
  exact ⟨nonzero, inside, free, used⟩

theorem Allotted.full {store : Store Value} (allotted : store.Allotted)
    (outside : ¬ store.firstFree < store.capacity) : store.Full := by
  obtain ⟨_, _, used⟩ := allotted.firstFree_spec
  intro index nonzero inside
  exact used index nonzero (by omega)

theorem Allotted.full_iff {store : Store Value} (allotted : store.Allotted) :
    store.Full ↔ ¬store.firstFree < store.capacity := by
  refine ⟨fun full inside => ?_, allotted.full⟩
  obtain ⟨nonzero, _, free, _⟩ := allotted.lowestFree inside
  obtain ⟨value, held⟩ := full _ nonzero inside
  rw [free] at held
  cases held

/-! ## Adding a value -/

/-- The store with a value in a slot that was free. -/
def added (store : Store Value) (index : Nat) (value : Value) : Store Value :=
  { store with
    slots := store.slots.modify index fun _ => ⟨value, 0, true⟩
    minFree := index + 1
    lastUsed := max store.lastUsed index
    liveCount := store.liveCount + 1 }

theorem add_eq (store : Store Value) (value : Value) :
    add value store =
      if store.firstFree < store.capacity then
        .ok store.firstFree (store.added store.firstFree value)
      else .error (.storageFull store.capacity) store := by
  by_cases inside : store.firstFree < store.capacity
  · have allocated : allocate store = .ok store.firstFree
        { store with
          slots := store.slots.modify store.firstFree fun slot => { slot with occupied := true }
          minFree := store.firstFree + 1
          lastUsed := max store.lastUsed store.firstFree
          liveCount := store.liveCount + 1 } := by
      unfold allocate
      rw [bind_ok (get_ok store), bind_ok (get_ok store), if_pos inside]
      rfl
    have written :
        (store.slots.modify store.firstFree fun slot => { slot with occupied := true }).modify
            store.firstFree (fun slot => { slot with value := value, next := 0 }) =
          store.slots.modify store.firstFree fun _ => ⟨value, 0, true⟩ := by
      apply Array.ext_getElem?
      intro other
      simp only [Array.getElem?_modify]
      split
      · cases store.slots[other]? <;> rfl
      · rfl
    unfold add
    rw [bind_ok allocated, if_pos inside]
    simp only [added, ← written]
    rfl
  · have refused : allocate store = .error (.storageFull store.capacity) store := by
      unfold allocate
      rw [bind_ok (get_ok store), bind_ok (get_ok store), if_neg inside]
      rfl
    unfold add
    rw [bind_error refused, if_neg inside]

section

variable {store : Store Value} {index : Nat}

theorem capacity_added (value : Value) :
    (store.added index value).capacity = store.capacity := by
  simp [added, capacity]

theorem slots_added (store : Store Value) (index : Nat) (value : Value) :
    (store.added index value).slots = store.slots.modify index fun _ => ⟨value, 0, true⟩ := rfl

theorem contents_added (nonzero : index ≠ 0) (inside : index < store.capacity) (value : Value) :
    (store.added index value).contents = Function.update store.contents index (some value) := by
  obtain ⟨slot, _, found, _⟩ := slotAt_eq_ok inside
  rw [contents_modified (slots_added store index value), if_neg nonzero, found, Option.bind_some,
    if_pos rfl]

theorem link_added (inside : index < store.capacity) (value : Value) :
    (store.added index value).link = Function.update store.link index 0 := by
  obtain ⟨slot, _, found, _⟩ := slotAt_eq_ok inside
  rw [link_modified (slots_added store index value), found]

theorem liveSlots_added (nonzero : index ≠ 0) (inside : index < store.capacity) (value : Value) :
    (store.added index value).liveSlots = insert index store.liveSlots := by
  ext other
  rw [mem_liveSlots, contents_added nonzero inside, Finset.mem_insert, mem_liveSlots]
  by_cases same : other = index
  · simp [same]
  · simp [same]

theorem Allotted.added (allotted : store.Allotted) (lowest : store.LowestFree index)
    (value : Value) : (store.added index value).Allotted := by
  have holds := contents_added lowest.nonzero lowest.inside value
  refine ⟨?_, Nat.succ_pos index, ?_, ?_, ?_, ?_, ?_⟩
  · obtain ⟨slot, found, occupied⟩ := allotted.sentinel
    refine ⟨slot, ?_, occupied⟩
    rw [slots_modified_of_ne (slots_added store index value) lowest.nonzero, found]
  · show index + 1 ≤ max store.lastUsed index + 1
    omega
  · intro other nonzero below
    have atMost : other ≤ index := Nat.le_of_lt_succ below
    rw [holds]
    by_cases same : other = index
    · exact ⟨value, by rw [same, Function.update_self]⟩
    · rw [Function.update_of_ne same]
      exact lowest.used_below other nonzero (by omega)
  · intro other held stored
    show other ≤ max store.lastUsed index
    rw [holds] at stored
    by_cases same : other = index
    · omega
    · rw [Function.update_of_ne same] at stored
      have := allotted.free_above other held stored
      omega
  · rw [capacity_added]
    show max store.lastUsed index < store.capacity
    have := allotted.lastUsed_lt
    have := lowest.inside
    omega
  · have fresh : index ∉ store.liveSlots := by
      rw [mem_liveSlots, lowest.free]
      simp
    rw [liveSlots_added lowest.nonzero lowest.inside, Finset.card_insert_of_notMem fresh,
      ← allotted.liveCount_eq]
    rfl

end

/-! ## Freeing a slot -/

/-- The store with a slot given back. -/
def freed (store : Store Value) (index : Nat) : Store Value :=
  { store with
    slots := store.slots.modify index fun slot => { slot with next := 0, occupied := false }
    minFree := min store.minFree index
    liveCount := store.liveCount - 1 }

section

variable {store : Store Value} {index : Nat}

theorem free_eq_ok {value : Value} (held : store.contents index = some value) :
    free index store = .ok () (store.freed index) := by
  unfold free
  rw [bind_ok (get_ok store), bind_ok (read_ok (slot_eq_ok held) store)]
  rfl

theorem capacity_freed : (store.freed index).capacity = store.capacity := by
  simp [freed, capacity]

theorem slots_freed (store : Store Value) (index : Nat) :
    (store.freed index).slots =
      store.slots.modify index fun slot => { slot with next := 0, occupied := false } := rfl

theorem contents_freed :
    (store.freed index).contents = Function.update store.contents index none := by
  rw [contents_modified (slots_freed store index)]
  cases store.slots[index]? <;> simp

theorem link_freed : (store.freed index).link = Function.update store.link index 0 := by
  rw [link_modified (slots_freed store index)]
  cases store.slots[index]? <;> rfl

theorem liveSlots_freed : (store.freed index).liveSlots = store.liveSlots.erase index := by
  ext other
  rw [mem_liveSlots, contents_freed, Finset.mem_erase, mem_liveSlots]
  by_cases same : other = index
  · simp [same]
  · simp [same]

theorem Allotted.freed {value : Value} (allotted : store.Allotted)
    (held : store.contents index = some value) : (store.freed index).Allotted := by
  have nonzero := ne_zero_of_contents held
  refine ⟨?_, ?_, ?_, ?_, ?_, ?_, ?_⟩
  · obtain ⟨slot, found, occupied⟩ := allotted.sentinel
    refine ⟨slot, ?_, occupied⟩
    rw [slots_modified_of_ne (slots_freed store index) nonzero, found]
  · show 0 < min store.minFree index
    have := allotted.minFree_pos
    omega
  · show min store.minFree index ≤ store.lastUsed + 1
    have := allotted.minFree_le
    omega
  · intro other otherNonzero below
    have early : other < min store.minFree index := below
    rw [contents_freed, Function.update_of_ne (by omega)]
    exact allotted.used_below other otherNonzero (by omega)
  · intro other kept stored
    rw [contents_freed] at stored
    by_cases same : other = index
    · rw [same, Function.update_self] at stored
      cases stored
    · rw [Function.update_of_ne same] at stored
      exact allotted.free_above other kept stored
  · rw [capacity_freed]
    exact allotted.lastUsed_lt
  · rw [liveSlots_freed, Finset.card_erase_of_mem (mem_liveSlots.mpr ⟨value, held⟩),
      ← allotted.liveCount_eq]
    rfl

end

/-! ## Links and buckets do not matter -/

theorem Allotted.relinked {store : Store Value} (allotted : store.Allotted) (index next : Nat) :
    (store.relinked index next).Allotted := by
  have same : (store.relinked index next).liveSlots = store.liveSlots := by
    ext other
    rw [mem_liveSlots, mem_liveSlots, contents_relinked]
  refine ⟨?_, allotted.minFree_pos, allotted.minFree_le, ?_, ?_, ?_, ?_⟩
  · obtain ⟨slot, found, occupied⟩ := allotted.sentinel
    rw [slots_relinked, Array.getElem?_modify, found]
    by_cases same : index = 0
    · exact ⟨{ slot with next := next }, by rw [if_pos same, Option.map_some], occupied⟩
    · exact ⟨slot, by rw [if_neg same], occupied⟩
  · rw [contents_relinked]
    exact allotted.used_below
  · rw [contents_relinked]
    exact allotted.free_above
  · rw [capacity_relinked]
    exact allotted.lastUsed_lt
  · rw [same]
    exact allotted.liveCount_eq

theorem Allotted.rebucketed {store : Store Value} (allotted : store.Allotted)
    (number head : Nat) : (store.rebucketed number head).Allotted :=
  ⟨allotted.sentinel, allotted.minFree_pos, allotted.minFree_le, allotted.used_below,
    allotted.free_above, allotted.lastUsed_lt, allotted.liveCount_eq⟩

end DecisionDiagram.Store
