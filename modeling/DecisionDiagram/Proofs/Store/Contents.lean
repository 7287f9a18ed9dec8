import DecisionDiagram.Proofs.Action
import DecisionDiagram.Store.Basic
import Mathlib.Data.Finset.Card
import Mathlib.Logic.Function.Basic

/-!
# What a store contains

A store is looked at in two ways. `contents` is the finite map from the slots in use to their
values, and `link` says where a slot links to. Every write is described by what it does to these
two; nothing else looks into the array of slots.
-/

set_option autoImplicit false

namespace DecisionDiagram.Store

variable {Value : Type}

/-- The value in a slot, if the slot is in use. Slot 0 holds nothing. -/
def contents (store : Store Value) (index : Nat) : Option Value :=
  if index = 0 then none
  else match store.slots[index]? with
    | some slot => if slot.occupied then some slot.value else none
    | none => none

/-- The slot that a slot links to. -/
def link (store : Store Value) (index : Nat) : Nat :=
  match store.slots[index]? with
  | some slot => slot.next
  | none => 0

/-- The slots in use. -/
def liveSlots (store : Store Value) : Finset Nat :=
  (Finset.range store.capacity).filter fun index => (store.contents index).isSome

theorem contents_eq_some {store : Store Value} {index : Nat} {value : Value} :
    store.contents index = some value ↔
      index ≠ 0 ∧ store.slots[index]? = some ⟨value, store.link index, true⟩ := by
  unfold contents link
  by_cases zero : index = 0
  · simp [zero]
  · rw [if_neg zero]
    cases found : store.slots[index]? with
    | none => simp
    | some slot =>
      obtain ⟨stored, next, occupied⟩ := slot
      cases occupied <;> simp [zero]

theorem ne_zero_of_contents {store : Store Value} {index : Nat} {value : Value}
    (held : store.contents index = some value) : index ≠ 0 :=
  (contents_eq_some.mp held).1

theorem lt_capacity_of_contents {store : Store Value} {index : Nat} {value : Value}
    (held : store.contents index = some value) : index < store.capacity := by
  have found := (contents_eq_some.mp held).2
  exact (Array.getElem?_eq_some_iff.mp found).1

@[simp] theorem mem_liveSlots {store : Store Value} {index : Nat} :
    index ∈ store.liveSlots ↔ ∃ value, store.contents index = some value := by
  simp only [liveSlots, Finset.mem_filter, Finset.mem_range, Option.isSome_iff_exists]
  constructor
  · exact fun found => found.2
  · rintro ⟨value, held⟩
    exact ⟨lt_capacity_of_contents held, value, held⟩

/-! ## Reading -/

theorem slotAt_eq_ok {store : Store Value} {index : Nat} (inside : index < store.capacity) :
    ∃ slot, store.slotAt index = .ok slot ∧ store.slots[index]? = some slot ∧
      slot.next = store.link index := by
  have found : store.slots[index]? = some store.slots[index] := Array.getElem?_eq_getElem inside
  refine ⟨store.slots[index], ?_, found, ?_⟩
  · simp only [slotAt, found]
  · simp only [link, found]

theorem slot_eq_ok {store : Store Value} {index : Nat} {value : Value}
    (held : store.contents index = some value) :
    store.slot index = .ok ⟨value, store.link index, true⟩ := by
  obtain ⟨nonzero, found⟩ := contents_eq_some.mp held
  simp only [slot, if_neg nonzero, slotAt, found]

theorem value_eq_ok {store : Store Value} {index : Nat} {value : Value}
    (held : store.contents index = some value) : store.value index = .ok value := by
  unfold Store.value
  rw [slot_eq_ok held]
  rfl

theorem next_eq_ok {store : Store Value} {index : Nat} {value : Value}
    (held : store.contents index = some value) : store.next index = .ok (store.link index) := by
  unfold Store.next
  rw [slot_eq_ok held]
  rfl

theorem bucket_eq_ok {store : Store Value} {number head : Nat}
    (entry : store.buckets[number]? = some head) : store.bucket number = .ok head := by
  simp only [bucket, entry]

/-! ## Changing one slot -/

section

variable {before after : Store Value} {index : Nat} {change : Slot Value → Slot Value}

theorem contents_modified (written : after.slots = before.slots.modify index change) :
    after.contents = Function.update before.contents index
      (if index = 0 then none
        else before.slots[index]?.bind fun slot =>
          if (change slot).occupied then some (change slot).value else none) := by
  funext other
  by_cases same : other = index
  · subst same
    rw [Function.update_self]
    simp only [contents, written, Array.getElem?_modify, if_pos]
    cases before.slots[other]? <;> rfl
  · rw [Function.update_of_ne same]
    simp only [contents, written, Array.getElem?_modify, if_neg (Ne.symm same)]

theorem link_modified (written : after.slots = before.slots.modify index change) :
    after.link = Function.update before.link index
      (match before.slots[index]? with
        | some slot => (change slot).next
        | none => 0) := by
  funext other
  by_cases same : other = index
  · subst same
    rw [Function.update_self]
    simp only [link, written, Array.getElem?_modify, if_pos]
    cases before.slots[other]? <;> rfl
  · rw [Function.update_of_ne same]
    simp only [link, written, Array.getElem?_modify, if_neg (Ne.symm same)]

/-- A changed slot does not touch the others. -/
theorem slots_modified_of_ne (written : after.slots = before.slots.modify index change)
    {other : Nat} (apart : index ≠ other) : after.slots[other]? = before.slots[other]? := by
  rw [written, Array.getElem?_modify, if_neg apart]

end

/-! ## Changing one link -/

/-- The store with one slot linked elsewhere. -/
def relinked (store : Store Value) (index next : Nat) : Store Value :=
  { store with slots := store.slots.modify index fun slot => { slot with next := next } }

section

variable {store : Store Value} {index : Nat} {value : Value}

theorem setNext_of_inside (nonzero : index ≠ 0) (inside : index < store.capacity) (next : Nat) :
    setNext index next store = .ok () (store.relinked index next) := by
  obtain ⟨slot, read, _, _⟩ := slotAt_eq_ok inside
  have found : store.slot index = .ok slot := by rw [Store.slot, if_neg nonzero, read]
  unfold setNext
  rw [bind_ok (get_ok store), bind_ok (read_ok found store)]
  rfl

theorem setNext_eq_ok (held : store.contents index = some value) (next : Nat) :
    setNext index next store = .ok () (store.relinked index next) :=
  setNext_of_inside (ne_zero_of_contents held) (lt_capacity_of_contents held) next

@[simp] theorem capacity_relinked (store : Store Value) (index next : Nat) :
    (store.relinked index next).capacity = store.capacity := by
  simp [relinked, capacity]

theorem slots_relinked (store : Store Value) (index next : Nat) :
    (store.relinked index next).slots =
      store.slots.modify index fun slot => { slot with next := next } := rfl

@[simp] theorem contents_relinked (store : Store Value) (index next : Nat) :
    (store.relinked index next).contents = store.contents := by
  rw [contents_modified (slots_relinked store index next), Function.update_eq_self_iff]
  unfold contents
  split
  · rfl
  · cases store.slots[index]? <;> rfl

theorem link_relinked (held : store.contents index = some value) (next : Nat) :
    (store.relinked index next).link = Function.update store.link index next := by
  rw [link_modified (slots_relinked store index next), (contents_eq_some.mp held).2]

end

/-- A link set to what it is already. -/
theorem relinked_self {store : Store Value} {index next : Nat} (same : store.link index = next) :
    store.relinked index next = store := by
  have unchanged :
      store.slots.modify index (fun slot => { slot with next := next }) = store.slots := by
    apply Array.ext_getElem?
    intro other
    rw [Array.getElem?_modify]
    split
    · rename_i equal
      subst equal
      cases found : store.slots[index]? with
      | none => rfl
      | some slot =>
        have linked : slot.next = next := by rw [← same, link, found]
        simp [← linked]
    · rfl
  unfold relinked
  rw [unchanged]

/-! ## Changing one bucket -/

/-- The store with one bucket starting elsewhere. -/
def rebucketed (store : Store Value) (number head : Nat) : Store Value :=
  { store with buckets := store.buckets.setIfInBounds number head }

theorem setBucket_eq_ok {store : Store Value} {number old : Nat}
    (entry : store.buckets[number]? = some old) (head : Nat) :
    setBucket number head store = .ok () (store.rebucketed number head) := by
  unfold setBucket
  rw [bind_ok (get_ok store), bind_ok (read_ok (bucket_eq_ok entry) store)]
  rfl

section

variable (store : Store Value) (number head : Nat)

@[simp] theorem link_rebucketed : (store.rebucketed number head).link = store.link := rfl

@[simp] theorem bucketCount_rebucketed :
    (store.rebucketed number head).bucketCount = store.bucketCount := by
  simp [rebucketed, bucketCount]

end

theorem buckets_rebucketed {store : Store Value} {number old : Nat}
    (entry : store.buckets[number]? = some old) (head other : Nat) :
    (store.rebucketed number head).buckets[other]? =
      if number = other then some head else store.buckets[other]? := by
  have inside : number < store.buckets.size := (Array.getElem?_eq_some_iff.mp entry).1
  simp only [rebucketed, Array.getElem?_setIfInBounds, if_pos inside]

theorem rebucketed_self {store : Store Value} {number head : Nat}
    (entry : store.buckets[number]? = some head) : store.rebucketed number head = store := by
  have unchanged : store.buckets.setIfInBounds number head = store.buckets := by
    apply Array.ext_getElem?
    intro other
    have inside : number < store.buckets.size := (Array.getElem?_eq_some_iff.mp entry).1
    rw [Array.getElem?_setIfInBounds, if_pos inside]
    split
    · rename_i equal
      rw [← equal, entry]
    · rfl
  unfold rebucketed
  rw [unchanged]

end DecisionDiagram.Store
