import DecisionDiagram.Proofs.Store.Contents
import DecisionDiagram.Store.UniqueTable
import Mathlib.Data.Finset.Range
import Mathlib.Data.List.Nodup

/-!
# Chains

`Linked link head slots` says that following the links from `head` meets `slots` in this order and
then ends. A list that ends cannot meet a slot twice, so chains are acyclic by what they are, and
the walk that counts its steps never runs out of them.
-/

set_option autoImplicit false

namespace DecisionDiagram

inductive Linked (link : Nat → Nat) : Nat → List Nat → Prop
  | nil : Linked link 0 []
  | cons {index : Nat} {rest : List Nat} :
      index ≠ 0 → Linked link (link index) rest → Linked link index (index :: rest)

namespace Linked

variable {link other : Nat → Nat} {head : Nat} {slots : List Nat}

theorem unique {first second : List Nat} (one : Linked link head first)
    (two : Linked link head second) : first = second := by
  induction one generalizing second with
  | nil =>
    cases two with
    | nil => rfl
    | cons nonzero _ => exact absurd rfl nonzero
  | cons nonzero _ ih =>
    cases two with
    | nil => exact absurd rfl nonzero
    | cons _ rest => rw [ih rest]

/-- A chain is empty exactly if it starts at no slot. -/
theorem head_eq_zero_iff (linked : Linked link head slots) : head = 0 ↔ slots = [] := by
  cases linked with
  | nil => simp
  | cons nonzero _ => simp [nonzero]

theorem zero_notMem (linked : Linked link head slots) : 0 ∉ slots := by
  induction linked with
  | nil => exact List.not_mem_nil
  | cons nonzero _ ih => exact fun member => (List.mem_cons.mp member).elim nonzero.symm ih

/-- A chain is left nowhere but at its end. -/
theorem link_mem (linked : Linked link head slots) {index : Nat} (member : index ∈ slots) :
    link index = 0 ∨ link index ∈ slots := by
  induction linked with
  | nil => cases member
  | @cons first rest _ linked ih =>
    rcases List.mem_cons.mp member with rfl | member
    · generalize link index = next at linked
      cases linked with
      | nil => exact Or.inl rfl
      | cons _ _ => exact Or.inr (List.mem_cons_of_mem _ List.mem_cons_self)
    · exact (ih member).imp_right (List.mem_cons_of_mem _)

theorem congr (linked : Linked link head slots) (same : ∀ index ∈ slots, other index = link index) :
    Linked other head slots := by
  induction linked with
  | nil => exact .nil
  | @cons index rest nonzero _ ih =>
    refine .cons nonzero ?_
    rw [same index List.mem_cons_self]
    exact ih fun index member => same index (List.mem_cons_of_mem _ member)

/-- From each of its slots on, a chain is a chain. -/
theorem suffix_of_mem (linked : Linked link head slots) :
    ∀ index ∈ slots, ∃ front rest, slots = front ++ index :: rest ∧
      Linked link index (index :: rest) := by
  induction linked with
  | nil =>
    intro index member
    cases member
  | @cons first rest nonzero linked ih =>
    intro index member
    rcases List.mem_cons.mp member with rfl | member
    · exact ⟨[], rest, rfl, .cons nonzero linked⟩
    · obtain ⟨front, tail, split, suffix⟩ := ih index member
      exact ⟨first :: front, tail, by rw [split, List.cons_append], suffix⟩

theorem nodup (linked : Linked link head slots) : slots.Nodup := by
  induction linked with
  | nil => exact List.nodup_nil
  | @cons index rest nonzero linked ih =>
    refine List.nodup_cons.mpr ⟨?_, ih⟩
    intro again
    -- a second visit would start the same chain once more inside itself
    obtain ⟨front, tail, split, suffix⟩ := linked.suffix_of_mem index again
    have same : index :: rest = index :: tail := (Linked.cons nonzero linked).unique suffix
    have shorter : rest.length = tail.length := by rw [(List.cons.inj same).2]
    rw [split, List.length_append, List.length_cons] at shorter
    omega

/-- A slot that links nowhere is the last one of its chain. -/
theorem split_last (linked : Linked link head slots) {last : Nat} (member : last ∈ slots)
    (stops : link last = 0) : ∃ front, slots = front ++ [last] := by
  obtain ⟨front, rest, split, suffix⟩ := linked.suffix_of_mem last member
  cases suffix with
  | cons _ rest =>
    rw [rest.head_eq_zero_iff.mp stops] at split
    exact ⟨front, split⟩

/-- Linking the last slot of a chain to a new slot that links nowhere. -/
theorem append {front : List Nat} {last fresh : Nat}
    (linked : Linked link head (front ++ [last])) (new : fresh ∉ front ++ [last])
    (nonzero : fresh ≠ 0) :
    Linked (Function.update (Function.update link fresh 0) last fresh) head
      (front ++ [last] ++ [fresh]) := by
  have apart : fresh ≠ last := by
    intro same
    exact new (by rw [same]; exact List.mem_append_right front List.mem_cons_self)
  have ends : Linked (Function.update (Function.update link fresh 0) last fresh) fresh [fresh] := by
    refine .cons nonzero ?_
    rw [Function.update_of_ne apart, Function.update_self]
    exact .nil
  induction front generalizing head with
  | nil =>
    cases linked with
    | cons lastNonzero _ =>
      refine .cons lastNonzero ?_
      rw [Function.update_self]
      exact ends
  | cons first front ih =>
    have once := linked.nodup
    cases linked with
    | cons firstNonzero rest =>
      have notLast : first ≠ last := by
        intro same
        apply (List.nodup_cons.mp once).1
        rw [same]
        exact List.mem_append_right front List.mem_cons_self
      have notFresh : first ≠ fresh := by
        intro same
        exact new (by rw [← same]; exact List.mem_cons_self)
      refine .cons firstNonzero ?_
      rw [Function.update_of_ne notLast, Function.update_of_ne notFresh]
      exact ih rest (fun member => new (List.mem_cons_of_mem first member))

end Linked

namespace Store

variable {Value : Type}

/-- The chain of a bucket. -/
def ChainOf (store : Store Value) (number : Nat) (slots : List Nat) : Prop :=
  ∃ head, store.buckets[number]? = some head ∧ Linked store.link head slots

theorem ChainOf.unique {store : Store Value} {number : Nat} {first second : List Nat}
    (one : store.ChainOf number first) (two : store.ChainOf number second) : first = second := by
  obtain ⟨head, entry, linked⟩ := one
  obtain ⟨other, entryAgain, linkedAgain⟩ := two
  rw [entry] at entryAgain
  cases entryAgain
  exact linked.unique linkedAgain

theorem length_le_of_nodup {slots : List Nat} {bound : Nat} (once : slots.Nodup)
    (inside : ∀ index ∈ slots, index < bound) : slots.length ≤ bound := by
  have subset : slots ⊆ List.range bound :=
    fun index member => List.mem_range.mpr (inside index member)
  have shorter := (once.subperm subset).length_le
  rw [List.length_range] at shorter
  exact shorter

theorem length_lt_of_nodup {slots : List Nat} {bound : Nat} (positive : 0 < bound)
    (once : slots.Nodup) (nonzero : 0 ∉ slots) (inside : ∀ index ∈ slots, index < bound) :
    slots.length < bound := by
  have longer := length_le_of_nodup (List.nodup_cons.mpr ⟨nonzero, once⟩)
    (List.forall_mem_cons.mpr ⟨positive, inside⟩)
  exact longer

theorem chainFrom_eq_ok {store : Store Value} {head : Nat} {slots : List Nat}
    (linked : Linked store.link head slots) (inside : ∀ index ∈ slots, index < store.capacity)
    {fuel : Nat} (enough : slots.length ≤ fuel) : store.chainFrom fuel head = .ok slots := by
  induction linked generalizing fuel with
  | nil => cases fuel <;> rfl
  | @cons index rest nonzero linked ih =>
    obtain ⟨slot, read, _, next⟩ := slotAt_eq_ok (inside index List.mem_cons_self)
    obtain ⟨before, rfl⟩ := Nat.exists_eq_succ_of_ne_zero nonzero
    cases fuel with
    | zero =>
      rw [List.length_cons] at enough
      omega
    | succ fuel =>
      rw [List.length_cons] at enough
      have tail := ih (fun index member => inside index (List.mem_cons_of_mem _ member))
        (Nat.le_of_succ_le_succ enough)
      unfold chainFrom
      rw [read]
      show (do return (before + 1) :: (← store.chainFrom fuel slot.next)) = Except.ok _
      rw [next, tail]
      rfl

theorem ChainOf.chain_eq_ok {store : Store Value} {number : Nat} {slots : List Nat}
    (chained : store.ChainOf number slots) (inside : ∀ index ∈ slots, index < store.capacity) :
    store.chain number = .ok slots := by
  obtain ⟨head, entry, linked⟩ := chained
  unfold chain
  rw [bucket_eq_ok entry]
  exact chainFrom_eq_ok linked inside (length_le_of_nodup linked.nodup inside)

theorem ChainOf.stays {store : Store Value} {number : Nat} {slots : List Nat}
    (chain : store.ChainOf number slots) (positive : 0 < store.capacity)
    (inside : ∀ index ∈ slots, index < store.capacity) {index : Nat}
    (source : store.buckets[number]? = some index ∨ ∃ last ∈ slots, store.link last = index) :
    index < store.capacity := by
  obtain ⟨head, entry, linked⟩ := chain
  rcases source with isHead | ⟨last, member, rfl⟩
  · rw [entry] at isHead
    cases isHead
    cases linked with
    | nil => exact positive
    | cons _ _ => exact inside _ List.mem_cons_self
  · rcases linked.link_mem member with stops | onward
    · exact stops ▸ positive
    · exact inside _ onward

/-! ## Links that lead out of the store -/

/-- An index, if it is that of a slot. Whatever else ends a chain as slot 0 does. -/
def inward (store : Store Value) (index : Nat) : Nat :=
  if index < store.capacity then index else 0

/-- The slots that are met from a bucket, until a link leads to no slot. -/
def WalkOf (store : Store Value) (number : Nat) (slots : List Nat) : Prop :=
  ∃ head, store.buckets[number]? = some head ∧
    Linked (store.inward ∘ store.link) (store.inward head) slots

theorem inward_eq {store : Store Value} {index : Nat} (inside : index < store.capacity) :
    store.inward index = index :=
  if_pos inside

@[simp] theorem inward_zero (store : Store Value) : store.inward 0 = 0 :=
  ite_self 0

/-- A link that leads on leads to the slot it names. -/
theorem inward_eq_of_ne_zero {store : Store Value} {index : Nat} (onward : store.inward index ≠ 0) :
    store.inward index = index :=
  if_pos (by
    by_contra outside
    exact onward (if_neg outside))

/-- A link that leads nowhere is empty or leads out of the store. -/
theorem capacity_le_of_inward_eq_zero {store : Store Value} {index : Nat}
    (stops : store.inward index = 0) (nonzero : index ≠ 0) : store.capacity ≤ index := by
  by_contra inside
  rw [inward_eq (Nat.lt_of_not_le inside)] at stops
  exact nonzero stops

theorem WalkOf.unique {store : Store Value} {number : Nat} {first second : List Nat}
    (one : store.WalkOf number first) (two : store.WalkOf number second) : first = second := by
  obtain ⟨head, entry, linked⟩ := one
  obtain ⟨other, entryAgain, linkedAgain⟩ := two
  rw [entry] at entryAgain
  cases entryAgain
  exact linked.unique linkedAgain

theorem WalkOf.congr {store after : Store Value} {number : Nat} {slots : List Nat}
    (walk : store.WalkOf number slots) (buckets : after.buckets[number]? = store.buckets[number]?)
    (capacity : after.capacity = store.capacity)
    (links : ∀ index ∈ slots, after.link index = store.link index) : after.WalkOf number slots := by
  obtain ⟨head, entry, linked⟩ := walk
  have same : after.inward = store.inward := by
    unfold inward
    rw [capacity]
  refine ⟨head, buckets.trans entry, ?_⟩
  rw [same]
  refine linked.congr fun index member => ?_
  rw [Function.comp_apply, links index member, Function.comp_apply]

theorem ChainOf.walkOf {store : Store Value} {number : Nat} {slots : List Nat}
    (chain : store.ChainOf number slots) (inside : ∀ index ∈ slots, index < store.capacity) :
    store.WalkOf number slots := by
  obtain ⟨head, entry, linked⟩ := chain
  refine ⟨head, entry, ?_⟩
  clear entry
  induction linked with
  | nil =>
    rw [inward_zero]
    exact .nil
  | cons nonzero _ ih =>
    rw [inward_eq (inside _ List.mem_cons_self)]
    exact .cons nonzero (ih fun index member => inside index (List.mem_cons_of_mem _ member))

end Store

end DecisionDiagram
