import DecisionDiagram.Proofs.Manager.Sound
import DecisionDiagram.Proofs.Store.Create

/-!
# New managers

A valid configuration makes a sound manager with the terminal as its only node.
-/

set_option autoImplicit false

namespace DecisionDiagram

theorem Config.validate_eq_ok_iff {config : Config} :
    config.validate = .ok () ↔ config.storageBits ≤ Store.maxBits ∧ 1 ≤ config.storageBits ∧
      config.bucketBits ≤ Store.maxBits ∧ config.cacheBits ≤ Store.maxBits := by
  simp only [Config.validate]
  split_ifs
  all_goals first
    | exact iff_of_false (fun valid => nomatch valid) (by omega)
    | exact iff_of_true rfl (by omega)

namespace Store

namespace Fresh

variable {store : Store Node} {bits bucketBits : Nat}

/-- The terminal is put into slot 1 of a fresh store. -/
theorem add_terminal (fresh : store.Fresh bits bucketBits) (roomy : 1 ≤ bits) :
    add Node.terminal store = .ok 1 (store.added 1 Node.terminal) := by
  have first : store.firstFree = 1 := by
    unfold firstFree
    rw [fresh.minFree, fresh.lastUsed]
    rfl
  have space : 1 < store.capacity := by
    rw [fresh.capacity]
    exact Nat.one_lt_two_pow (Nat.ne_of_gt roomy)
  rw [add_eq, first, if_pos space]

theorem canonical (fresh : store.Fresh bits bucketBits) (roomy : 1 ≤ bits) (few : bits ≤ maxBits)
    (fewBuckets : bucketBits ≤ maxBits) : (store.added 1 Node.terminal).Canonical := by
  have space : 1 < store.capacity := by
    rw [fresh.capacity]
    exact Nat.one_lt_two_pow (Nat.ne_of_gt roomy)
  have holds : (store.added 1 Node.terminal).contents =
      Function.update store.contents 1 (some Node.terminal) :=
    contents_added Nat.one_ne_zero space Node.terminal
  have others : ∀ index, index ≠ 1 → (store.added 1 Node.terminal).contents index = none := by
    intro index inner
    rw [holds, Function.update_of_ne inner]
    exact fresh.contents_eq_none index
  have lowest : store.LowestFree 1 :=
    ⟨Nat.one_ne_zero, space, fresh.contents_eq_none 1, fun other nonzero below => by omega⟩
  refine ⟨fresh.allotted.added lowest Node.terminal,
    ⟨fresh.bucketCount_pos, fresh.bucketCount_lt fewBuckets, ?_, ?_⟩, ?_, ?_, ?_⟩
  · intro number inside
    refine ⟨[], ⟨0, fresh.buckets number inside, .nil⟩, fun index => ?_⟩
    constructor
    · intro member
      cases member
    · rintro ⟨tight, value, held, _⟩
      rw [others index tight] at held
      cases held
  · intro firstIndex secondIndex value other tight _ held
    rw [others firstIndex tight] at held
    cases held
  · rw [holds, Function.update_self]
  · intro index node held inner
    rw [others index inner] at held
    cases held
  · rw [capacity_added, fresh.capacity]
    exact Nat.pow_le_pow_right Nat.two_pos few

end Fresh

end Store

namespace Manager

/-- A valid configuration makes a manager with nothing but the terminal, remembering or not. -/
theorem createWith_eq_ok {config : Config} (valid : config.validate = .ok ()) :
    ∃ store : Store Node, store.Canonical ∧ ∀ recalls,
      createWith recalls config = .ok ⟨store, .empty recalls, [], recalls⟩ := by
  obtain ⟨few, roomy, fewBuckets, _⟩ := Config.validate_eq_ok_iff.mp valid
  obtain ⟨store, made, fresh⟩ : ∃ store : Store Node, _ := Store.create_spec few fewBuckets
  refine ⟨store.added 1 Node.terminal, fresh.canonical roomy few fewBuckets, fun recalls => ?_⟩
  unfold createWith
  simp only [valid, made, answer_bind, fresh.add_terminal roomy]
  rfl

theorem createWith_spec {config : Config} (valid : config.validate = .ok ()) (recalls : Bool) :
    ∃ manager, createWith recalls config = .ok manager ∧ manager.Sound := by
  obtain ⟨store, canonical, makes⟩ := createWith_eq_ok valid
  exact ⟨_, makes recalls, canonical, .empty _ _, fun _ member => absurd member List.not_mem_nil⟩

theorem valid_of_create {config : Config} {manager : Manager}
    (made : create config = .ok manager) : config.validate = .ok () := by
  obtain ⟨_, valid, _⟩ := answer_bind_eq_ok made
  exact valid

theorem create_sound {config : Config} {manager : Manager} (made : create config = .ok manager) :
    manager.Sound := by
  obtain ⟨other, makes, sound⟩ := createWith_spec (valid_of_create made) true
  cases makes.symm.trans made
  exact sound

end Manager

end DecisionDiagram
