import DecisionDiagram.Manager.Reach
import DecisionDiagram.Proofs.Manager.Confined

/-!
# The walk that finds the reachable slots

A walk reads slots in use only, and it ends. `visit` returns what it finds, the least set that has the
visited and the pending slots and is closed under children outside the slots that were visited before.
Started with the terminal alone, that is the set `below` of the edges.
-/

set_option autoImplicit false

namespace DecisionDiagram.Manager

open Std

variable {manager : Manager}

/-- The slots in use that are not visited yet. -/
def unvisited (store : Store Node) (visited : HashSet Nat) : Finset Nat :=
  store.liveSlots.filter fun index => visited.contains index = false

theorem card_unvisited_insert {store : Store Node} {visited : HashSet Nat} {index : Nat}
    (live : index ∈ store.liveSlots) (fresh : visited.contains index = false) :
    (unvisited store (visited.insert index)).card + 1 = (unvisited store visited).card := by
  have erased : unvisited store (visited.insert index) = (unvisited store visited).erase index := by
    ext other
    simp only [unvisited, Finset.mem_filter, Finset.mem_erase, HashSet.contains_insert,
      Bool.or_eq_false_iff, beq_eq_false_iff_ne]
    constructor
    · rintro ⟨known, different, rest⟩
      exact ⟨Ne.symm different, known, rest⟩
    · rintro ⟨different, known, rest⟩
      exact ⟨known, Ne.symm different, rest⟩
  rw [erased]
  exact Finset.card_erase_add_one (Finset.mem_filter.mpr ⟨live, fresh⟩)

/-- What a walk from some pending slots adds to the visited ones. -/
structure Explored (store : Store Node) (pending : List Nat) (visited found : HashSet Nat) :
    Prop where
  kept : ∀ index, visited.contains index → found.contains index
  added : ∀ index ∈ pending, found.contains index
  closed : ∀ parent child, found.contains parent → ¬ visited.contains parent →
    store.Child parent child → found.contains child
  origin : ∀ index, found.contains index → visited.contains index ∨
    ∃ start ∈ pending, store.Reaches start index

theorem Explored.nil (store : Store Node) (visited : HashSet Nat) :
    Explored store [] visited visited where
  kept _ known := known
  added _ member := absurd member List.not_mem_nil
  closed _ _ known fresh := absurd known fresh
  origin _ known := Or.inl known

theorem Explored.skip {store : Store Node} {pending : List Nat} {visited found : HashSet Nat}
    {index : Nat} (known : visited.contains index) (rest : Explored store pending visited found) :
    Explored store (index :: pending) visited found where
  kept := rest.kept
  added := by
    intro other member
    rcases List.mem_cons.mp member with rfl | later
    · exact rest.kept other known
    · exact rest.added other later
  closed := rest.closed
  origin := by
    intro other member
    apply (rest.origin other member).imp_right
    rintro ⟨start, later, reaches⟩
    exact ⟨start, List.mem_cons_of_mem index later, reaches⟩

/-- The children of a node that are not visited yet, the high one first. -/
def freshChildren (node : Node) (visited : HashSet Nat) : List Nat :=
  [node.high.index, node.low.index].filter fun child => !visited.contains child

theorem Explored.expand {store : Store Node} {pending : List Nat} {visited found : HashSet Nat}
    {index : Nat} {node : Node} (held : store.contents index = some node)
    (rest : Explored store (freshChildren node (visited.insert index) ++ pending)
      (visited.insert index) found) :
    Explored store (index :: pending) visited found where
  kept := by
    intro other member
    apply rest.kept other
    rw [HashSet.contains_insert, member, Bool.or_true]
  added := by
    intro other member
    rcases List.mem_cons.mp member with rfl | later
    · exact rest.kept other (HashSet.contains_insert_self)
    · exact rest.added other (List.mem_append_right _ later)
  closed := by
    intro parent child member fresh follows
    by_cases here : parent = index
    · obtain ⟨same, sameHeld, side⟩ := follows
      rw [here, held] at sameHeld
      obtain rfl := Option.some.inj sameHeld
      cases seen : (visited.insert index).contains child with
      | true => exact rest.kept child seen
      | false =>
        refine rest.added child (List.mem_append_left _ (List.mem_filter.mpr ⟨?_, ?_⟩))
        · rcases side with low | high
          · exact List.mem_cons_of_mem _ (List.mem_singleton.mpr low)
          · exact List.mem_cons.mpr (Or.inl high)
        · rw [seen]
          rfl
    · refine rest.closed parent child member ?_ follows
      rw [HashSet.contains_insert, Bool.or_eq_true, beq_iff_eq]
      rintro (same | known)
      · exact here same.symm
      · exact fresh known
  origin := by
    intro other member
    rcases rest.origin other member with seen | ⟨start, known, reaches⟩
    · rw [HashSet.contains_insert, Bool.or_eq_true, beq_iff_eq] at seen
      rcases seen with rfl | known
      · exact Or.inr ⟨index, List.mem_cons_self, Relation.ReflTransGen.refl⟩
      · exact Or.inl known
    · apply Or.inr
      rcases List.mem_append.mp known with child | later
      · have follows : store.Child index start := by
          refine ⟨node, held, ?_⟩
          have side := (List.mem_filter.mp child).1
          simp only [List.mem_cons, List.not_mem_nil, or_false] at side
          exact side.symm
        exact ⟨index, List.mem_cons_self, Relation.ReflTransGen.head follows reaches⟩
      · exact ⟨start, List.mem_cons_of_mem index later, reaches⟩

/-! ## Walks -/

/-- The steps of `visit`, counted, where no slots are read but those in use. -/
inductive Walk (store : Store Node) : Nat → List Nat → HashSet Nat → HashSet Nat → Prop
  | done {visited : HashSet Nat} : Walk store 0 [] visited visited
  | skip {steps index : Nat} {pending : List Nat} {visited found : HashSet Nat} :
      visited.contains index = true → Walk store steps pending visited found →
        Walk store (steps + 1) (index :: pending) visited found
  | expand {steps index : Nat} {pending : List Nat} {visited found : HashSet Nat} {node : Node} :
      visited.contains index = false → store.contents index = some node →
        Walk store steps (freshChildren node (visited.insert index) ++ pending)
          (visited.insert index) found →
        Walk store (steps + 1) (index :: pending) visited found

/-- A walk ends: every step takes a pending slot away or visits a slot, which adds at most two pending
ones. -/
theorem exists_walk {store : Store Node} (canonical : store.Canonical) {pending : List Nat}
    {visited : HashSet Nat} (live : ∀ index ∈ pending, index ∈ store.liveSlots) :
    ∃ steps found, steps ≤ pending.length + 2 * (unvisited store visited).card ∧
      Walk store steps pending visited found := by
  -- a slot may be pending many times, but it is visited once, so it counts twice until then
  induction measured : pending.length + 2 * (unvisited store visited).card using
    Nat.strong_induction_on generalizing pending visited with
  | _ measure ih =>
    subst measured
    cases pending with
    | nil => exact ⟨0, visited, Nat.zero_le _, .done⟩
    | cons index pending =>
      have later : ∀ other ∈ pending, other ∈ store.liveSlots := fun other member =>
        live other (List.mem_cons_of_mem index member)
      rw [List.length_cons] at ih ⊢
      cases known : visited.contains index with
      | true =>
        have smaller : pending.length + 2 * (unvisited store visited).card <
            pending.length + 1 + 2 * (unvisited store visited).card := by
          omega
        obtain ⟨steps, found, few, walk⟩ := ih _ smaller later rfl
        exact ⟨steps + 1, found, by omega, .skip known walk⟩
      | false =>
        have here := live index List.mem_cons_self
        obtain ⟨node, held⟩ := Store.mem_liveSlots.mp here
        have fewer := card_unvisited_insert here known
        have size : (freshChildren node (visited.insert index)).length ≤ 2 :=
          List.length_filter_le _ _
        have children : ∀ other ∈ freshChildren node (visited.insert index) ++ pending,
            other ∈ store.liveSlots := by
          intro other member
          rcases List.mem_append.mp member with child | rest
          · have side := (List.mem_filter.mp child).1
            simp only [List.mem_cons, List.not_mem_nil, or_false] at side
            exact Store.mem_liveSlots.mpr (canonical.child_live ⟨node, held, side.symm⟩)
          · exact later other rest
        have smaller : (freshChildren node (visited.insert index) ++ pending).length +
            2 * (unvisited store (visited.insert index)).card <
              pending.length + 1 + 2 * (unvisited store visited).card := by
          rw [List.length_append]
          omega
        obtain ⟨steps, found, few, walk⟩ := ih _ smaller children rfl
        exact ⟨steps + 1, found, by omega, .expand known held walk⟩

variable {steps fuel : Nat} {pending : List Nat} {visited found : HashSet Nat}

theorem Walk.explored {store : Store Node} (walk : Walk store steps pending visited found) :
    Explored store pending visited found := by
  induction walk with
  | done => exact Explored.nil _ _
  | skip known _ ih => exact ih.skip known
  | expand _ held _ ih => exact ih.expand held

/-- `visit` goes the walk if it may take as many steps, whatever the slots hold that are not in use. -/
theorem Walk.visit_eq {store : Store Node} (walk : Walk store steps pending visited found)
    (reads : ∀ index node, store.contents index = some node → manager.store.value index = .ok node)
    (enough : steps ≤ fuel) : manager.visit fuel pending visited = .ok found := by
  induction walk generalizing fuel with
  | done => cases fuel <;> rfl
  | skip known _ ih =>
    obtain ⟨more, rfl⟩ := Nat.exists_eq_add_of_le enough
    rw [Nat.add_right_comm, visit, if_pos known]
    exact ih (Nat.le_add_right _ _)
  | expand fresh held _ ih =>
    obtain ⟨more, rfl⟩ := Nat.exists_eq_add_of_le enough
    rw [Nat.add_right_comm, visit, fresh, if_neg Bool.false_ne_true, reads _ _ held]
    exact ih (Nat.le_add_right _ _)

/-- The slots in which a walk from some edges starts. -/
def roots (edges : List Edge) : List Nat :=
  (edges.filter fun edge => !edge.isTerminal).map Edge.index

theorem mem_roots {edges : List Edge} {index : Nat} :
    index ∈ roots edges ↔ ∃ edge ∈ edges, edge.index = index ∧ index ≠ 1 := by
  simp only [roots, List.mem_map, List.mem_filter, Edge.isTerminal, Bool.not_eq_true',
    beq_eq_false_iff_ne]
  constructor
  · rintro ⟨edge, ⟨member, inner⟩, rfl⟩
    exact ⟨edge, member, rfl, inner⟩
  · rintro ⟨edge, member, rfl, inner⟩
    exact ⟨edge, ⟨member, inner⟩, rfl⟩

/-- The slots that a walk from some edges starts with. -/
abbrev terminalOnly : HashSet Nat := HashSet.emptyWithCapacity.insert Edge.one.index

theorem contains_terminalOnly {index : Nat} : terminalOnly.contains index ↔ index = 1 := by
  rw [HashSet.contains_insert, HashSet.contains_emptyWithCapacity, Bool.or_false, beq_iff_eq]
  exact eq_comm

/-- A walk from some edges, begun with the terminal visited, finds the slots below the edges. -/
theorem Explored.contains_iff {store : Store Node} (canonical : store.Canonical)
    {edges : List Edge} (explored : Explored store (roots edges).reverse terminalOnly found)
    (index : Nat) : found.contains index ↔ index ∈ store.below edges := by
  have terminal : found.contains 1 := explored.kept 1 (contains_terminalOnly.mpr rfl)
  constructor
  · intro member
    rcases explored.origin index member with seen | ⟨start, pending, reaches⟩
    · exact Or.inl (contains_terminalOnly.mp seen)
    · obtain ⟨edge, known, rfl, _⟩ := mem_roots.mp (List.mem_reverse.mp pending)
      exact Or.inr ⟨edge, known, reaches⟩
  · rintro (rfl | ⟨edge, known, reaches⟩)
    · exact terminal
    · induction reaches with
      | refl =>
        by_cases ends : edge.index = 1
        · rw [ends]
          exact terminal
        · exact explored.added _ (List.mem_reverse.mpr (mem_roots.mpr ⟨edge, known, rfl, ends⟩))
      | @tail parent child _ follows ih =>
        by_cases ends : parent = 1
        · rw [ends] at follows
          rw [canonical.child_one follows]
          exact terminal
        · refine explored.closed parent child ih ?_ follows
          intro seen
          exact ends (contains_terminalOnly.mp seen)

/-- The walk from some edges takes no more steps than there are edges and twice as many as there are
slots in use. -/
theorem reachable_walk (canonical : manager.store.Canonical) {edges : List Edge}
    (live : ∀ edge ∈ edges, manager.store.Live edge) :
    ∃ steps found, steps ≤ edges.length + 2 * manager.store.liveCount ∧
      Walk manager.store steps (roots edges).reverse terminalOnly found ∧
      manager.reachable edges = .ok found := by
  have rootsLive : ∀ index ∈ (roots edges).reverse, index ∈ manager.store.liveSlots := by
    intro index member
    obtain ⟨edge, known, rfl, _⟩ := mem_roots.mp (List.mem_reverse.mp member)
    exact Store.mem_liveSlots.mpr (live edge known)
  have some : (roots edges).length ≤ edges.length := by
    rw [roots, List.length_map]
    exact List.length_filter_le _ _
  have few : (unvisited manager.store terminalOnly).card ≤ manager.store.liveSlots.card :=
    Finset.card_filter_le _ _
  have room : manager.store.liveSlots.card ≤ manager.store.capacity := by
    calc _ ≤ (Finset.range manager.store.capacity).card := Finset.card_filter_le _ _
      _ = manager.store.capacity := Finset.card_range _
  have count := canonical.allotted.liveCount_eq
  have walks : ∃ steps found, steps ≤ (roots edges).reverse.length +
      2 * (unvisited manager.store terminalOnly).card ∧
        Walk manager.store steps (roots edges).reverse terminalOnly found :=
    exists_walk canonical rootsLive
  obtain ⟨steps, found, bound, walk⟩ := walks
  rw [List.length_reverse] at bound
  have enough : steps ≤ (roots edges).length + 2 * manager.store.capacity := by omega
  exact ⟨steps, found, by omega, walk, walk.visit_eq (fun _ _ => Store.value_eq_ok) enough⟩

theorem reachable_spec (canonical : manager.store.Canonical) {edges : List Edge}
    (live : ∀ edge ∈ edges, manager.store.Live edge) :
    ∃ found, manager.reachable edges = .ok found ∧
      ∀ index, found.contains index ↔ index ∈ manager.store.below edges := by
  obtain ⟨_, found, _, walk, answer⟩ := reachable_walk canonical live
  exact ⟨found, answer, walk.explored.contains_iff canonical⟩

/-! ## Sizes -/

theorem nodup_toList (found : HashSet Nat) : found.toList.Nodup :=
  HashSet.distinct_toList.imp fun apart => by simpa using apart

theorem size_eq_ncard {slots : Set Nat}
    (same : ∀ index, found.contains index ↔ index ∈ slots) : found.size = slots.ncard := by
  have covers : slots = ↑found.toList.toFinset := by
    ext index
    rw [Finset.mem_coe, List.mem_toFinset, HashSet.mem_toList, ← HashSet.contains_iff_mem]
    exact (same index).symm
  rw [covers, Set.ncard_coe_finset, List.toFinset_card_of_nodup (nodup_toList found),
    HashSet.length_toList]

theorem visit_bare (manager : Manager) (fuel : Nat) (pending : List Nat) (visited : HashSet Nat) :
    manager.visit fuel pending visited = (bare manager.store).visit fuel pending visited := by
  induction fuel generalizing pending visited with
  | zero => cases pending <;> rfl
  | succ fuel ih =>
    cases pending with
    | nil => rfl
    | cons index rest =>
      simp only [visit, ih]
      rfl

theorem reachable_plain (edges : List Edge) : Plain (·.reachable edges) := fun manager =>
  visit_bare manager _ _ _

/-- A size is the number of slots below the edge, whatever the caches hold. -/
theorem size_confined {store : Store Node} {edge : Edge} {scope : Scope}
    (canonical : store.Canonical) (live : store.Live edge) :
    Confined steady scope (size edge) store
      fun count after => count = (store.below [edge]).ncard ∧ after = store := by
  have looks : Steady (onCaches (·.lookupSize edge)) store
      (Returns fun remembered => ∀ count, remembered = some count → store.SizeEntry edge count)
      store :=
    Steady.onCaches fun caches sound => sound.lookupSize edge
  refine Confined.look_bind canonical looks
    ⟨.ok (store.below [edge]).ncard, store, fun remembered entries => ?_,
      .returns canonical ⟨rfl, rfl⟩⟩
  cases remembered with
  | some count =>
    rw [← (entries count rfl).count_eq]
    exact Steady.pure rfl
  | none =>
    obtain ⟨found, answer, same⟩ :=
      reachable_spec (bare_sound canonical).canonical (List.forall_mem_singleton.mpr live)
    have count : found.size = (store.below [edge]).ncard := size_eq_ncard same
    refine Steady.bind (Steady.ask (reachable_plain [edge])) (fun slots isFound => ?_) fun fault failed => ?_
    · rw [answer] at isFound
      cases isFound
      rw [← count]
      exact (Steady.changeCaches fun caches sound => sound.insertSize ⟨live, count⟩).bind
        (fun _ _ => Steady.pure rfl) fun _ impossible => nomatch impossible
    · rw [answer] at failed
      cases failed

variable {before : Manager}

theorem size_eq_ok {edge : Edge} (sound : before.Sound) (live : before.store.Live edge) :
    ∃ after, size edge before = .ok (before.store.below [edge]).ncard after := by
  have confined : Confined steady (.stored sound.canonical) (size edge) before.store _ :=
    size_confined sound.canonical live
  obtain ⟨outcome, after, run, _, built⟩ := confined.run sound
  obtain ⟨_, count, rfl, same, _⟩ := built.of_stored sound.canonical
  rw [same] at run
  exact ⟨after, run⟩

/-- A size is always found, and it is remembered. -/
theorem size_remembers {edge : Edge} (sound : before.Sound) (live : before.store.Live edge) :
    ∃ count after, size edge before = .ok count after ∧
      after.caches.size.memo.entries[edge]? = some count := by
  let counted : Manager := { before with caches := (before.caches.lookupSize edge).2 }
  have look : onCaches (·.lookupSize edge) before =
      .ok (before.caches.lookupSize edge).1 counted := rfl
  have answer : (before.caches.lookupSize edge).1 = before.caches.size.memo.find? edge :=
    Cache.lookup_answer before.caches.size edge
  have same : counted.caches.size.memo = before.caches.size.memo :=
    Cache.memo_lookup before.caches.size edge
  unfold size
  rw [bind_ok look, answer]
  cases found : before.caches.size.memo.find? edge with
  | some count =>
    refine ⟨count, counted, rfl, ?_⟩
    rw [same]
    exact Memo.entry_of_find? found
  | none =>
    have canonical : counted.store.Canonical := sound.canonical
    obtain ⟨slots, walked, _⟩ := reachable_spec canonical (List.forall_mem_singleton.mpr live)
    exact ⟨slots.size, _, bind_ok (ask_ok walked), Std.HashMap.getElem?_insert_self⟩

end DecisionDiagram.Manager
