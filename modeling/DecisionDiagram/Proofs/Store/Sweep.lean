import DecisionDiagram.Proofs.Store.UniqueTable
import DecisionDiagram.Store.Sweep

/-!
# What a sweep leaves

A sweep removes the chained slots that are not marked and nothing else: values stay where they are,
and each chain is what it was without the removed slots. Sweeping one bucket keeps the invariant of
the unique table, so the buckets can be swept one after the other.
-/

set_option autoImplicit false

namespace DecisionDiagram.Store

variable {Value : Type}

/-- `after` is `before` without the visited slots that are not marked. -/
structure Swept (before : Store Value) (marked : Nat → Bool) (visited : Set Nat)
    (after : Store Value) : Prop where
  allotted : after.Allotted
  kept : ∀ index, (index ∈ visited → marked index = true) →
    after.contents index = before.contents index
  dropped : ∀ index, index ∈ visited → marked index = false → after.contents index = none
  capacity : after.capacity = before.capacity
  lastUsed : after.lastUsed = before.lastUsed

namespace Swept

variable {before middle after : Store Value} {marked : Nat → Bool} {visited : Set Nat} {index : Nat}

theorem refl (allotted : before.Allotted) (marked : Nat → Bool) : before.Swept marked ∅ before :=
  ⟨allotted, fun _ _ => rfl, fun _ member => absurd member (Set.notMem_empty _), rfl, rfl⟩

/-- A slot is left in use exactly if it was in use and is not dropped. -/
theorem contents_eq_some_iff (swept : before.Swept marked visited after) {value : Value} :
    after.contents index = some value ↔
      before.contents index = some value ∧ (index ∈ visited → marked index = true) := by
  by_cases safe : index ∈ visited → marked index = true
  · rw [swept.kept index safe]
    exact ⟨fun held => ⟨held, safe⟩, fun held => held.1⟩
  · obtain ⟨member, unmarked⟩ := Classical.not_imp.mp safe
    rw [swept.dropped index member (Bool.eq_false_of_not_eq_true unmarked)]
    simp [safe]

theorem trans {later : Set Nat} (first : before.Swept marked visited middle)
    (second : middle.Swept marked later after) : before.Swept marked (visited ∪ later) after := by
  refine ⟨second.allotted, ?_, ?_, ?_, ?_⟩
  · intro index safe
    rw [second.kept index fun member => safe (Or.inr member),
      first.kept index fun member => safe (Or.inl member)]
  · intro index member unmarked
    by_cases inLater : index ∈ later
    · exact second.dropped index inLater unmarked
    · have inVisited : index ∈ visited := member.resolve_right inLater
      rw [second.kept index fun again => absurd again inLater]
      exact first.dropped index inVisited unmarked
  · rw [second.capacity, first.capacity]
  · rw [second.lastUsed, first.lastUsed]

theorem congr {same : Set Nat} (swept : before.Swept marked visited after)
    (equal : ∀ index value, before.contents index = some value →
      (index ∈ visited ↔ index ∈ same)) : before.Swept marked same after := by
  refine ⟨swept.allotted, ?_, ?_, swept.capacity, swept.lastUsed⟩
  · intro index safe
    cases held : before.contents index with
    | none =>
      cases left : after.contents index with
      | none => rfl
      | some value =>
        rw [swept.contents_eq_some_iff, held] at left
        cases left.1
    | some value =>
      rw [swept.kept index fun member => safe ((equal index value held).mp member), held]
  · intro index member unmarked
    cases left : after.contents index with
    | none => rfl
    | some value =>
      obtain ⟨held, safe⟩ := swept.contents_eq_some_iff.mp left
      rw [safe ((equal index value held).mpr member)] at unmarked
      cases unmarked

theorem relinked (swept : before.Swept marked visited after) (isMarked : marked index = true)
    (next : Nat) : before.Swept marked (insert index visited) (after.relinked index next) := by
  refine ⟨swept.allotted.relinked index next, ?_, ?_, ?_, swept.lastUsed⟩
  · intro other safe
    rw [contents_relinked]
    exact swept.kept other fun member => safe (Set.mem_insert_of_mem _ member)
  · intro other member unmarked
    rw [contents_relinked]
    rcases member with same | member
    · rw [same, isMarked] at unmarked
      cases unmarked
    · exact swept.dropped other member unmarked
  · rw [capacity_relinked, swept.capacity]

theorem freed {value : Value} (swept : before.Swept marked visited after)
    (held : after.contents index = some value) (unmarked : marked index = false) :
    before.Swept marked (insert index visited) (after.freed index) := by
  refine ⟨swept.allotted.freed held, ?_, ?_, ?_, swept.lastUsed⟩
  · intro other safe
    have apart : other ≠ index := by
      intro same
      rw [same] at safe
      rw [safe (Set.mem_insert index visited)] at unmarked
      cases unmarked
    rw [contents_freed, Function.update_of_ne apart]
    exact swept.kept other fun member => safe (Set.mem_insert_of_mem _ member)
  · intro other member otherUnmarked
    rw [contents_freed]
    by_cases same : other = index
    · rw [same, Function.update_self]
    · rw [Function.update_of_ne same]
      exact swept.dropped other (member.resolve_left same) otherUnmarked
  · rw [capacity_freed, swept.capacity]

end Swept

/-! ## One chain -/

section

variable {store : Store Value} {marked : Nat → Bool} {fuel : Nat}

/-- One step of the sweep of a chain, when the rest of the chain is swept. -/
theorem sweepFrom_succ {middle : Store Value} {index start : Nat} {value : Value}
    (held : store.contents index = some value)
    (run : sweepFrom marked fuel (store.link index) store = .ok start middle) :
    sweepFrom marked (fuel + 1) index store =
      (if marked index then do setNext index start; return index
        else do free index; return start : Action Value Nat) middle := by
  cases index with
  | zero => cases held
  | succ index =>
    show (_ >>= _ : Action Value Nat) store = _
    rw [bind_ok (get_ok store), bind_ok (read_ok (next_eq_ok held) store), bind_ok run]

theorem sweepFrom_spec (marked : Nat → Bool) {head : Nat} {slots : List Nat}
    (linked : Linked store.link head slots) (allotted : store.Allotted)
    (held : ∀ index ∈ slots, ∃ value, store.contents index = some value) :
    ∃ start after, (∀ fuel, slots.length ≤ fuel →
        sweepFrom marked fuel head store = .ok start after) ∧
      Linked after.link start (slots.filter marked) ∧
      store.Swept marked {index | index ∈ slots} after ∧
      after.buckets = store.buckets ∧
      ∀ index, index ∉ slots → after.link index = store.link index := by
  induction linked with
  | nil =>
    have run : ∀ fuel, sweepFrom marked fuel 0 store = .ok 0 store := fun fuel => by
      cases fuel <;> rfl
    refine ⟨0, store, fun fuel _ => run fuel, .nil, ?_, rfl, fun _ _ => rfl⟩
    simpa using Swept.refl allotted marked
  | @cons index rest nonzero linked ih =>
    have once := (Linked.cons nonzero linked).nodup
    have notLater : index ∉ rest := (List.nodup_cons.mp once).1
    obtain ⟨value, indexHeld⟩ := held index List.mem_cons_self
    obtain ⟨start, middle, run, chain, swept, buckets, links⟩ :=
      ih fun other member => held other (List.mem_cons_of_mem _ member)
    have step : ∀ fuel, (index :: rest).length ≤ fuel → sweepFrom marked fuel index store =
        (if marked index then do setNext index start; return index
          else do free index; return start : Action Value Nat) middle := by
      intro fuel enough
      obtain ⟨fuel, rfl⟩ := Nat.exists_eq_succ_of_ne_zero
        (Nat.ne_of_gt (Nat.lt_of_lt_of_le (Nat.succ_pos _) enough))
      exact sweepFrom_succ indexHeld (run fuel (Nat.le_of_succ_le_succ enough))
    have still : middle.contents index = some value := by
      rw [swept.kept index fun member => absurd member notLater, indexHeld]
    have union : {other | other ∈ index :: rest} = insert index {other | other ∈ rest} := by
      ext other
      simp
    have apart : ∀ other ∈ rest.filter marked, other ≠ index := by
      intro other member same
      rw [same] at member
      exact notLater (List.mem_filter.mp member).1
    rw [union]
    by_cases isMarked : marked index = true
    · refine ⟨index, middle.relinked index start, ?_, ?_, swept.relinked isMarked start,
        buckets, ?_⟩
      · intro fuel enough
        rw [step fuel enough, if_pos isMarked, bind_ok (setNext_eq_ok still start)]
        rfl
      · rw [List.filter_cons_of_pos isMarked, link_relinked still]
        refine .cons nonzero ?_
        rw [Function.update_self]
        exact chain.congr fun other member => Function.update_of_ne (apart other member) _ _
      · intro other outside
        have notIndex : other ≠ index := fun same => outside (by rw [same]; exact List.mem_cons_self)
        rw [link_relinked still, Function.update_of_ne notIndex]
        exact links other fun member => outside (List.mem_cons_of_mem _ member)
    · have unmarked := Bool.eq_false_of_not_eq_true isMarked
      refine ⟨start, middle.freed index, ?_, ?_, swept.freed still unmarked, buckets, ?_⟩
      · intro fuel enough
        rw [step fuel enough, if_neg isMarked, bind_ok (free_eq_ok still)]
        rfl
      · rw [List.filter_cons_of_neg isMarked, link_freed]
        exact chain.congr fun other member => Function.update_of_ne (apart other member) _ _
      · intro other outside
        have notIndex : other ≠ index := fun same => outside (by rw [same]; exact List.mem_cons_self)
        rw [link_freed, Function.update_of_ne notIndex]
        exact links other fun member => outside (List.mem_cons_of_mem _ member)

/-- A chain of marked slots is left as it is. -/
theorem sweepFrom_of_marked {head : Nat} {slots : List Nat}
    (linked : Linked store.link head slots)
    (held : ∀ index ∈ slots, ∃ value, store.contents index = some value)
    (allMarked : ∀ index ∈ slots, marked index = true) (enough : slots.length ≤ fuel) :
    sweepFrom marked fuel head store = .ok head store := by
  induction linked generalizing fuel with
  | nil => cases fuel <;> rfl
  | @cons index rest nonzero linked ih =>
    obtain ⟨value, indexHeld⟩ := held index List.mem_cons_self
    obtain ⟨fuel, rfl⟩ := Nat.exists_eq_succ_of_ne_zero
      (show fuel ≠ 0 by rw [List.length_cons] at enough; omega)
    have run := ih (fun other member => held other (List.mem_cons_of_mem _ member))
      (fun other member => allMarked other (List.mem_cons_of_mem _ member))
      (Nat.le_of_succ_le_succ enough)
    rw [sweepFrom_succ indexHeld run, if_pos (allMarked index List.mem_cons_self),
      bind_ok (setNext_eq_ok indexHeld _), relinked_self rfl]
    rfl

end

/-! ## All chains -/

section

variable [BEq Value] [BucketHash Value] {store : Store Value} {loose : Set Nat} {marked : Nat → Bool}

/-- The chained slots of the first `count` buckets. -/
def chainedBelow (store : Store Value) (loose : Set Nat) (count : Nat) : Set Nat :=
  {index | index ∉ loose ∧
    ∃ value, store.contents index = some value ∧ store.bucketIndex value < count}

/-- What is left of the unique table when some slots of one chain are gone. -/
theorem Threaded.swept {after : Store Value} {number : Nat} {slots : List Nat}
    (threaded : store.Threaded loose) (chain : store.ChainOf number slots)
    (swept : store.Swept marked {index | index ∈ slots} after)
    (bucketCount : after.bucketCount = store.bucketCount)
    (chains : ∀ other others, store.ChainOf other others →
      after.ChainOf other (if other = number then others.filter marked else others)) :
    after.Threaded loose := by
  have sameBucket : ∀ value : Value, after.bucketIndex value = store.bucketIndex value := by
    intro value
    unfold bucketIndex
    rw [bucketCount]
  refine ⟨?_, ?_, ?_, ?_⟩
  · rw [bucketCount]
    exact threaded.bucketCount_pos
  · rw [bucketCount]
    exact threaded.bucketCount_lt
  · intro other inside
    rw [bucketCount] at inside
    obtain ⟨others, otherChain, members⟩ := threaded.chained other inside
    refine ⟨_, chains other others otherChain, ?_⟩
    intro index
    simp only [swept.contents_eq_some_iff, sameBucket, Set.mem_ofPred_eq]
    by_cases own : other = number
    · subst own
      have same := otherChain.unique chain
      subst same
      rw [if_pos rfl, List.mem_filter, members]
      constructor
      · rintro ⟨⟨tight, value, held, bucket⟩, isMarked⟩
        exact ⟨tight, value, ⟨held, fun _ => isMarked⟩, bucket⟩
      · rintro ⟨tight, value, ⟨held, safe⟩, bucket⟩
        exact ⟨⟨tight, value, held, bucket⟩, safe ⟨tight, value, held, bucket⟩⟩
    · rw [if_neg own, members]
      constructor
      · rintro ⟨tight, value, held, bucket⟩
        refine ⟨tight, value, ⟨held, fun member => ?_⟩, bucket⟩
        have again := (members index).mpr ⟨tight, value, held, bucket⟩
        exact absurd (threaded.number_unique otherChain chain again member) own
      · rintro ⟨tight, value, ⟨held, _⟩, bucket⟩
        exact ⟨tight, value, held, bucket⟩
  · intro first second value other firstTight secondTight firstHeld secondHeld
    exact threaded.distinct first second value other firstTight secondTight
      (swept.contents_eq_some_iff.mp firstHeld).1 (swept.contents_eq_some_iff.mp secondHeld).1

theorem sweepBucket_spec (marked : Nat → Bool) {number : Nat} {slots : List Nat}
    (threaded : store.Threaded loose) (allotted : store.Allotted)
    (chain : store.ChainOf number slots) :
    ∃ after, sweepBucket marked number store = .ok () after ∧
      store.Swept marked {index | index ∈ slots} after ∧
      after.bucketCount = store.bucketCount ∧
      ∀ other others, store.ChainOf other others →
        after.ChainOf other (if other = number then others.filter marked else others) := by
  have ⟨head, entry, linked⟩ := chain
  unfold sweepBucket
  rw [bind_ok (get_ok store), bind_ok (read_ok (bucket_eq_ok entry) store)]
  by_cases empty : head = 0
  · have none := linked.head_eq_zero_iff.mp empty
    subst none
    refine ⟨store, by rw [if_pos empty]; rfl, ?_, rfl, ?_⟩
    · simpa using Swept.refl allotted marked
    · intro other others otherChain
      by_cases own : other = number
      · subst own
        rw [if_pos rfl, otherChain.unique chain]
        exact chain
      · rw [if_neg own]
        exact otherChain
  · obtain ⟨start, after, run, rest, swept, buckets, links⟩ := sweepFrom_spec marked linked allotted
      fun index member => threaded.held_of_mem chain member
    have kept : after.buckets[number]? = some head := by rw [buckets, entry]
    refine ⟨after.rebucketed number start, ?_, ?_, ?_, ?_⟩
    · rw [if_neg empty, bind_ok (get_ok store), bind_ok (run _ (threaded.length_le chain)),
        setBucket_eq_ok kept]
    · exact ⟨swept.allotted.rebucketed _ _, swept.kept, swept.dropped, swept.capacity,
        swept.lastUsed⟩
    · rw [bucketCount_rebucketed]
      unfold bucketCount
      rw [buckets]
    · intro other others otherChain
      have ⟨otherHead, otherEntry, otherLinked⟩ := otherChain
      by_cases own : other = number
      · subst own
        rw [if_pos rfl, otherChain.unique chain]
        refine ⟨start, ?_, rest⟩
        rw [buckets_rebucketed kept, if_pos rfl]
      · rw [if_neg own]
        refine ⟨otherHead, ?_, ?_⟩
        · rw [buckets_rebucketed kept, if_neg (Ne.symm own), buckets, otherEntry]
        · rw [link_rebucketed]
          refine otherLinked.congr fun index member => links index ?_
          intro inChain
          exact own (threaded.number_unique otherChain chain member inChain)

/-- Sweeping the first buckets. The induction is on their number, and each bucket is swept in a
store whose chains the sweep of the others has left in order. -/
theorem sweepBuckets_spec (marked : Nat → Bool) (count : Nat) (threaded : store.Threaded loose)
    (allotted : store.Allotted) (atMost : count ≤ store.bucketCount) :
    ∃ after, sweepBuckets marked count store = .ok () after ∧ after.Threaded loose ∧
      store.Swept marked (store.chainedBelow loose count) after ∧
      after.bucketCount = store.bucketCount ∧
      ∀ number slots, store.ChainOf number slots →
        after.ChainOf number (if number < count then slots.filter marked else slots) := by
  induction count generalizing store with
  | zero =>
    refine ⟨store, rfl, threaded, (Swept.refl allotted marked).congr ?_, rfl, ?_⟩
    · intro index value _
      simp [chainedBelow]
    · intro number slots chain
      exact chain
  | succ count ih =>
    obtain ⟨slots, chain, members⟩ := threaded.chained count atMost
    obtain ⟨middle, run, swept, bucketCount, chains⟩ :=
      sweepBucket_spec marked threaded allotted chain
    have middleThreaded := threaded.swept chain swept bucketCount chains
    obtain ⟨after, runRest, afterThreaded, sweptRest, bucketCountRest, chainsRest⟩ :=
      ih middleThreaded swept.allotted (by omega)
    refine ⟨after, ?_, afterThreaded, (swept.trans sweptRest).congr ?_, ?_, ?_⟩
    · rw [sweepBuckets, bind_ok run, runRest]
    · intro index value held
      have sameBucket : middle.bucketIndex value = store.bucketIndex value := by
        unfold bucketIndex
        rw [bucketCount]
      simp only [Set.mem_union, Set.mem_ofPred_eq, chainedBelow, members,
        swept.contents_eq_some_iff, held, Option.some.injEq]
      constructor
      · rintro (⟨tight, value, rfl, bucket⟩ | ⟨tight, value, ⟨rfl, _⟩, bucket⟩)
        · exact ⟨tight, value, rfl, by omega⟩
        · rw [sameBucket] at bucket
          exact ⟨tight, value, rfl, by omega⟩
      · rintro ⟨tight, value, rfl, bucket⟩
        rcases Nat.lt_succ_iff_lt_or_eq.mp bucket with earlier | last
        · refine Or.inr ⟨tight, value, ⟨rfl, ?_⟩, by rw [sameBucket]; exact earlier⟩
          rintro ⟨_, again, rfl, bucketAgain⟩
          omega
        · exact Or.inl ⟨tight, value, rfl, last⟩
    · rw [bucketCountRest, bucketCount]
    · intro number others otherChain
      have stepped := chainsRest number _ (chains number others otherChain)
      by_cases own : number = count
      · subst own
        simpa using stepped
      · have same : number < count + 1 ↔ number < count := by omega
        simp only [if_neg own] at stepped
        simp only [same]
        exact stepped

theorem sweep_spec (marked : Nat → Bool) (threaded : store.Threaded loose)
    (allotted : store.Allotted) :
    ∃ after, sweep marked store = .ok () after ∧ after.Threaded loose ∧
      store.Swept marked {index | index ∉ loose} after ∧
      after.bucketCount = store.bucketCount ∧
      ∀ number slots, store.ChainOf number slots → after.ChainOf number (slots.filter marked) := by
  obtain ⟨after, run, afterThreaded, swept, bucketCount, chains⟩ :=
    sweepBuckets_spec marked store.bucketCount threaded allotted (Nat.le_refl _)
  refine ⟨after, ?_, afterThreaded, swept.congr ?_, bucketCount, ?_⟩
  · unfold sweep
    rw [bind_ok (get_ok store), run]
  · intro index value held
    simp only [chainedBelow, Set.mem_ofPred_eq, held, Option.some.injEq]
    constructor
    · exact fun member => member.1
    · exact fun tight => ⟨tight, value, rfl, threaded.bucketIndex_lt value⟩
  · intro number slots chain
    have ⟨_, entry, _⟩ := chain
    have inside : number < store.bucketCount := (Array.getElem?_eq_some_iff.mp entry).1
    have stepped := chains number slots chain
    rw [if_pos inside] at stepped
    exact stepped

/-- Where every chained slot is marked, a sweep changes nothing. -/
theorem sweep_of_marked (threaded : store.Threaded loose)
    (allMarked : ∀ index value, index ∉ loose → store.contents index = some value →
      marked index = true) : sweep marked store = .ok () store := by
  have bucketwise : ∀ number, number < store.bucketCount →
      sweepBucket marked number store = .ok () store := by
    intro number inside
    obtain ⟨slots, chain, members⟩ := threaded.chained number inside
    have ⟨head, entry, linked⟩ := chain
    have run := sweepFrom_of_marked linked (fun index member => threaded.held_of_mem chain member)
      (fun index member => by
        obtain ⟨tight, value, held, _⟩ := (members index).mp member
        exact allMarked index value tight held)
      (threaded.length_le chain)
    unfold sweepBucket
    rw [bind_ok (get_ok store), bind_ok (read_ok (bucket_eq_ok entry) store)]
    by_cases empty : head = 0
    · rw [if_pos empty]
      rfl
    · rw [if_neg empty, bind_ok (get_ok store), bind_ok run, setBucket_eq_ok entry,
        rebucketed_self entry]
  have buckets : ∀ count, count ≤ store.bucketCount →
      sweepBuckets marked count store = .ok () store := by
    intro count
    induction count with
    | zero => exact fun _ => rfl
    | succ count ih =>
      intro atMost
      rw [sweepBuckets, bind_ok (bucketwise count atMost), ih (Nat.le_of_succ_le atMost)]
  unfold sweep
  rw [bind_ok (get_ok store), buckets _ (Nat.le_refl _)]

end

end DecisionDiagram.Store
