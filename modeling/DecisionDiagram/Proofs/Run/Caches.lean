import DecisionDiagram.Proofs.Manager.Run

/-!
# What the caches remember is right

After any run, whatever faulted on the way and whatever slots were given back and handed out again,
every entry of every cache is about edges in use, has a key of the shape that look-ups ask for, and
has the answer that a new computation would have to give.
-/

set_option autoImplicit false

namespace DecisionDiagram.Manager

variable {manager : Manager} {answer first second third : Edge}

/-- Under every assignment that covers the operands, the value of the answer is what `combine` makes
of the values of the operands. -/
def Tabulates (manager : Manager) (operands : List Edge) (answer : Edge)
    (combine : (Edge → Bool) → Bool) : Prop :=
  ∀ assignment, (∀ operand ∈ operands, Covers manager.store assignment operand) →
    ∃ value : Edge → Bool,
      (∀ operand ∈ operands, manager.value operand assignment = .ok (value operand)) ∧
        manager.value answer assignment = .ok (combine value)

/-- The entries of all caches, with what each of them says about the present store. -/
structure CachesRight (manager : Manager) : Prop where
  ite : ∀ condition whenTrue whenFalse answer,
    manager.caches.ite.memo.entries[(condition, whenTrue, whenFalse)]? = some answer →
      manager.store.IteEntry (condition, whenTrue, whenFalse) answer ∧
        manager.Tabulates [condition, whenTrue, whenFalse] answer fun value =>
          if value condition then value whenTrue else value whenFalse
  binary : ∀ connective first second answer,
    (manager.caches.binary connective).memo.entries[(first, second)]? = some answer →
      manager.store.BinaryEntry connective (first, second) answer ∧
        manager.Tabulates [first, second] answer fun value =>
          connective.eval (value first) (value second)
  size : ∀ edge count, manager.caches.size.memo.entries[edge]? = some count →
    manager.store.SizeEntry edge count ∧
      ∃ slots, manager.reachable [edge] = .ok slots ∧ slots.size = count

theorem tabulates_of_represents (canonical : manager.store.Canonical) {operands : List Edge}
    {combine : (Edge → Bool) → Bool}
    (onOperands : ∀ left right : Edge → Bool,
      (∀ operand ∈ operands, left operand = right operand) → combine left = combine right)
    (live : ∀ operand ∈ operands, manager.store.Live operand)
    (represents : manager.store.Represents answer fun valuation =>
      combine fun operand => manager.store.denote operand valuation) :
    manager.Tabulates operands answer combine := by
  intro assignment covers
  refine ⟨fun operand => manager.store.denote operand (valuationOf assignment), ?_, ?_⟩
  · intro operand member
    exact value_spec canonical (live operand member).represents (covers operand member)
  · exact value_spec canonical represents
      (covers_of_operands canonical canonical onOperands represents live covers)

theorem tabulates_of_iteEntry (canonical : manager.store.Canonical)
    (entry : manager.store.IteEntry (first, second, third) answer) :
    manager.Tabulates [first, second, third] answer fun value =>
      if value first then value second else value third := by
  refine tabulates_of_represents canonical ?_ ?_ entry.answer
  · intro left right agree
    simp [agree]
  · simp [entry.condition_live, entry.whenTrue_live, entry.whenFalse_live]

theorem tabulates_of_binaryEntry {connective : Connective} (canonical : manager.store.Canonical)
    (entry : manager.store.BinaryEntry connective (first, second) answer) :
    manager.Tabulates [first, second] answer fun value =>
      connective.eval (value first) (value second) := by
  refine tabulates_of_represents canonical ?_ ?_ entry.answer
  · intro left right agree
    simp [agree]
  · simp [entry.first_live, entry.second_live]

/-- A remembered size is the number of slots that a walk from the edge finds now. -/
theorem reachable_of_sizeEntry {edge : Edge} {count : Nat} (canonical : manager.store.Canonical)
    (entry : manager.store.SizeEntry edge count) :
    ∃ slots, manager.reachable [edge] = .ok slots ∧ slots.size = count := by
  obtain ⟨slots, found, members⟩ :=
    reachable_spec canonical (List.forall_mem_singleton.mpr entry.live)
  exact ⟨slots, found, by rw [size_eq_ncard members, entry.count_eq]⟩

theorem Sound.cachesRight (sound : manager.Sound) : manager.CachesRight where
  ite _ _ _ _ stored :=
    have entry := sound.caches.ite _ _ stored
    ⟨entry, tabulates_of_iteEntry sound.canonical entry⟩
  binary connective _ _ _ stored :=
    have entry := sound.caches.binary connective _ _ stored
    ⟨entry, tabulates_of_binaryEntry sound.canonical entry⟩
  size _ _ stored :=
    have entry := sound.caches.size _ _ stored
    ⟨entry, reachable_of_sizeEntry sound.canonical entry⟩

/-- **The caches are right** in every state of every run. -/
theorem attained_cachesRight {config : Config} (attained : Attained config manager) :
    manager.CachesRight :=
  attained.sound.cachesRight

/-- With two literals the store is full, and the third call faults. A collection that keeps the
second literal makes room, so that the third one takes the slot of the first. Then a size is
remembered. -/
theorem cachesRight_after_reuse : ∃ manager full reused count sized,
    (Call.literal 3).perform manager = .error (.storageFull 4) full ∧
      reused = (Call.literal 3).leaves ((Call.collect [⟨3, by decide⟩]).leaves full) ∧
        size ⟨3, by decide⟩ reused = .ok count sized ∧
          sized.caches.size.memo.entries[(⟨3, by decide⟩ : Edge)]? = some count ∧
            sized.CachesRight := by
  have noEdges : ∀ (number : Int) (manager : Manager), (Call.literal number).Admissible manager :=
    fun _ _ _ member => absurd member List.not_mem_nil
  have started : ∃ manager full, Attained ⟨2, 1, 1⟩ manager ∧
      (Call.literal 3).perform manager = .error (.storageFull 4) full ∧
        full.store.Live ⟨3, by decide⟩ :=
    ⟨_, _, .called (.literal 2) (.called (.literal 1) (.created rfl) (noEdges 1 _)) (noEdges 2 _),
      by with_unfolding_all rfl, ⟨2, .zero, .one⟩, by decide +kernel⟩
  obtain ⟨manager, full, attained, run, live⟩ := started
  have attainedFull : Attained ⟨2, 1, 1⟩ full :=
    Call.leaves_of_error run ▸ .called (.literal 3) attained (noEdges 3 manager)
  have rootLive := List.forall_mem_singleton.mpr live
  have attainedKept := Attained.called (.collect [⟨3, by decide⟩]) attainedFull rootLive
  have attainedReused := Attained.called (.literal 3) attainedKept (noEdges 3 _)
  have keptLive : ((Call.collect [⟨3, by decide⟩]).leaves full).store.Live ⟨3, by decide⟩ := by
    obtain ⟨kept, collects, collected⟩ := collect_spec attainedFull.sound rootLive
    rw [Call.leaves_of_ok (bind_ok collects)]
    exact collected.live (Store.mem_below_of_mem List.mem_cons_self) live
  have grows := Call.leaves_of_builds attainedKept.sound (noEdges 3 _) trivial
  have reusedLive := grows.live keptLive
  obtain ⟨count, sized, sizes, stored⟩ := size_remembers attainedReused.sound reusedLive
  have attainedSized : Attained ⟨2, 1, 1⟩ sized :=
    @Call.leaves_of_ok _ _ (.size ⟨3, by decide⟩) _ (bind_ok sizes) ▸
      .called _ attainedReused (List.forall_mem_singleton.mpr reusedLive)
  exact ⟨manager, full, _, count, sized, run, rfl, sizes, stored, attained_cachesRight attainedSized⟩

end DecisionDiagram.Manager
