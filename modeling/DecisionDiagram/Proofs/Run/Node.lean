import DecisionDiagram.Proofs.Run.Yields

/-!
# All outcomes of building a node

In every state of every run, building a node is refused for exactly two reasons, the variable zero
and different children of which one does not test a later variable. Otherwise the node is not needed,
is found, is stored in the lowest free slot, or does not fit. Only when it is stored does anything
change.
-/

set_option autoImplicit false

namespace DecisionDiagram

/-- The variable is zero, or the children differ and one of them does not test a later variable. -/
def Store.Misplaced (store : Store Node) (var : Nat) (low high : Edge) : Prop :=
  var = 0 ∨ low ≠ high ∧ ∃ child ∈ [low, high], child.index ≠ 1 ∧
    ∃ node, store.contents child.index = some node ∧ node.var ≤ var

namespace Manager

variable {manager before : Manager} {low high child : Edge} {var : Nat}

/-- The node that is asked for. The sign of the high edge is taken off both edges. -/
def wanted (var : Nat) (low high : Edge) : Node :=
  ⟨var, low.flip high.isNegated, high.flip high.isNegated⟩

/-- What building a node comes to. The sign taken off the high edge is put on the result. -/
structure BuildsNode (before : Manager) (var : Nat) (low high : Edge) : Prop where
  /-- A full store is the only other fault. -/
  refuses : (∃ fault after, (∀ capacity, fault ≠ .storageFull capacity) ∧
    node var low high before = .error fault after) ↔ before.store.Misplaced var low high
  unchanged : ∀ fault after, node var low high before = .error fault after → after = before
  skips : ¬before.store.Misplaced var low high → low = high →
    node var low high before = .ok low before
  finds : ¬before.store.Misplaced var low high → low ≠ high → ∀ index,
    before.store.contents index = some (wanted var low high) →
      ∃ edge, edge.index = index ∧ edge.isNegated = high.isNegated ∧
        node var low high before = .ok edge before
  stores : ¬before.store.Misplaced var low high → low ≠ high →
    (∀ index, before.store.contents index ≠ some (wanted var low high)) → ¬before.store.Full →
      ∃ edge store, before.store.LowestFree edge.index ∧ edge.isNegated = high.isNegated ∧
        before.store.Inserted edge.index (wanted var low high) store ∧
          node var low high before = .ok edge { before with store := store }
  runsOut : ¬before.store.Misplaced var low high → low ≠ high →
    (∀ index, before.store.contents index ≠ some (wanted var low high)) → before.store.Full →
      node var low high before = .error (.storageFull before.store.capacity) before
  denotes : ∀ result after, node var low high before = .ok result after →
    after.store.Represents result
      (branch var (before.store.denote high) (before.store.denote low))
  /-- An assignment that covers the children and the variable gives the result the value of the
  chosen child. -/
  value : ∀ result after, node var low high before = .ok result after → ∀ assignment,
    Covers before.store assignment low → Covers before.store assignment high →
      var ≤ assignment.length → ∃ value,
        before.value (if valuationOf assignment var then high else low) assignment = .ok value ∧
          after.value result assignment = .ok value

/-! ## The check of the order -/

theorem not_from_iff (live : manager.store.Live child) :
    ¬manager.store.From (var + 1) child ↔ child.index ≠ 1 ∧
      ∃ node, manager.store.contents child.index = some node ∧ node.var ≤ var := by
  obtain ⟨node, held⟩ := live
  constructor
  · intro early
    have inner : child.index ≠ 1 := fun terminal => early ⟨node, held, Or.inl terminal⟩
    refine ⟨inner, node, held, Nat.not_lt.mp fun later => early ⟨node, held, Or.inr later⟩⟩
  · rintro ⟨inner, stored, isStored, early⟩ ⟨same, isSame, tests⟩
    rw [isStored] at isSame
    cases isSame
    exact tests.elim inner (Nat.not_le.mpr (Nat.lt_succ_of_le early))

theorem misplaced_iff (lowLive : manager.store.Live low) (highLive : manager.store.Live high)
    (positive : var ≠ 0) (different : low ≠ high) :
    manager.store.Misplaced var low high ↔
      ¬(manager.store.From (var + 1) low ∧ manager.store.From (var + 1) high) := by
  rw [Classical.not_and_iff_not_or_not, not_from_iff lowLive, not_from_iff highLive]
  simp [Store.Misplaced, positive, different]

/-- A child that comes too early is a fault, whichever it is. -/
theorem regularNode_refuses (canonical : manager.store.Canonical) (lowLive : manager.store.Live low)
    (highLive : manager.store.Live high) (different : low ≠ high)
    (early : ¬(manager.store.From (var + 1) low ∧ manager.store.From (var + 1) high)) :
    ∃ child top, regularNode var low high manager =
      .error (.orderViolated child top var) manager := by
  have fails : ∀ {child : Edge}, manager.store.Live child → ¬manager.store.From (var + 1) child →
      ∃ top, ask (·.checkOrder var child) manager =
        .error (.orderViolated child top var) manager := by
    intro child live early
    rw [← checkOrder_eq_ok_iff canonical live] at early
    obtain ⟨node, held⟩ := live
    rw [checkOrder_eq held] at early
    exact ⟨node.var,
      ask_error ((checkOrder_eq held).trans (if_neg fun later => early (if_pos later)))⟩
  unfold regularNode
  rw [if_neg different]
  by_cases lowLater : manager.store.From (var + 1) low
  · obtain ⟨top, failed⟩ := fails highLive fun highLater => early ⟨lowLater, highLater⟩
    rw [bind_ok (ask_ok ((checkOrder_eq_ok_iff canonical lowLive).mpr lowLater))]
    exact ⟨high, top, bind_error failed⟩
  · obtain ⟨top, failed⟩ := fails lowLive lowLater
    exact ⟨low, top, bind_error failed⟩

/-- Where both children test later variables, the node is looked up. -/
theorem regularNode_eq (canonical : manager.store.Canonical) (different : low ≠ high)
    (lowLater : manager.store.From (var + 1) low) (highLater : manager.store.From (var + 1) high) :
    regularNode var low high manager =
      (onStore (Store.put ⟨var, low, high⟩) >>= fun index => liftM (Edge.positive index))
        manager := by
  unfold regularNode
  rw [if_neg different,
    bind_ok (ask_ok ((checkOrder_eq_ok_iff canonical lowLater.live).mpr lowLater)),
    bind_ok (ask_ok ((checkOrder_eq_ok_iff canonical highLater.live).mpr highLater))]

/-! ## The sign -/

theorem node_eq (canonical : manager.store.Canonical) (lowLive : manager.store.Live low)
    (highLive : manager.store.Live high) (positive : var ≠ 0) :
    node var low high manager =
      (regularNode var (low.flip high.isNegated) (high.flip high.isNegated) >>= fun edge =>
        liftM (edge.negateIf high.isNegated)) manager := by
  unfold node
  rw [if_neg positive]
  cases negated : high.isNegated with
  | false =>
    show regularNode var low high manager = _
    cases run : regularNode var low high manager with
    | ok edge after => exact (bind_ok run).symm
    | error fault after => exact (bind_error run).symm
  | true =>
    -- edges in use are far from the one number without a negation
    rw [if_pos rfl]
    refine (bind_ok (read_ok (canonical.negate_eq_ok lowLive) manager)).trans ?_
    exact bind_ok (read_ok (canonical.negate_eq_ok highLive) manager)

theorem node_refuses (canonical : manager.store.Canonical) (lowLive : manager.store.Live low)
    (highLive : manager.store.Live high) (misplaced : manager.store.Misplaced var low high) :
    ∃ fault, (∀ capacity, fault ≠ .storageFull capacity) ∧
      node var low high manager = .error fault manager := by
  by_cases zero : var = 0
  · refine ⟨.zeroVariable, fun _ same => (nomatch same), ?_⟩
    unfold node
    rw [if_pos zero]
    rfl
  have different : low ≠ high := (misplaced.resolve_left zero).1
  rw [misplaced_iff lowLive highLive zero different] at misplaced
  have early : ¬(manager.store.From (var + 1) (low.flip high.isNegated) ∧
      manager.store.From (var + 1) (high.flip high.isNegated)) := by
    rintro ⟨lowLater, highLater⟩
    have lowBack := lowLater.flip high.isNegated
    have highBack := highLater.flip high.isNegated
    rw [Edge.flip_flip] at lowBack highBack
    exact misplaced ⟨lowBack, highBack⟩
  obtain ⟨child, top, failed⟩ := regularNode_refuses canonical (Store.live_flip.mpr lowLive)
    (Store.live_flip.mpr highLive) (mt Edge.flip_inj.mp different) early
  refine ⟨.orderViolated child top var, fun _ same => (nomatch same), ?_⟩
  rw [node_eq canonical lowLive highLive zero, bind_error failed]

theorem node_skips (canonical : manager.store.Canonical) (live : manager.store.Live low)
    (positive : var ≠ 0) : node var low low manager = .ok low manager := by
  have skipped : regularNode var (low.flip low.isNegated) (low.flip low.isNegated) manager =
      .ok (low.flip low.isNegated) manager := by
    unfold regularNode
    rw [if_pos rfl]
    rfl
  rw [node_eq canonical live live positive, bind_ok skipped,
    read_ok (canonical.negateIf_eq_ok (Store.live_flip.mpr live) _), Edge.flip_flip]

/-! ## Looking a node up -/

/-- A node that may be asked for: its children differ and test later variables. -/
structure WellPlaced (store : Store Node) (var : Nat) (low high : Edge) : Prop where
  positive : var ≠ 0
  different : low ≠ high
  lowLater : store.From (var + 1) low
  highLater : store.From (var + 1) high

theorem wellPlaced_of_not_misplaced (lowLive : manager.store.Live low)
    (highLive : manager.store.Live high) (placed : ¬manager.store.Misplaced var low high)
    (different : low ≠ high) : WellPlaced manager.store var low high := by
  have positive : var ≠ 0 := fun zero => placed (Or.inl zero)
  rw [misplaced_iff lowLive highLive positive different, not_not] at placed
  exact ⟨positive, different, placed.1, placed.2⟩

namespace WellPlaced

variable {store : Store Node}

theorem normal (placed : WellPlaced store var low high) : store.Normal (wanted var low high) where
  var_pos := Nat.pos_of_ne_zero placed.positive
  high_regular := by
    unfold wanted
    rw [Edge.isNegated_flip, Bool.xor_self]
  low_ne_high := mt Edge.flip_inj.mp placed.different
  low_from := placed.lowLater.flip _
  high_from := placed.highLater.flip _

theorem regularNode_eq_put (placed : WellPlaced manager.store var low high)
    (canonical : manager.store.Canonical) :
    regularNode var (low.flip high.isNegated) (high.flip high.isNegated) manager =
      (onStore (Store.put (wanted var low high)) >>= fun index => liftM (Edge.positive index))
        manager :=
  regularNode_eq canonical placed.normal.low_ne_high placed.normal.low_from placed.normal.high_from

theorem node_of_put (placed : WellPlaced manager.store var low high)
    (canonical : manager.store.Canonical) {index : Nat} {after : Store Node}
    (afterCanonical : after.Canonical)
    (run : Store.put (wanted var low high) manager.store = .ok index after)
    (held : after.contents index = some (wanted var low high)) :
    ∃ edge, edge.index = index ∧ edge.isNegated = high.isNegated ∧
      node var low high manager = .ok edge { manager with store := after } := by
  obtain ⟨edge, made, rfl, plain⟩ := positive_spec afterCanonical held
  have regular : regularNode var (low.flip high.isNegated) (high.flip high.isNegated) manager =
      .ok edge { manager with store := after } := by
    rw [placed.regularNode_eq_put canonical, bind_ok (onStore_ok run), read_ok made]
  refine ⟨edge.flip high.isNegated, Edge.index_flip _ _, ?_, ?_⟩
  · rw [Edge.isNegated_flip, plain, Bool.xor_false]
  · rw [node_eq canonical placed.lowLater.live placed.highLater.live placed.positive,
      bind_ok regular, read_ok (afterCanonical.negateIf_eq_ok ⟨_, held⟩ _)]

theorem node_of_put_error (placed : WellPlaced manager.store var low high)
    (canonical : manager.store.Canonical) {fault : Fault}
    (run : Store.put (wanted var low high) manager.store = .error fault manager.store) :
    node var low high manager = .error fault manager := by
  have regular : regularNode var (low.flip high.isNegated) (high.flip high.isNegated) manager =
      .error fault manager := by
    rw [placed.regularNode_eq_put canonical, bind_error (onStore_error run)]
  rw [node_eq canonical placed.lowLater.live placed.highLater.live placed.positive,
    bind_error regular]

theorem node_finds (placed : WellPlaced manager.store var low high)
    (canonical : manager.store.Canonical) {index : Nat}
    (held : manager.store.contents index = some (wanted var low high)) :
    ∃ edge, edge.index = index ∧ edge.isNegated = high.isNegated ∧
      node var low high manager = .ok edge manager := by
  -- the terminal lies in no bucket, but it tests no variable either
  have tight : index ∉ ({1} : Set Nat) := by
    rintro rfl
    rw [canonical.terminal] at held
    exact placed.positive (congrArg Node.var (Option.some.inj held)).symm
  have found := canonical.threaded.put_found canonical.allotted tight held (beq_self_eq_true _)
  exact placed.node_of_put canonical canonical found held

theorem node_stores (placed : WellPlaced manager.store var low high)
    (canonical : manager.store.Canonical)
    (absent : ∀ index, manager.store.contents index ≠ some (wanted var low high))
    (notFull : ¬manager.store.Full) :
    ∃ edge store, manager.store.LowestFree edge.index ∧ edge.isNegated = high.isNegated ∧
      manager.store.Inserted edge.index (wanted var low high) store ∧
        node var low high manager = .ok edge { manager with store := store } := by
  have missing : ∀ other, other ∉ ({1} : Set Nat) →
      manager.store.contents other ≠ some (wanted var low high) := fun other _ => absent other
  have space := not_not.mp (mt canonical.allotted.full notFull)
  obtain ⟨store, run, inserted⟩ :=
    canonical.threaded.put_new canonical.allotted (Store.lacks_iff.mpr missing) space
  have lowest := canonical.allotted.lowestFree space
  have storeCanonical := canonical.inserted lowest placed.normal missing inserted
  have held : store.contents manager.store.firstFree = some (wanted var low high) := by
    rw [inserted.contents, Function.update_self]
  obtain ⟨edge, isLowest, sign, returns⟩ := placed.node_of_put canonical storeCanonical run held
  rw [← isLowest] at lowest inserted
  exact ⟨edge, store, lowest, sign, inserted, returns⟩

theorem node_runsOut (placed : WellPlaced manager.store var low high)
    (canonical : manager.store.Canonical)
    (absent : ∀ index, manager.store.contents index ≠ some (wanted var low high))
    (full : manager.store.Full) :
    node var low high manager = .error (.storageFull manager.store.capacity) manager :=
  placed.node_of_put_error canonical (canonical.threaded.put_full canonical.allotted
    (Store.lacks_iff.mpr fun other _ => absent other) (canonical.allotted.full_iff.mp full))

end WellPlaced

/-! ## Every outcome -/

/-- A call that faults is refused, or the node does not fit. -/
theorem node_error (canonical : manager.store.Canonical) (lowLive : manager.store.Live low)
    (highLive : manager.store.Live high) {fault : Fault} {after : Manager}
    (failed : node var low high manager = .error fault after) :
    after = manager ∧ ((∀ capacity, fault ≠ .storageFull capacity) →
      manager.store.Misplaced var low high) := by
  by_cases misplaced : manager.store.Misplaced var low high
  · obtain ⟨other, _, refused⟩ := node_refuses canonical lowLive highLive misplaced
    rw [refused] at failed
    cases failed
    exact ⟨rfl, fun _ => misplaced⟩
  by_cases same : low = high
  · subst same
    rw [node_skips canonical lowLive fun zero => misplaced (Or.inl zero)] at failed
    cases failed
  have placed := wellPlaced_of_not_misplaced lowLive highLive misplaced same
  by_cases stored : ∃ index, manager.store.contents index = some (wanted var low high)
  · obtain ⟨index, held⟩ := stored
    obtain ⟨edge, _, _, returns⟩ := placed.node_finds canonical held
    rw [returns] at failed
    cases failed
  have absent := not_exists.mp stored
  by_cases full : manager.store.Full
  · rw [placed.node_runsOut canonical absent full] at failed
    cases failed
    exact ⟨rfl, fun other => absurd rfl (other _)⟩
  · obtain ⟨edge, store, _, _, _, returns⟩ := placed.node_stores canonical absent full
    rw [returns] at failed
    cases failed

theorem node_represents (sound : manager.Sound) (lowLive : manager.store.Live low)
    (highLive : manager.store.Live high) {result : Edge} {after : Manager}
    (returned : node var low high manager = .ok result after) :
    manager.GrowsTo after ∧ after.store.Represents result
      (branch var (manager.store.denote high) (manager.store.denote low)) := by
  have live : ∀ edge ∈ [low, high], manager.store.Live edge :=
    List.forall_mem_cons.mpr ⟨lowLive, List.forall_mem_singleton.mpr highLive⟩
  obtain ⟨grows, edge, isEdge, done⟩ :=
    @Instruction.done_of_returned (.node var low high) _ _ _ sound live (bind_ok returned)
  cases isEdge
  exact ⟨grows, done.represents⟩

/-- The value of the result is that of the child that the variable chooses. -/
theorem value_of_node (sound : manager.Sound) (lowLive : manager.store.Live low)
    (highLive : manager.store.Live high) {result : Edge} {after : Manager}
    (returned : node var low high manager = .ok result after) {assignment : List Bool}
    (covers : Covers manager.store assignment low)
    (highCovers : Covers manager.store assignment high)
    (inside : var ≤ assignment.length) : ∃ value,
      manager.value (if valuationOf assignment var then high else low) assignment = .ok value ∧
        after.value result assignment = .ok value := by
  obtain ⟨grows, represents⟩ := node_represents sound lowLive highLive returned
  have canonical := sound.canonical
  have depends := (covers_iff_dependsOn canonical lowLive.represents).mp covers
  have dependsHigh := (covers_iff_dependsOn canonical highLive.represents).mp highCovers
  have onBranch : DependsOn
      (branch var (manager.store.denote high) (manager.store.denote low))
      {var | var ≤ assignment.length} := by
    intro first second agree
    unfold branch
    rw [agree var inside, depends agree, dependsHigh agree]
  refine ⟨_, ?_, value_of_dependsOn grows.sound.canonical represents onBranch⟩
  unfold branch
  split
  · exact value_spec canonical highLive.represents highCovers
  · exact value_spec canonical lowLive.represents covers

/-- **Every outcome of the node constructor.** -/
theorem attained_buildsNode {config : Config} (attained : Attained config manager)
    (lowLive : manager.store.Live low) (highLive : manager.store.Live high) (var : Nat) :
    BuildsNode manager var low high := by
  have sound := attained.sound
  have canonical := sound.canonical
  have wellPlaced : ¬manager.store.Misplaced var low high → low ≠ high →
      WellPlaced manager.store var low high := wellPlaced_of_not_misplaced lowLive highLive
  exact
    { refuses := by
        constructor
        · rintro ⟨fault, after, other, failed⟩
          exact (node_error canonical lowLive highLive failed).2 other
        · intro misplaced
          obtain ⟨fault, other, refused⟩ := node_refuses canonical lowLive highLive misplaced
          exact ⟨fault, manager, other, refused⟩
      unchanged := fun _ _ failed => (node_error canonical lowLive highLive failed).1
      skips := by
        rintro placed rfl
        exact node_skips canonical lowLive fun zero => placed (Or.inl zero)
      finds := fun placed different _ held =>
        (wellPlaced placed different).node_finds canonical held
      stores := fun placed different => (wellPlaced placed different).node_stores canonical
      runsOut := fun placed different => (wellPlaced placed different).node_runsOut canonical
      denotes := fun _ _ returned => (node_represents sound lowLive highLive returned).2
      value := fun _ _ returned _ => value_of_node sound lowLive highLive returned }

/-- The exclusive or of two variables has a complemented high edge, and its node is not stored yet. -/
theorem buildsNode_of_xor : Attained ⟨3, 1, 1⟩ twoVariables ∧
    BuildsNode twoVariables 1 ⟨2, by decide⟩ ⟨-2, by decide⟩ ∧
    ∃ edge store, twoVariables.store.LowestFree edge.index ∧ edge.isNegated = true ∧
      twoVariables.store.Inserted edge.index ⟨1, ⟨-2, by decide⟩, ⟨2, by decide⟩⟩ store ∧
        node 1 ⟨2, by decide⟩ ⟨-2, by decide⟩ twoVariables =
          .ok edge { twoVariables with store := store } := by
  have live := live_twoVariables.1
  have opposite : twoVariables.store.Live ⟨-2, by decide⟩ := Store.live_neg.mpr live
  have builds := attained_buildsNode attained_twoVariables live opposite 1
  have placed : ¬twoVariables.store.Misplaced 1 ⟨2, by decide⟩ ⟨-2, by decide⟩ := by
    rw [misplaced_iff live opposite (by decide) (by decide), not_not]
    exact ⟨⟨⟨2, .zero, .one⟩, rfl, by decide⟩, ⟨2, .zero, .one⟩, rfl, by decide⟩
  have absent : ∀ index, twoVariables.store.contents index ≠
      some (wanted 1 ⟨2, by decide⟩ ⟨-2, by decide⟩) := by
    intro index held
    have inSlots : ∀ index < 8, twoVariables.store.contents index ≠
        some (wanted 1 ⟨2, by decide⟩ ⟨-2, by decide⟩) := by decide +kernel
    exact inSlots index (Store.lt_capacity_of_contents held) held
  have notFull : ¬twoVariables.store.Full := by
    intro full
    obtain ⟨value, held⟩ := full 4 (by decide) (by decide)
    cases held
  exact ⟨attained_twoVariables, builds, builds.stores placed (by decide) absent notFull⟩

end Manager

end DecisionDiagram
