import DecisionDiagram.Proofs.Manager.ModelCount
import DecisionDiagram.Proofs.Manager.Reach
import DecisionDiagram.Proofs.Manager.Run
import DecisionDiagram.Proofs.Manager.Unfold

/-!
# Answers depend on the function alone

Managers that were led to a function in different ways hold it in different slots, in chains of a
different order and with other things remembered. What they answer about the function is the same: its
tree, its size, a model of it, and how many models there are, for every number of variables.
-/

set_option autoImplicit false

namespace DecisionDiagram.Manager

/-- What one manager answers about an edge the other one answers about its own. -/
structure SameAnswers (first : Manager) (edge : Edge) (second : Manager) (other : Edge) : Prop where
  tree : ∃ tree, first.tree edge = .ok tree ∧ second.tree other = .ok tree
  text : Tree.text <$> first.tree edge = Tree.text <$> second.tree other
  size : ∃ count after later, Manager.size edge first = .ok count after ∧
    Manager.size other second = .ok count later
  model : ∀ count, first.model? edge count = second.model? other count
  modelCount : ∀ count, ∃ models, first.modelCount edge count = .ok models ∧
    second.modelCount other count = .ok models

variable {first second : Manager} {edge other : Edge} {function : BoolFunction}

/-- Two edges of one function. -/
theorem sameAnswers_of_represents (sound : first.Sound) (otherSound : second.Sound)
    (represents : first.store.Represents edge function)
    (otherRepresents : second.store.Represents other function) :
    SameAnswers first edge second other := by
  have canonical := sound.canonical
  have otherCanonical := otherSound.canonical
  obtain ⟨tree, isTree, unfolds⟩ := tree_spec canonical represents
  obtain ⟨again, isAgain, unfoldsAgain⟩ := tree_spec otherCanonical otherRepresents
  obtain rfl := unfolds.unique unfoldsAgain
  obtain ⟨after, sized⟩ := size_eq_ok sound represents.live
  obtain ⟨later, otherSized⟩ := size_eq_ok otherSound otherRepresents.live
  rw [represents.ncard_below canonical] at sized
  rw [otherRepresents.ncard_below otherCanonical] at otherSized
  refine ⟨⟨tree, isTree, isAgain⟩, by rw [isTree, isAgain], ⟨_, after, later, sized, otherSized⟩,
    fun count => ?_, fun count => ?_⟩
  · rw [model?_eq canonical count unfolds represents,
      model?_eq otherCanonical count unfolds otherRepresents]
  · obtain ⟨share, counted, shares⟩ := modelCount_shares canonical represents count
    obtain ⟨same, otherCounted, otherShares⟩ := modelCount_shares otherCanonical otherRepresents count
    obtain rfl := shares.unique otherShares
    exact ⟨share, counted, otherCounted⟩

/-- **Answers depend on the function, not on the history.** Two managers, each after any run of its own
and whatever their configurations are, give the same answers about edges of the same function. -/
theorem attained_sameAnswers {config otherConfig : Config} (attained : Attained config first)
    (otherAttained : Attained otherConfig second) (live : first.store.Live edge)
    (otherLive : second.store.Live other) (same : SameFunction first edge second other) :
    SameAnswers first edge second other := by
  have equal := (sameFunction_iff attained.sound.canonical otherAttained.sound.canonical live
    otherLive).mp same
  exact sameAnswers_of_represents attained.sound otherAttained.sound live.represents
    ⟨otherLive, equal.symm⟩

/-- A conjunction that was made of its second literal, and one that was made after both. -/
theorem sameAnswers_of_conjunctions : ∃ first second, Attained ⟨3, 2, 2⟩ first ∧
    Attained ⟨4, 1, 3⟩ second ∧ SameFunction first ⟨3, by decide⟩ second ⟨4, by decide⟩ ∧
      SameAnswers first ⟨3, by decide⟩ second ⟨4, by decide⟩ := by
  have literal : ∀ {config : Config} (number : Int) {manager : Manager}, Attained config manager →
      Attained config ((Call.literal number).leaves manager) := fun number _ attained =>
    .called (.literal number) attained fun _ member => absurd member List.not_mem_nil
  have conjunction : ∀ {config : Config} {manager : Manager} (high : Edge), Attained config manager →
      manager.store.Live high → Attained config ((Call.node 1 .zero high).leaves manager) :=
    fun high attained live => .called (.node 1 .zero high) attained
      (List.forall_mem_cons.mpr ⟨attained.sound.canonical.live_zero, List.forall_mem_singleton.mpr live⟩)
  have function : ∀ {store : Store Node} (high edge : Edge), store.Canonical →
      store.contents high.index = some ⟨2, .zero, .one⟩ → high.isNegated = false →
      store.contents edge.index = some ⟨1, .zero, high⟩ → edge.isNegated = false →
      store.Represents edge (branch 1 (branch 2 (fun _ => true) fun _ => false) fun _ => false) :=
    fun _ _ canonical highHeld highRegular held regular =>
      canonical.represents_branch held regular
        (canonical.represents_branch highHeld highRegular canonical.represents_one
          canonical.represents_zero) canonical.represents_zero
  have attained : ∃ first, Attained ⟨3, 2, 2⟩ first ∧
      first.store.contents 2 = some ⟨2, .zero, .one⟩ ∧
      first.store.contents 3 = some ⟨1, .zero, ⟨2, by decide⟩⟩ :=
    ⟨_, conjunction ⟨2, by decide⟩ (literal 2 (.created rfl)) ⟨⟨2, .zero, .one⟩, by decide +kernel⟩,
      by decide +kernel, by decide +kernel⟩
  have otherAttained : ∃ second, Attained ⟨4, 1, 3⟩ second ∧
      second.store.contents 3 = some ⟨2, .zero, .one⟩ ∧
      second.store.contents 4 = some ⟨1, .zero, ⟨3, by decide⟩⟩ :=
    ⟨_, conjunction ⟨3, by decide⟩ (literal 2 (literal 1 (.created rfl)))
      ⟨⟨2, .zero, .one⟩, by decide +kernel⟩, by decide +kernel, by decide +kernel⟩
  obtain ⟨first, attained, highHeld, held⟩ := attained
  obtain ⟨second, otherAttained, otherHighHeld, otherHeld⟩ := otherAttained
  have canonical := attained.sound.canonical
  have otherCanonical := otherAttained.sound.canonical
  have represents := function ⟨2, by decide⟩ ⟨3, by decide⟩ canonical highHeld rfl held rfl
  have otherRepresents := function ⟨3, by decide⟩ ⟨4, by decide⟩ otherCanonical otherHighHeld rfl
    otherHeld rfl
  have same := (sameFunction_iff canonical otherCanonical represents.live otherRepresents.live).mpr
    (represents.denote_eq.trans otherRepresents.denote_eq.symm)
  exact ⟨first, second, attained, otherAttained, same,
    attained_sameAnswers attained otherAttained represents.live otherRepresents.live same⟩

end DecisionDiagram.Manager
