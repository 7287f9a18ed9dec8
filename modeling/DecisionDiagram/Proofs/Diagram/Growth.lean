import DecisionDiagram.Proofs.Diagram.Reach

/-!
# Functions that survive a change of the store

The slots below an edge determine its function: where two canonical stores agree on them, the edge
means the same in both (`denote_eq_of_agree`). A store that only grows keeps every function in it,
and it stays canonical when a new node is put in.
-/

set_option autoImplicit false

namespace DecisionDiagram.Store

/-- `after` holds what `before` holds in all slots below the edge. -/
def AgreeBelow (before after : Store Node) (edge : Edge) : Prop :=
  ∀ index, before.Reaches edge.index index → after.contents index = before.contents index

section

variable {before after : Store Node} {edge : Edge}

theorem AgreeBelow.reaches_iff (agree : before.AgreeBelow after edge) (index : Nat) :
    after.Reaches edge.index index ↔ before.Reaches edge.index index := by
  constructor
  · intro reaches
    induction reaches with
    | refl => exact Relation.ReflTransGen.refl
    | tail _ follows ih =>
      obtain ⟨node, held, side⟩ := follows
      rw [agree _ ih] at held
      exact ih.tail ⟨node, held, side⟩
  · intro reaches
    induction reaches with
    | refl => exact Relation.ReflTransGen.refl
    | @tail parent child first follows ih =>
      obtain ⟨node, held, side⟩ := follows
      rw [← agree parent first] at held
      exact ih.tail ⟨node, held, side⟩

theorem AgreeBelow.trans {last : Store Node} (first : before.AgreeBelow after edge)
    (second : after.AgreeBelow last edge) : before.AgreeBelow last edge := fun index reaches =>
  (second index ((first.reaches_iff index).mpr reaches)).trans (first index reaches)

theorem AgreeBelow.follow {node : Node} (agree : before.AgreeBelow after edge)
    (held : before.contents edge.index = some node) (valuation : Valuation) :
    before.AgreeBelow after (node.follow valuation) := fun index reaches =>
  agree index (Relation.ReflTransGen.head (child_follow held valuation) reaches)

theorem Canonical.denote_eq_of_agree (canonical : before.Canonical) (other : after.Canonical)
    (agree : before.AgreeBelow after edge) (live : before.Live edge) :
    after.denote edge = before.denote edge := by
  funext valuation
  -- the induction is on a bound of the rank, for all edges at once
  suffices ranked : ∀ fuel edge, before.AgreeBelow after edge → before.Live edge →
      before.rank edge.index ≤ fuel → after.denote edge valuation = before.denote edge valuation from
    ranked _ edge agree live (Nat.le_refl _)
  intro fuel
  induction fuel with
  | zero =>
    rintro edge agree ⟨node, held⟩ small
    by_cases terminal : edge.index = 1
    · simp only [denote, terminal, canonical.slotValue_terminal, other.slotValue_terminal]
    · have := rank_lt_of_from held terminal (canonical.normal _ node held terminal).high_from
      omega
  | succ fuel ih =>
    rintro edge agree ⟨node, held⟩ small
    by_cases terminal : edge.index = 1
    · simp only [denote, terminal, canonical.slotValue_terminal, other.slotValue_terminal]
    · have above := (canonical.normal _ node held terminal).follow_from valuation
      have lower := rank_lt_of_from held terminal above
      have heldAfter : after.contents edge.index = some node := by
        rw [agree _ Relation.ReflTransGen.refl, held]
      rw [canonical.denote_follow held, other.denote_follow heldAfter,
        ih _ (agree.follow held valuation) above.live (by omega)]

end

/-! ## Growing stores -/

namespace Extends

variable {before after : Store Node} {edge : Edge}

theorem live (grows : before.Extends after) (live : before.Live edge) : after.Live edge := by
  obtain ⟨node, held⟩ := live
  exact ⟨node, grows.contents _ node held⟩

theorem from_mono (grows : before.Extends after) {bound : Nat} (above : before.From bound edge) :
    after.From bound edge := by
  obtain ⟨node, held, tests⟩ := above
  exact ⟨node, grows.contents _ node held, tests⟩

theorem normal {node : Node} (grows : before.Extends after) (normal : before.Normal node) :
    after.Normal node :=
  { normal with
    low_from := grows.from_mono normal.low_from
    high_from := grows.from_mono normal.high_from }

theorem agreeBelow (grows : before.Extends after) (canonical : before.Canonical)
    (live : before.Live edge) : before.AgreeBelow after edge := by
  intro index reaches
  obtain ⟨top, held⟩ := live
  obtain ⟨node, below⟩ := canonical.reaches_live held reaches
  rw [below]
  exact grows.contents index node below

theorem denote_eq (grows : before.Extends after) (canonical : before.Canonical)
    (other : after.Canonical) (live : before.Live edge) : after.denote edge = before.denote edge :=
  canonical.denote_eq_of_agree other (grows.agreeBelow canonical live) live

theorem represents {function : BoolFunction} (grows : before.Extends after)
    (canonical : before.Canonical) (other : after.Canonical)
    (represents : before.Represents edge function) : after.Represents edge function :=
  ⟨grows.live represents.live,
    (grows.denote_eq canonical other represents.live).trans represents.denote_eq⟩

end Extends

/-- A store with one more node in normal form, not stored before, is canonical. -/
theorem Canonical.inserted {before after : Store Node} {index : Nat} {node : Node}
    (canonical : before.Canonical) (lowest : before.LowestFree index)
    (normal : before.Normal node)
    (absent : ∀ other, other ∉ ({1} : Set Nat) → before.contents other ≠ some node)
    (inserted : before.Inserted index node after) : after.Canonical := by
  have grows := inserted.extends lowest.free
  have apart : index ≠ 1 := by
    intro same
    have free := lowest.free
    rw [same, canonical.terminal] at free
    cases free
  refine ⟨inserted.allotted,
    canonical.threaded.inserted lowest apart (lacks_iff.mpr absent) inserted, ?_, ?_, ?_⟩
  · exact grows.contents 1 _ canonical.terminal
  · intro other stored held inner
    rw [inserted.contents] at held
    by_cases same : other = index
    · rw [same, Function.update_self] at held
      rw [← Option.some.inj held]
      exact grows.normal normal
    · rw [Function.update_of_ne same] at held
      exact grows.normal (canonical.normal other stored held inner)
  · rw [inserted.capacity]
    exact canonical.capacity_le

end DecisionDiagram.Store
