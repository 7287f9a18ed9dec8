import DecisionDiagram.Node
import DecisionDiagram.Proofs.Diagram.BoolFunction
import DecisionDiagram.Proofs.Store.UniqueTable

/-!
# Diagrams and what their edges stand for

`Canonical` collects what is true of a store of nodes at all times: its bookkeeping, its unique
table, and the shape of its nodes. The variables grow along every path, so a walk down a diagram
ends; `rank` bounds its length by the number of variables from the top variable on.

`denote` is the function of an edge. It walks down with as many steps as there are slots, which the
ranks show to be enough (`denote_follow`), and `Represents` says that an edge stands for a function.
-/

set_option autoImplicit false

namespace DecisionDiagram

/-- The child that a valuation selects. -/
def Node.follow (node : Node) (valuation : Valuation) : Edge :=
  if valuation node.var then node.high else node.low

namespace Store

/-- The edge points at a slot in use. -/
def Live (store : Store Node) (edge : Edge) : Prop :=
  ∃ node, store.contents edge.index = some node

/-- The edge points at a slot in use, and its node, unless it is the terminal, tests no variable
before `bound`. -/
def From (store : Store Node) (bound : Nat) (edge : Edge) : Prop :=
  ∃ node, store.contents edge.index = some node ∧ (edge.index = 1 ∨ bound ≤ node.var)

/-- The shape of a node: reduced, with a regular high edge, and above its children. -/
structure Normal (store : Store Node) (node : Node) : Prop where
  var_pos : 0 < node.var
  high_regular : node.high.isNegated = false
  low_ne_high : node.low ≠ node.high
  low_from : store.From (node.var + 1) node.low
  high_from : store.From (node.var + 1) node.high

structure Canonical (store : Store Node) : Prop where
  allotted : store.Allotted
  threaded : store.Threaded {1}
  terminal : store.contents 1 = some Node.terminal
  normal : ∀ index node, store.contents index = some node → index ≠ 1 → store.Normal node
  capacity_le : store.capacity ≤ 2 ^ 31

/-- The variables that are tested somewhere. -/
def testedVars (store : Store Node) : Finset Nat :=
  (store.liveSlots.erase 1).image fun index => (store.contents index).elim 0 Node.var

/-- How many variables can be met from a slot on. -/
def rank (store : Store Node) (index : Nat) : Nat :=
  match store.contents index with
  | some node => if index = 1 then 0 else (store.testedVars.filter (node.var ≤ ·)).card
  | none => 0

/-- The value of a slot's function, found within a number of steps. -/
def slotValue (store : Store Node) (valuation : Valuation) : Nat → Nat → Bool
  | 0, _ => true
  | fuel + 1, index =>
    match store.contents index with
    | none => true
    | some node =>
      (node.follow valuation).isNegated ^^
        slotValue store valuation fuel (node.follow valuation).index

/-- The function that an edge stands for. -/
def denote (store : Store Node) (edge : Edge) : BoolFunction := fun valuation =>
  edge.isNegated ^^ store.slotValue valuation store.capacity edge.index

structure Represents (store : Store Node) (edge : Edge) (function : BoolFunction) : Prop where
  live : store.Live edge
  denote_eq : store.denote edge = function

/-! ## Edges in use -/

theorem From.live {store : Store Node} {bound : Nat} {edge : Edge} (above : store.From bound edge) :
    store.Live edge := by
  obtain ⟨node, held, _⟩ := above
  exact ⟨node, held⟩

theorem From.mono {store : Store Node} {bound lower : Nat} {edge : Edge}
    (above : store.From bound edge) (atMost : lower ≤ bound) : store.From lower edge := by
  obtain ⟨node, held, tests⟩ := above
  exact ⟨node, held, tests.imp_right atMost.trans⟩

theorem live_neg {store : Store Node} {edge : Edge} : store.Live (-edge) ↔ store.Live edge := by
  unfold Live
  rw [Edge.index_neg]

theorem Normal.follow_from {store : Store Node} {node : Node} (normal : store.Normal node)
    (valuation : Valuation) : store.From (node.var + 1) (node.follow valuation) := by
  unfold Node.follow
  split
  · exact normal.high_from
  · exact normal.low_from

namespace Canonical

variable {store : Store Node}

theorem index_lt (canonical : store.Canonical) {edge : Edge} (live : store.Live edge) :
    edge.index < 2 ^ 31 := by
  obtain ⟨node, held⟩ := live
  exact Nat.lt_of_lt_of_le (lt_capacity_of_contents held) canonical.capacity_le

theorem live_one (canonical : store.Canonical) : store.Live .one :=
  ⟨Node.terminal, canonical.terminal⟩

theorem live_zero (canonical : store.Canonical) : store.Live .zero :=
  ⟨Node.terminal, canonical.terminal⟩

theorem var_eq_zero_iff (canonical : store.Canonical) {index : Nat} {node : Node}
    (held : store.contents index = some node) : node.var = 0 ↔ index = 1 := by
  constructor
  · intro zero
    by_contra inner
    have := (canonical.normal index node held inner).var_pos
    omega
  · rintro rfl
    rw [canonical.terminal] at held
    rw [← Option.some.inj held]
    rfl

/-- No two slots hold the same node, the terminal's included. -/
theorem distinct (canonical : store.Canonical) {first second : Nat} {node : Node}
    (firstHeld : store.contents first = some node) (secondHeld : store.contents second = some node) :
    first = second := by
  by_cases atFirst : first = 1
  · have zero := (canonical.var_eq_zero_iff firstHeld).mpr atFirst
    rw [atFirst, (canonical.var_eq_zero_iff secondHeld).mp zero]
  · by_cases atSecond : second = 1
    · have zero := (canonical.var_eq_zero_iff secondHeld).mpr atSecond
      exact absurd ((canonical.var_eq_zero_iff firstHeld).mp zero) atFirst
    · exact canonical.threaded.distinct first second node node atFirst atSecond firstHeld secondHeld
        (beq_self_eq_true node)

end Canonical

/-! ## Ranks -/

section

variable {store : Store Node} {index : Nat} {node : Node}

theorem mem_testedVars (held : store.contents index = some node) (inner : index ≠ 1) :
    node.var ∈ store.testedVars := by
  refine Finset.mem_image.mpr ⟨index, ?_, by rw [held]; rfl⟩
  exact Finset.mem_erase.mpr ⟨inner, mem_liveSlots.mpr ⟨node, held⟩⟩

theorem card_testedVars_le (allotted : store.Allotted) : store.testedVars.card ≤ store.lastUsed := by
  have inside : store.liveSlots.erase 1 ⊆ (Finset.range (store.lastUsed + 1)).erase 0 := by
    intro index member
    obtain ⟨value, held⟩ := mem_liveSlots.mp (Finset.mem_of_mem_erase member)
    have bound := allotted.free_above index value held
    exact Finset.mem_erase.mpr ⟨ne_zero_of_contents held, Finset.mem_range.mpr (by omega)⟩
  calc store.testedVars.card ≤ (store.liveSlots.erase 1).card := Finset.card_image_le
    _ ≤ ((Finset.range (store.lastUsed + 1)).erase 0).card := Finset.card_le_card inside
    _ = store.lastUsed := by
      rw [Finset.card_erase_of_mem (Finset.mem_range.mpr (Nat.succ_pos _)), Finset.card_range]
      rfl

theorem rank_le (store : Store Node) (index : Nat) : store.rank index ≤ store.testedVars.card := by
  unfold rank
  split
  · split
    · exact Nat.zero_le _
    · exact Finset.card_filter_le _ _
  · exact Nat.zero_le _

theorem rank_lt_of_from (held : store.contents index = some node) (inner : index ≠ 1) {edge : Edge}
    (above : store.From (node.var + 1) edge) : store.rank edge.index < store.rank index := by
  obtain ⟨child, childHeld, tests⟩ := above
  have here : node.var ∈ store.testedVars.filter (node.var ≤ ·) :=
    Finset.mem_filter.mpr ⟨mem_testedVars held inner, Nat.le_refl _⟩
  have positive := Finset.card_pos.mpr ⟨node.var, here⟩
  simp only [rank, held, childHeld, if_neg inner]
  by_cases terminal : edge.index = 1
  · rw [if_pos terminal]
    exact positive
  · rw [if_neg terminal]
    have later := tests.resolve_left terminal
    refine Finset.card_lt_card (Finset.ssubset_iff_subset_ne.mpr ⟨?_, ?_⟩)
    · intro var member
      obtain ⟨known, atLeast⟩ := Finset.mem_filter.mp member
      exact Finset.mem_filter.mpr ⟨known, by omega⟩
    · intro same
      rw [← same] at here
      have := (Finset.mem_filter.mp here).2
      omega

end

/-! ## The function of an edge -/

namespace Canonical

variable {store : Store Node} {edge : Edge} {index : Nat} {node : Node}

theorem slotValue_terminal (canonical : store.Canonical) (valuation : Valuation) (fuel : Nat) :
    store.slotValue valuation fuel 1 = true := by
  induction fuel with
  | zero => rfl
  | succ fuel ih =>
    have ends : Node.terminal.follow valuation = .one := by
      unfold Node.follow
      split <;> rfl
    simp only [slotValue, canonical.terminal, ends]
    show (false ^^ store.slotValue valuation fuel 1) = true
    rw [ih]
    rfl

theorem slotValue_succ (canonical : store.Canonical) (valuation : Valuation) {fuel : Nat}
    (held : store.contents index = some node) (enough : store.rank index ≤ fuel) :
    store.slotValue valuation (fuel + 1) index = store.slotValue valuation fuel index := by
  induction fuel generalizing index node with
  | zero =>
    by_cases terminal : index = 1
    · rw [terminal, canonical.slotValue_terminal, canonical.slotValue_terminal]
    · have normal := canonical.normal index node held terminal
      have := rank_lt_of_from held terminal normal.high_from
      omega
  | succ fuel ih =>
    by_cases terminal : index = 1
    · rw [terminal, canonical.slotValue_terminal, canonical.slotValue_terminal]
    · have above := (canonical.normal index node held terminal).follow_from valuation
      have lower := rank_lt_of_from held terminal above
      obtain ⟨child, childHeld, _⟩ := above
      have stable := ih childHeld (by omega)
      rw [slotValue]
      simp only [held]
      rw [stable]
      simp only [slotValue, held]

/-- A function is the function of the selected child, up to the sign of the edge. -/
theorem denote_follow (canonical : store.Canonical) (held : store.contents edge.index = some node)
    (valuation : Valuation) :
    store.denote edge valuation =
      (edge.isNegated ^^ store.denote (node.follow valuation) valuation) := by
  have bound := card_testedVars_le canonical.allotted
  have space := canonical.allotted.lastUsed_lt
  obtain ⟨fuel, size⟩ := Nat.exists_eq_succ_of_ne_zero (show store.capacity ≠ 0 by omega)
  by_cases terminal : edge.index = 1
  · rw [terminal, canonical.terminal] at held
    have ends : node.follow valuation = .one := by
      rw [← Option.some.inj held]
      unfold Node.follow
      split <;> rfl
    simp only [denote, ends, terminal]
    show (edge.isNegated ^^ store.slotValue valuation store.capacity 1) =
      (edge.isNegated ^^ (false ^^ store.slotValue valuation store.capacity 1))
    rw [canonical.slotValue_terminal, Bool.false_xor]
  · obtain ⟨child, childHeld, _⟩ :=
      (canonical.normal _ node held terminal).follow_from valuation
    have small := rank_le store (node.follow valuation).index
    have stable := canonical.slotValue_succ valuation childHeld
      (show store.rank (node.follow valuation).index ≤ fuel by omega)
    simp only [denote, size]
    rw [stable, slotValue]
    simp only [held]

theorem denote_one (canonical : store.Canonical) : store.denote .one = fun _ => true := by
  funext valuation
  show (false ^^ store.slotValue valuation store.capacity 1) = true
  rw [canonical.slotValue_terminal]
  rfl

end Canonical

theorem denote_neg (store : Store Node) (edge : Edge) :
    store.denote (-edge) = fun valuation => !store.denote edge valuation := by
  funext valuation
  simp only [denote, Edge.isNegated_neg, Edge.index_neg, Bool.not_xor]

theorem Canonical.denote_zero {store : Store Node} (canonical : store.Canonical) :
    store.denote .zero = fun _ => false := by
  rw [← Edge.neg_one, denote_neg, canonical.denote_one]
  rfl

end Store

end DecisionDiagram
