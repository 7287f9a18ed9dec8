import DecisionDiagram.Proofs.Diagram.Canonicity
import DecisionDiagram.Proofs.Diagram.Growth

/-!
# Edges as names of functions

Each function is represented by at most one edge (`Represents.unique`). Negation, the constants and
the branch of a variable have the edges that one expects.
-/

set_option autoImplicit false

namespace DecisionDiagram.Store

variable {store : Store Node} {edge other : Edge} {function : BoolFunction}

theorem Live.represents (live : store.Live edge) : store.Represents edge (store.denote edge) :=
  ⟨live, rfl⟩

theorem Canonical.represents_one (canonical : store.Canonical) :
    store.Represents .one fun _ => true :=
  ⟨canonical.live_one, canonical.denote_one⟩

theorem Canonical.represents_zero (canonical : store.Canonical) :
    store.Represents .zero fun _ => false :=
  ⟨canonical.live_zero, canonical.denote_zero⟩

namespace Represents

theorem congr {same : BoolFunction} (represents : store.Represents edge function)
    (equal : ∀ valuation, function valuation = same valuation) : store.Represents edge same :=
  ⟨represents.live, represents.denote_eq.trans (funext equal)⟩

theorem neg (represents : store.Represents edge function) :
    store.Represents (-edge) fun valuation => !function valuation := by
  refine ⟨live_neg.mpr represents.live, ?_⟩
  rw [denote_neg, represents.denote_eq]

theorem flip (represents : store.Represents edge function) (negated : Bool) :
    store.Represents (edge.flip negated) fun valuation => function valuation ^^ negated := by
  refine ⟨live_flip.mpr represents.live, ?_⟩
  rw [denote_flip, represents.denote_eq]
  funext valuation
  exact Bool.xor_comm _ _

theorem unique (canonical : store.Canonical) (first : store.Represents edge function)
    (second : store.Represents other function) : edge = other :=
  canonical.eq_of_denote_eq first.live second.live
    (first.denote_eq.trans second.denote_eq.symm)

theorem function_eq {same : BoolFunction} (first : store.Represents edge function)
    (second : store.Represents edge same) : function = same :=
  first.denote_eq.symm.trans second.denote_eq

theorem eq_true_of_one (canonical : store.Canonical) (represents : store.Represents edge function)
    (isOne : edge = .one) : function = fun _ => true :=
  (isOne ▸ represents).function_eq canonical.represents_one

theorem eq_false_of_zero (canonical : store.Canonical) (represents : store.Represents edge function)
    (isZero : edge = .zero) : function = fun _ => false :=
  (isZero ▸ represents).function_eq canonical.represents_zero

theorem eq_of_eq {same : BoolFunction} (represents : store.Represents edge function)
    (known : store.Represents other same) (equal : edge = other) : function = same :=
  (equal ▸ represents).function_eq known

/-- Edges are equal exactly where their functions are. -/
theorem eq_iff (canonical : store.Canonical) {same : BoolFunction}
    (represents : store.Represents edge function) (known : store.Represents other same) :
    edge = other ↔ function = same :=
  ⟨represents.eq_of_eq known, fun equal => represents.unique canonical (equal ▸ known)⟩

theorem eq_not_of_eq_neg {same : BoolFunction} (represents : store.Represents edge function)
    (known : store.Represents other same) (opposite : edge = -other) :
    function = fun valuation => !same valuation :=
  (opposite ▸ represents).function_eq known.neg

theorem from_of_dependsOn (canonical : store.Canonical) {bound : Nat}
    (represents : store.Represents edge function) (depends : DependsOn function (Set.Ici bound)) :
    store.From bound edge := by
  apply canonical.from_of_dependsOn represents.live
  rw [represents.denote_eq]
  exact depends

/-- A variable before which nothing matters is tested at the edge's own node or nowhere. -/
theorem top_or_later (canonical : store.Canonical) {var : Nat}
    (represents : store.Represents edge function) (depends : DependsOn function (Set.Ici var)) :
    (∃ node, store.contents edge.index = some node ∧ edge.index ≠ 1 ∧ node.var = var) ∨
      store.From (var + 1) edge := by
  obtain ⟨node, held, tests⟩ := represents.from_of_dependsOn canonical depends
  by_cases terminal : edge.index = 1
  · exact Or.inr ⟨node, held, Or.inl terminal⟩
  · rcases Nat.eq_or_lt_of_le (tests.resolve_left terminal) with same | later
    · exact Or.inl ⟨node, held, terminal, same.symm⟩
    · exact Or.inr ⟨node, held, Or.inr later⟩

theorem dependsOn_Ici (canonical : store.Canonical) {bound : Nat}
    (represents : store.Represents edge function) (above : store.From bound edge) :
    DependsOn function (Set.Ici bound) := by
  rw [← represents.denote_eq]
  exact canonical.dependsOn_Ici above

theorem cofactor_of_later (canonical : store.Canonical) {var : Nat}
    (represents : store.Represents edge function) (later : store.From (var + 1) edge)
    (value : Bool) : cofactor function var value = function :=
  cofactor_of_notMem (represents.dependsOn_Ici canonical later) (Nat.not_succ_le_self var) value

/-- Nothing before the variable of its node matters to a function. -/
theorem dependsOn_top (canonical : store.Canonical) {node : Node}
    (represents : store.Represents edge function) (held : store.contents edge.index = some node) :
    DependsOn function (Set.Ici node.var) :=
  represents.dependsOn_Ici canonical ⟨node, held, Or.inr (Nat.le_refl _)⟩

theorem dependsOn_testedVars (canonical : store.Canonical)
    (represents : store.Represents edge function) : DependsOn function ↑store.testedVars := by
  rw [← represents.denote_eq]
  exact canonical.dependsOn_testedVars represents.live

/-- Both constants depend on nothing. -/
theorem dependsOn_empty (canonical : store.Canonical) (represents : store.Represents edge function)
    (terminal : edge.index = 1) : DependsOn function ∅ := by
  have constant : ∀ value : Bool, DependsOn (fun _ : Valuation => value) ∅ := dependsOn_const
  rcases Edge.eq_constant terminal with isOne | isZero
  · rw [represents.eq_true_of_one canonical isOne]
    exact constant true
  · rw [represents.eq_false_of_zero canonical isZero]
    exact constant false

/-- A function depends on the variable of its node. -/
theorem mem_of_dependsOn (canonical : store.Canonical) {node : Node} {vars : Set Nat}
    (represents : store.Represents edge function) (held : store.contents edge.index = some node)
    (inner : edge.index ≠ 1) (depends : DependsOn function vars) : node.var ∈ vars := by
  by_contra outside
  apply canonical.cofactors_ne held inner
  rw [represents.denote_eq, cofactor_of_notMem depends outside, cofactor_of_notMem depends outside]

/-- Below an edge, only variables occur that its function depends on. -/
theorem mem_of_tests (canonical : store.Canonical) (represents : store.Represents edge function)
    {vars : Set Nat} (depends : DependsOn function vars) {var : Nat} (tests : store.Tests edge var) :
    var ∈ vars := by
  rw [← represents.denote_eq] at depends
  exact canonical.mem_of_tests represents.live depends tests

theorem child (canonical : store.Canonical) {node : Node}
    (represents : store.Represents edge function) (held : store.contents edge.index = some node)
    (inner : edge.index ≠ 1) (value : Bool) :
    store.Represents ((node.child value).flip edge.isNegated)
      (cofactor function node.var value) := by
  have normal := canonical.normal _ node held inner
  refine ⟨((normal.child_from value).flip _).live, ?_⟩
  rw [← canonical.cofactor_denote held inner, represents.denote_eq]

end Represents

/-- The function of a node in normal form. -/
theorem Canonical.represents_branch (canonical : store.Canonical) {node : Node}
    {high low : BoolFunction} (held : store.contents edge.index = some node)
    (regular : edge.isNegated = false) (onHigh : store.Represents node.high high)
    (onLow : store.Represents node.low low) : store.Represents edge (branch node.var high low) := by
  refine ⟨⟨node, held⟩, ?_⟩
  funext valuation
  rw [canonical.denote_follow held, regular, Bool.false_xor]
  unfold Node.follow branch
  split
  · rw [onHigh.denote_eq]
  · rw [onLow.denote_eq]

end DecisionDiagram.Store
