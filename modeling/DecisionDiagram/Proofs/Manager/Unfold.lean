import DecisionDiagram.Manager.Inspect
import DecisionDiagram.Proofs.Diagram.Descent
import DecisionDiagram.Proofs.Manager.ModelSearch

/-!
# Trees of functions

The unfolded tree of an edge has the variables and the constants that a descent meets, and a function
has one such tree (`Unfolds.unique`). The search for a model is a search of this tree, in which it fails
at the same places.
-/

set_option autoImplicit false

namespace DecisionDiagram

/-- Each branch is about the first variable that matters, and constants are not divided further. -/
inductive Unfolds : BoolFunction → Tree → Prop
  | leaf {function : BoolFunction} {value : Bool} :
      (function = fun _ => value) → Unfolds function (.leaf value)
  | branch {function : BoolFunction} {top : Nat} {high low : Tree} :
      Top function top → Unfolds (cofactor function top true) high →
        Unfolds (cofactor function top false) low → Unfolds function (.branch top high low)

theorem Unfolds.unique {function : BoolFunction} {tree other : Tree} (first : Unfolds function tree)
    (second : Unfolds function other) : tree = other := by
  induction first generalizing other with
  | leaf constant =>
    cases second with
    | leaf same => rw [congrFun (constant.symm.trans same) fun _ => true]
    | branch isTop _ _ => exact absurd constant (isTop.ne_constant _)
  | branch isTop _ _ onHigh onLow =>
    cases second with
    | leaf constant => exact absurd constant (isTop.ne_constant _)
    | branch alsoTop high low =>
      obtain rfl := isTop.unique alsoTop
      rw [onHigh high, onLow low]

/-- The first path to the constant true, with high branches searched first. No variable after `count`
may be met. -/
def Tree.path (count : Nat) : Tree → Except Fault (Option (List (Nat × Bool)))
  | leaf value => .ok (if value then some [] else none)
  | branch var high low =>
    if count < var then .error (.variableOutOfRange var count)
    else do
      match ← high.path count with
      | some path => return some ((var, true) :: path)
      | none =>
        match ← low.path count with
        | some path => return some ((var, false) :: path)
        | none => return none

namespace Manager

variable {manager : Manager} {edge : Edge} {function : BoolFunction} {fuel : Nat}

theorem child_rank_lt {node : Node} (canonical : manager.store.Canonical)
    (held : manager.store.contents edge.index = some node) (inner : edge.index ≠ 1)
    (enough : manager.store.rank edge.index < fuel + 1) (value : Bool) :
    manager.store.rank ((node.child value).flip edge.isNegated).index < fuel := by
  have above := ((canonical.normal _ node held inner).child_from value).flip edge.isNegated
  have lower := Store.rank_lt_of_from held inner above
  omega

theorem treeWithin_spec (canonical : manager.store.Canonical)
    (represents : manager.store.Represents edge function)
    (enough : manager.store.rank edge.index < fuel) :
    ∃ tree, manager.treeWithin fuel edge = .ok tree ∧ Unfolds function tree := by
  induction fuel generalizing edge function with
  | zero => exact absurd enough (Nat.not_lt_zero _)
  | succ fuel ih =>
    obtain ⟨node, held⟩ := represents.live
    by_cases terminal : edge.index = 1
    · rw [treeWithin, treeStep, if_pos (Edge.isTerminal_iff.mpr terminal)]
      rcases Edge.eq_constant terminal with rfl | rfl
      · exact ⟨_, rfl, .leaf (represents.eq_true_of_one canonical rfl)⟩
      · exact ⟨_, rfl, .leaf (represents.eq_false_of_zero canonical rfl)⟩
    · have onChild := fun value => ih (represents.child canonical held terminal value)
        (child_rank_lt canonical held terminal enough value)
      obtain ⟨high, highRun, onHigh⟩ := onChild true
      obtain ⟨low, lowRun, onLow⟩ := onChild false
      refine ⟨.branch node.var high low, ?_, .branch (represents.top canonical held terminal) onHigh onLow⟩
      rw [treeWithin, treeStep, if_neg fun ends => terminal (Edge.isTerminal_iff.mp ends)]
      simp only [var_eq_ok held, highOf_eq_ok canonical held, lowOf_eq_ok canonical held, answer_bind,
        highRun, lowRun]
      rfl

/-- The tree of an edge is that of its function. -/
theorem tree_spec (canonical : manager.store.Canonical)
    (represents : manager.store.Represents edge function) :
    ∃ tree, manager.tree edge = .ok tree ∧ Unfolds function tree :=
  treeWithin_spec canonical represents (rank_lt_depthBound canonical _)

/-- The search of a diagram is the search of the tree, whichever way it ends. -/
theorem pathWithin_eq (canonical : manager.store.Canonical) {tree : Tree} (count : Nat)
    (unfolds : Unfolds function tree) (represents : manager.store.Represents edge function)
    (enough : manager.store.rank edge.index < fuel) :
    manager.pathWithin count fuel edge = tree.path count := by
  obtain ⟨fuel, rfl⟩ := Nat.exists_eq_succ_of_ne_zero (Nat.ne_of_gt (Nat.zero_lt_of_lt enough))
  induction unfolds generalizing edge fuel with
  | @leaf function value constant =>
    subst constant
    rw [pathWithin_terminal fuel (represents.terminal_of_constant canonical)]
    cases value with
    | true => rw [represents.unique canonical canonical.represents_one]; rfl
    | false => rw [represents.unique canonical canonical.represents_zero]; rfl
  | @branch function top high low isTop _ _ onHigh onLow =>
    obtain ⟨node, held, inner, rfl⟩ := represents.node_of_top canonical isTop
    have lower := child_rank_lt canonical held inner enough
    obtain ⟨fuel, rfl⟩ := Nat.exists_eq_succ_of_ne_zero (Nat.ne_of_gt (Nat.zero_lt_of_lt (lower true)))
    have ifTrue := onHigh (represents.child canonical held inner true) fuel (lower true)
    have ifFalse := onLow (represents.child canonical held inner false) fuel (lower false)
    rw [pathWithin, pathStep, if_neg fun ends => inner (Edge.isTerminal_iff.mp ends), Tree.path]
    simp only [var_eq_ok held, position_eq_ok canonical held inner, answer_bind,
      highOf_eq_ok canonical held, lowOf_eq_ok canonical held, ifTrue, ifFalse]
    split <;> rfl

theorem model?_eq (canonical : manager.store.Canonical) {tree : Tree} (count : Nat)
    (unfolds : Unfolds function tree) (represents : manager.store.Represents edge function) :
    manager.model? edge count = return (← tree.path count).map (layOut count) := by
  rw [model?, pathWithin_eq canonical count unfolds represents (rank_lt_depthBound canonical _)]

end Manager

end DecisionDiagram
