import DecisionDiagram.Proofs.Manager.Run
import DecisionDiagram.Proofs.Manager.Unfold
import DecisionDiagram.Proofs.Tree

/-!
# What the bracketed text of a function says

The text of an edge can be read back as the tree that the edge unfolds to. Its branches are the
answers to the questions for the variable and for the two branches, its leaves are constants, and
its value is that of the edge. So two edges in use have the same text only if they are the same.
-/

set_option autoImplicit false

namespace DecisionDiagram

/-- A function has the values of the tree it unfolds to. -/
theorem Unfolds.eval_eq {function : BoolFunction} {tree : Tree} (unfolds : Unfolds function tree)
    (valuation : Valuation) : tree.eval valuation = function valuation := by
  induction unfolds with
  | leaf constant => rw [Tree.eval, constant]
  | @branch function top high low _ _ _ onHigh onLow =>
    rw [Tree.eval, onHigh, onLow, ← congrFun (shannon function top) valuation, DecisionDiagram.branch]

namespace Manager

/-- The tree of an edge, by what a caller is told of the edges in it. -/
inductive Nested (manager : Manager) : Edge → Tree → Prop
  | one : Nested manager .one (.leaf true)
  | zero : Nested manager .zero (.leaf false)
  | branch {edge high low : Edge} {var : Nat} {highTree lowTree : Tree} :
      edge.isTerminal = false → manager.var edge.index = .ok var →
        manager.highOf edge = .ok high → manager.lowOf edge = .ok low →
          Nested manager high highTree → Nested manager low lowTree →
            Nested manager edge (.branch var highTree lowTree)

variable {config : Config} {manager : Manager} {edge first second : Edge} {tree : Tree}

theorem nested_of_treeWithin {fuel : Nat} (unfolded : manager.treeWithin fuel edge = .ok tree) :
    Nested manager edge tree := by
  induction fuel generalizing edge tree with
  | zero => cases unfolded
  | succ fuel ih =>
    rw [treeWithin, treeStep] at unfolded
    by_cases terminal : edge.isTerminal
    · rw [if_pos terminal] at unfolded
      cases unfolded
      rcases Edge.eq_constant (Edge.isTerminal_iff.mp terminal) with rfl | rfl
      · exact .one
      · exact .zero
    · rw [if_neg terminal] at unfolded
      obtain ⟨var, isVar, unfolded⟩ := answer_bind_eq_ok unfolded
      obtain ⟨high, isHigh, unfolded⟩ := answer_bind_eq_ok unfolded
      obtain ⟨highTree, onHigh, unfolded⟩ := answer_bind_eq_ok unfolded
      obtain ⟨low, isLow, unfolded⟩ := answer_bind_eq_ok unfolded
      obtain ⟨lowTree, onLow, unfolded⟩ := answer_bind_eq_ok unfolded
      cases unfolded
      exact .branch (Bool.not_eq_true _ ▸ terminal) isVar isHigh isLow (ih onHigh) (ih onLow)

/-- A text is that of an edge, and reading it back gives the nested tree of the edge, which has the
values of the edge. -/
structure Prints (manager : Manager) (edge : Edge) (text : String) (tree : Tree) : Prop where
  text_eq : manager.bracketText edge = .ok text
  decoded : Tree.decode text = some tree
  nested : Nested manager edge tree
  value : ∀ assignment, Covers manager.store assignment edge →
    manager.value edge assignment = .ok (tree.eval (valuationOf assignment))

theorem prints_text (canonical : manager.store.Canonical) (live : manager.store.Live edge) :
    ∃ tree, Prints manager edge tree.text tree ∧ Unfolds (manager.store.denote edge) tree := by
  obtain ⟨tree, unfolded, unfolds⟩ := tree_spec canonical live.represents
  have value : ∀ assignment, Covers manager.store assignment edge →
      manager.value edge assignment = .ok (tree.eval (valuationOf assignment)) := by
    intro assignment covers
    rw [unfolds.eval_eq, value_spec canonical live.represents covers]
  have text_eq : manager.bracketText edge = .ok tree.text := by
    rw [bracketText, unfolded]
    rfl
  exact ⟨tree, ⟨text_eq, tree.decode_text, nested_of_treeWithin unfolded, value⟩, unfolds⟩

/-- **The text of a function determines it.** After any run, each edge in use has a text that is read
back as its nested tree, and two edges have the same text exactly if they are equal. -/
theorem attained_bracketText (attained : Attained config manager) (live : manager.store.Live first)
    (secondLive : manager.store.Live second) :
    ∃ text other tree otherTree, Prints manager first text tree ∧
      Prints manager second other otherTree ∧ (text = other ↔ first = second) := by
  have canonical := attained.sound.canonical
  obtain ⟨tree, prints, unfolds⟩ := prints_text canonical live
  obtain ⟨other, otherPrints, otherUnfolds⟩ := prints_text canonical secondLive
  refine ⟨tree.text, other.text, tree, other, prints, otherPrints, ?_, ?_⟩
  · intro same
    obtain rfl := Tree.text_injective same
    apply canonical.eq_of_denote_eq live secondLive
    funext valuation
    rw [← unfolds.eval_eq, otherUnfolds.eval_eq]
  · rintro rfl
    rw [unfolds.unique otherUnfolds]

/-- The text of a variable differs from that of its negation. -/
theorem bracketText_literal : ∃ manager, Attained ⟨3, 2, 2⟩ manager ∧
    ∃ text other tree otherTree, Prints manager ⟨2, by decide⟩ text tree ∧
      Prints manager ⟨-2, by decide⟩ other otherTree ∧ text ≠ other := by
  obtain ⟨manager, attained, live, _, _⟩ := attained_literals
  have opposite : manager.store.Live ⟨-2, by decide⟩ := Store.live_neg.mpr live
  obtain ⟨text, other, tree, otherTree, prints, otherPrints, same_iff⟩ :=
    attained_bracketText attained live opposite
  refine ⟨manager, attained, text, other, tree, otherTree, prints, otherPrints, fun same => ?_⟩
  exact absurd (congrArg Edge.code (same_iff.mp same)) (by decide)

end Manager

end DecisionDiagram
