import DecisionDiagram.Manager.Inspect
import DecisionDiagram.Manager.Model
import DecisionDiagram.Proofs.Manager.Questions
import DecisionDiagram.Proofs.Manager.Recursion

/-!
# Traversals that end

The questions about a function go down from its edge to the children of its node. A child has fewer
variables below it than its parent, so no traversal of an edge in use is deeper than there are variables
below the edge, whatever it comes to.
-/

set_option autoImplicit false

namespace DecisionDiagram

open Approximation Manager

variable {manager : Manager} {edge : Edge} {node : Node} {Result Next : Type}

/-- A recursion that calls itself for the children of a node only ends if its steps do. -/
theorem Recursion.checked_of_children {Layer : Type → Type} [Monad Layer] [MonadExceptOf Fault Layer]
    {recursion : Recursion Edge Layer Result} {ends : Layer Result → Prop}
    (single : ∀ edge, recursion.edges edge = [edge]) {store : Store Node} (canonical : store.Canonical)
    (steps : ∀ {self : Edge → Layer Result} {edge : Edge} {node : Node},
      store.contents edge.index = some node →
      (edge.index ≠ 1 → ∀ value negated, ends (self ((node.child value).flip negated))) →
        ends (recursion.step self edge))
    {depth : Nat} (live : store.Live edge) (enough : (store.varsBelow [edge]).card < depth) :
    ends (recursion.checked store.insist depth edge) := by
  induction depth generalizing edge with
  | zero => exact absurd enough (Nat.not_lt_zero _)
  | succ depth ih =>
    obtain ⟨node, held⟩ := live
    refine steps held fun inner value negated => ?_
    have fewer := canonical.card_varsBelow_child held inner value negated
    have child := ((canonical.normal _ node held inner).child_from value).flip negated
    have descends := canonical.descends_child held inner value negated
    rw [← single edge, ← single ((node.child value).flip negated)] at descends
    rw [Store.insist_eq descends]
    exact ih child.live (Nat.lt_of_lt_of_le fewer (Nat.le_of_lt_succ enough))

/-- Whatever an answer is, it is not that of a recursion that got too deep. -/
def Shallow (answer : Except Fault Result) : Prop := answer ≠ .error .depthExceeded

theorem shallow_ok (result : Result) : Shallow (.ok result) := nofun

theorem Shallow.of_error {fault : Fault} (shallow : Shallow (.error fault : Except Fault Result)) :
    Shallow (.error fault : Except Fault Next) :=
  fun same => shallow (congrArg Except.error (Except.error.inj same))

theorem Shallow.bind {question : Except Fault Result} {next : Result → Except Fault Next}
    (first : Shallow question) (after : ∀ result, question = .ok result → Shallow (next result)) :
    Shallow (question >>= next) := by
  cases question with
  | ok result => exact after result rfl
  | error fault => exact Shallow.of_error first

namespace Manager

theorem shallow_position (var : Nat) : Shallow (position var) := by
  unfold position
  split
  · nofun
  · nofun

/-- The question ends in this manager. -/
def Answers {Layer : Type → Type} [Monad Layer] [MonadExceptOf Fault Layer] (manager : Manager)
    (recursion : Recursion Edge Layer Result) (observe : Layer Result → Except Fault Next)
    (edge : Edge) : Prop :=
  recursion.Terminates manager.store.insist observe Shallow manager.store edge

theorem answers_of_shallow {recursion : Recursion Edge (Except Fault) Result}
    (monotone : recursion.Monotone .answers) (single : ∀ edge, recursion.edges edge = [edge])
    (canonical : manager.store.Canonical)
    (steps : ∀ {self : Edge → Except Fault Result} {edge : Edge} {node : Node},
      manager.store.contents edge.index = some node →
      (edge.index ≠ 1 → ∀ value negated, Shallow (self ((node.child value).flip negated))) →
        Shallow (recursion.step self edge))
    (live : manager.store.Live edge) : manager.Answers recursion id edge := by
  have shallow : Shallow (recursion.checked manager.store.insist
      ((manager.store.varsBelow [edge]).card + 1) edge) :=
    Recursion.checked_of_children single canonical steps live (Nat.lt_succ_self _)
  rw [← single edge] at shallow
  exact Recursion.terminates monotone (insist_le _) Or.resolve_left shallow

/-- The value of a function as a recursion of its edge. -/
def evaluating (manager : Manager) (assignment : List Bool) : Recursion Edge (Except Fault) Bool where
  edges edge := [edge]
  step := manager.valueStep assignment
  run := manager.valueWithin assignment
  run_zero _ := rfl
  run_succ _ _ := rfl

theorem evaluating_monotone (assignment : List Bool) :
    (manager.evaluating assignment).Monotone .answers := by
  intro self other below edge
  show answers.le (manager.valueStep assignment self edge) (manager.valueStep assignment other edge)
  unfold valueStep
  refine ite_le _ (refl _ _) (bind_same _ fun var => bind_same _ fun index => ?_)
  cases assignment[index]? with
  | none => exact refl _ _
  | some value => cases value <;> exact bind_same _ fun child => below child

theorem value_answers (assignment : List Bool) (canonical : manager.store.Canonical)
    (live : manager.store.Live edge) : manager.Answers (manager.evaluating assignment) id edge := by
  refine answers_of_shallow (evaluating_monotone assignment) (fun _ => rfl) canonical ?_ live
  intro self edge node held children
  show Shallow (manager.valueStep assignment self edge)
  unfold valueStep
  by_cases terminal : edge.index = 1
  · rw [if_pos (Edge.isTerminal_iff.mpr terminal)]
    exact shallow_ok _
  rw [if_neg (mt Edge.isTerminal_iff.mp terminal), var_eq_ok held, answer_bind,
    highOf_eq_ok canonical held, lowOf_eq_ok canonical held]
  refine (shallow_position node.var).bind fun index _ => ?_
  cases assignment[index]? with
  | none => nofun
  | some value =>
    cases value with
    | true => exact children terminal true _
    | false => exact children terminal false _

/-- The search for a model as a recursion of its edge. -/
def searching (manager : Manager) (count : Nat) :
    Recursion Edge (Except Fault) (Option (List (Nat × Bool))) where
  edges edge := [edge]
  step := manager.pathStep count
  run := manager.pathWithin count
  run_zero _ := rfl
  run_succ _ _ := rfl

theorem searching_monotone (count : Nat) : (manager.searching count).Monotone .answers := by
  intro self other below edge
  show answers.le (manager.pathStep count self edge) (manager.pathStep count other edge)
  unfold pathStep
  refine ite_le _ (refl _ _) (bind_same _ fun var => ite_le _ (refl _ _) (bind_same _ fun _ => ?_))
  refine bind_same _ fun highEdge => bind _ (below highEdge) fun high => ?_
  cases high with
  | some path => exact refl _ _
  | none => exact bind_same _ fun lowEdge => bind _ (below lowEdge) fun low => refl _ _

theorem path_answers (count : Nat) (canonical : manager.store.Canonical)
    (live : manager.store.Live edge) : manager.Answers (manager.searching count) id edge := by
  refine answers_of_shallow (searching_monotone count) (fun _ => rfl) canonical ?_ live
  intro self edge node held children
  show Shallow (manager.pathStep count self edge)
  unfold pathStep
  by_cases terminal : edge.index = 1
  · rw [if_pos (Edge.isTerminal_iff.mpr terminal)]
    exact shallow_ok _
  rw [if_neg (mt Edge.isTerminal_iff.mp terminal), var_eq_ok held, answer_bind,
    highOf_eq_ok canonical held, lowOf_eq_ok canonical held]
  by_cases outside : count < node.var
  · rw [if_pos outside]
    nofun
  rw [if_neg outside]
  refine (shallow_position node.var).bind fun _ _ => ?_
  refine (children terminal true _).bind fun high _ => ?_
  cases high with
  | some path => exact shallow_ok _
  | none =>
    refine (children terminal false _).bind fun low _ => ?_
    cases low <;> exact shallow_ok _

/-- The tree of a function as a recursion of its edge. -/
def unfolding (manager : Manager) : Recursion Edge (Except Fault) Tree where
  edges edge := [edge]
  step := manager.treeStep
  run := manager.treeWithin
  run_zero _ := rfl
  run_succ _ _ := rfl

theorem unfolding_monotone : manager.unfolding.Monotone .answers := by
  intro self other below edge
  show answers.le (manager.treeStep self edge) (manager.treeStep other edge)
  unfold treeStep
  refine ite_le _ (refl _ _) (bind_same _ fun var => bind_same _ fun highEdge => ?_)
  refine bind _ (below highEdge) fun high => bind_same _ fun lowEdge => ?_
  exact bind _ (below lowEdge) fun low => refl _ _

theorem tree_answers (canonical : manager.store.Canonical) (live : manager.store.Live edge) :
    manager.Answers manager.unfolding id edge := by
  refine answers_of_shallow unfolding_monotone (fun _ => rfl) canonical ?_ live
  intro self edge node held children
  show Shallow (manager.treeStep self edge)
  unfold treeStep
  by_cases terminal : edge.index = 1
  · rw [if_pos (Edge.isTerminal_iff.mpr terminal)]
    exact shallow_ok _
  rw [if_neg (mt Edge.isTerminal_iff.mp terminal), var_eq_ok held, answer_bind,
    highOf_eq_ok canonical held, lowOf_eq_ok canonical held]
  refine (children terminal true _).bind fun high _ => ?_
  exact (children terminal false _).bind fun low _ => shallow_ok _

/-- The number of models as a recursion of its edge. -/
def counting (manager : Manager) (total : Nat) :
    Recursion Edge (StateT (Std.HashMap Edge Nat) (Except Fault)) Nat where
  edges edge := [edge]
  step := manager.countStep total
  run := manager.countWithin total
  run_zero _ := rfl
  run_succ _ _ := rfl

theorem shallow_bind {Table : Type} {action : StateT Table (Except Fault) Result}
    {next : Result → StateT Table (Except Fault) Next} (first : ∀ table, Shallow (action table))
    (after : ∀ result table, Shallow (next result table)) (table : Table) :
    Shallow ((action >>= next) table) :=
  (first table).bind fun (result, later) _ => after result later

theorem shallow_read_bind {Table : Type} {result : Result}
    {next : Result → StateT Table (Except Fault) Next} (rest : ∀ table, Shallow (next result table))
    (table : Table) : Shallow ((liftM (Except.ok result : Except Fault Result) >>= next) table) :=
  rest table

theorem counting_monotone (total : Nat) :
    (manager.counting total).Monotone (answers.table (Std.HashMap Edge Nat)) := by
  intro self other below edge
  show (answers.table _).le (manager.countStep total self edge) (manager.countStep total other edge)
  unfold countStep
  refine ite_le _ (refl _ _) (ite_le _ (refl _ _) (bind_same _ fun counts => ?_))
  cases counts[edge]? with
  | some count => exact refl _ _
  | none =>
    refine bind_same _ fun lowEdge => bind _ (below lowEdge) fun low => ?_
    exact bind_same _ fun highEdge => bind _ (below highEdge) fun high => refl _ _

theorem count_answers (total : Nat) (counts : Std.HashMap Edge Nat)
    (canonical : manager.store.Canonical) (live : manager.store.Live edge) :
    manager.Answers (manager.counting total) (· counts) edge := by
  have shallow : ∀ counts, Shallow ((manager.counting total).checked manager.store.insist
      ((manager.store.varsBelow [edge]).card + 1) edge counts) := by
    refine @Recursion.checked_of_children _ _ _ _ _ (manager.counting total)
      (fun action => ∀ counts, Shallow (action counts)) (fun _ => rfl) _ canonical ?_ _ live
        (Nat.lt_succ_self _)
    intro self edge node held children counts
    show Shallow (manager.countStep total self edge counts)
    unfold countStep
    by_cases zero : edge = .zero
    · rw [if_pos zero]
      exact shallow_ok _
    by_cases one : edge = .one
    · rw [if_neg zero, if_pos one]
      exact shallow_ok _
    rw [if_neg zero, if_neg one]
    have inner : edge.index ≠ 1 := fun terminal => (Edge.eq_constant terminal).elim one zero
    refine shallow_bind (fun _ => shallow_ok _) (fun known => ?_) counts
    cases known[edge]? with
    | some count => exact fun _ => shallow_ok _
    | none =>
      rw [low_eq_ok held, high_eq_ok held]
      refine shallow_read_bind (shallow_bind (children inner false false) fun low => ?_)
      refine shallow_read_bind (shallow_bind (children inner true false) fun high known => ?_)
      dsimp only
      split
      · split
        · exact shallow_ok _
        · nofun
      · exact shallow_ok _
  exact Recursion.terminates (counting_monotone total) (insist_le _)
    (fun below => (below counts).resolve_left) (shallow counts)

end Manager
end DecisionDiagram
