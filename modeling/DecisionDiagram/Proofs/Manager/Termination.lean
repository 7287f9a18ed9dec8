import DecisionDiagram.Proofs.Manager.Quantify
import DecisionDiagram.Proofs.Manager.Replace

/-!
# Operations that end

Each recursion that makes nodes ends where its operands are in use, and its calls by itself are no
deeper than there are variables below the operands. Its steps are known to do what they have to do
where every call descends, and they go on as their calls do, so that a guard before each call changes
nothing (`Sinks.ends`). What it comes to is a result, unless the store is full.
-/

set_option autoImplicit false

namespace DecisionDiagram.Manager

open Approximation

/-! ## Steps go on as their calls do -/

theorem applying_monotone (connective : Connective) :
    (applying connective).Monotone (.actions Manager) := by
  rintro self other below ⟨first, second⟩
  have lower := fun first second => below (first, second)
  show (Approximation.actions Manager).le
    (applyStep connective (fun first second => self (first, second)) first second)
    (applyStep connective (fun first second => other (first, second)) first second)
  unfold applyStep
  refine bind_same _ fun answer => ?_
  cases answer with
  | some edge => exact refl _ _
  | none =>
    refine bind_same _ fun remembered => ?_
    cases remembered with
    | some edge => exact refl _ _
    | none =>
      refine ite_le _ (refl _ _) (bind_same _ fun top => ?_)
      refine bind_same _ fun halves => bind_same _ fun secondHalves => ?_
      exact bind _ (lower _ _) fun low => bind _ (lower _ _) fun high => refl _ _

theorem choosing_monotone : choosing.Monotone (.actions Manager) := by
  rintro self other below ⟨condition, whenTrue, whenFalse⟩
  have lower := fun f g h => below (f, g, h)
  show (Approximation.actions Manager).le
    (iteStep (fun condition whenTrue whenFalse => self (condition, whenTrue, whenFalse)) condition
      whenTrue whenFalse)
    (iteStep (fun condition whenTrue whenFalse => other (condition, whenTrue, whenFalse)) condition
      whenTrue whenFalse)
  unfold iteStep
  refine bind_same _ fun form => ?_
  cases form with
  | answer edge => exact refl _ _
  | binary connective first second => exact refl _ _
  | general =>
    refine ite_le _ (refl _ _) (bind_same _ fun key => bind_same _ fun remembered => ?_)
    cases remembered with
    | some edge => exact refl _ _
    | none =>
      refine bind_same _ fun top => bind_same _ fun onF => bind_same _ fun onG =>
        bind_same _ fun onH => ?_
      exact bind _ (lower _ _ _) fun high => bind _ (lower _ _ _) fun low => refl _ _

theorem composing_monotone (var : Nat) : (composing var).Monotone
    ((Approximation.actions Manager).table (Memo (Edge × Edge) Edge)) := by
  rintro self other below ⟨edge, replacement⟩
  have lower := fun edge replacement => below (edge, replacement)
  show ((Approximation.actions Manager).table _).le
    (composeStep var (fun edge replacement => self (edge, replacement)) edge replacement)
    (composeStep var (fun edge replacement => other (edge, replacement)) edge replacement)
  unfold composeStep
  refine ite_le _ (refl _ _) (bind_same _ fun top => ite_le _ (refl _ _) ?_)
  refine remembering_le _ _ (ite_le _ (refl _ _) (bind_same _ fun top => ?_))
  refine bind_same _ fun halves => bind_same _ fun others => ?_
  exact bind _ (lower _ _) fun low => bind _ (lower _ _) fun high => refl _ _

theorem restricting_monotone (var : Nat) (value : Bool) : (restricting var value).Monotone
    ((Approximation.actions Manager).table (Memo (Edge × Bool) Edge)) := by
  intro self other below edge
  show ((Approximation.actions Manager).table _).le (restrictStep var value self edge)
    (restrictStep var value other edge)
  unfold restrictStep
  refine ite_le _ (refl _ _) (bind_same _ fun top => ite_le _ (refl _ _) (ite_le _ (refl _ _) ?_))
  refine remembering_le _ _ (bind_same _ fun lowEdge => bind _ (below lowEdge) fun low => ?_)
  exact bind_same _ fun highEdge => bind _ (below highEdge) fun high => refl _ _

theorem fixing_monotone (values : Std.HashMap Nat Bool) : (fixing values).Monotone
    ((Approximation.actions Manager).table (Memo Edge Edge)) := by
  intro self other below edge
  show ((Approximation.actions Manager).table _).le (restrictManyStep values self edge)
    (restrictManyStep values other edge)
  unfold restrictManyStep
  refine ite_le _ (refl _ _) (bind_same _ fun regular => ?_)
  refine bind _ (remembering_le _ _ ?_) fun result => refl _ _
  refine bind_same _ fun top => bind_same _ fun lowEdge => bind_same _ fun highEdge => ?_
  cases values[top]? with
  | some value => exact below _
  | none => exact bind _ (below lowEdge) fun low => bind _ (below highEdge) fun high => refl _ _

theorem quantifying_monotone : quantifying.Monotone
    ((Approximation.actions Manager).table (Memo Edge Edge)) := by
  rintro self other below ⟨list, edge⟩
  have lower := fun list edge => below (list, edge)
  show ((Approximation.actions Manager).table _).le
    (existsStep (fun list edge => self (list, edge)) list edge)
    (existsStep (fun list edge => other (list, edge)) list edge)
  unfold existsStep
  refine ite_le _ (refl _ _) (bind_same _ fun top => ?_)
  cases list.dropWhile (· < top) with
  | nil => exact refl _ _
  | cons next rest =>
    refine remembering_le _ _ (bind_same _ fun lowEdge => bind _ (lower _ lowEdge) fun low => ?_)
    exact bind_same _ fun highEdge => bind _ (lower _ highEdge) fun high => refl _ _

theorem multiplying_monotone (list : List Nat) : (multiplying list).Monotone
    (((Approximation.actions Manager).table (Memo Edge Edge)).table (Memo (Edge × Edge) Edge)) := by
  rintro self other below ⟨first, second⟩
  have lower := fun first second => below (first, second)
  show (((Approximation.actions Manager).table _).table _).le
    (relProductStep list (fun first second => self (first, second)) first second)
    (relProductStep list (fun first second => other (first, second)) first second)
  unfold relProductStep
  refine ite_le _ (refl _ _) (bind_same _ fun opposite => ite_le _ (refl _ _) ?_)
  refine ite_le _ (refl _ _) (ite_le _ (refl _ _) (remembering_le _ _ ?_))
  refine bind_same _ fun top => bind_same _ fun halves => bind_same _ fun others => ?_
  refine bind _ (lower _ _) fun low => ite_le _ (ite_le _ (refl _ _) ?_) ?_
  · exact bind _ (lower _ _) fun high => refl _ _
  · exact bind _ (lower _ _) fun high => refl _ _

/-! ## Operations that make nodes -/

variable {manager : Manager} {Result Final : Type} {store after : Store Node}

/-- There is a result, or no slot is left. -/
def Finished (after : Store Node) : Except Fault Result → Prop
  | .ok _ => True
  | .error fault => fault = .storageFull after.capacity ∧ after.Full

section

variable {Layer : Type → Type} [Monad Layer] [MonadLiftT (EStateM Fault Manager) Layer]

theorem Confined.finished {layer : Steadiness Layer} {action : Layer Result}
    {post : Result → Store Node → Prop} (confined : Confined layer .faultless action store post) :
    ∃ after, layer.holds action store (Finished after) after := by
  obtain ⟨outcome, after, run, built⟩ := confined
  refine ⟨after, layer.weaken run ?_⟩
  rintro same rfl
  cases same with
  | ok result => trivial
  | error fault =>
    obtain ⟨isFull, full, _⟩ := (built.faulted fault rfl).resolve_right id
    exact ⟨isFull, full⟩

/-- An action over a table is run with a table of right entries. -/
theorem Steadiness.finished_of_memo {Key : Type} [BEq Key] [Hashable Key]
    {entry : Store Node → Key → Edge → Prop} (base : Steadiness Layer) {stable : Stable entry}
    {action : StateT (Memo Key Edge) Layer Result} {table : Memo Key Edge}
    (right : table.Holds (entry store))
    (run : (base.memo stable).holds action store (Finished after) after) :
    base.holds (action table) store (Finished after) after := by
  refine base.weaken (run table right) ?_
  rintro (fault | ⟨result, later⟩) finished
  · exact finished
  · trivial

end

/-- There is a result, or no slot is left, and either way nothing is lost. -/
def Concludes (manager : Manager) : EStateM.Result Fault Manager Result → Prop
  | .ok _ after => manager.GrowsTo after
  | .error fault after => manager.GrowsTo after ∧ OutOfSpace fault after

theorem Concludes.not_tooDeep {outcome : EStateM.Result Fault Manager Result}
    (concludes : manager.Concludes outcome) : ¬TooDeep outcome := by
  rintro ⟨last, rfl⟩
  cases concludes.2.1

theorem Steady.concludes {action : Action Result} (sound : manager.Sound)
    (run : Steady action manager.store (Finished after) after) :
    manager.Concludes (action manager) := by
  obtain ⟨outcome, later, ran, grows, rfl, finished⟩ := run manager sound rfl
  rw [ran]
  cases outcome with
  | ok result => exact grows
  | error fault => exact ⟨grows, finished⟩

/-- What an action leaves of a manager, whether it returns or faults. -/
def leaves (action : Action Result) (manager : Manager) : Manager :=
  match action manager with
  | .ok _ after => after
  | .error _ after => after

theorem Concludes.grows {action : Action Result} (concludes : manager.Concludes (action manager)) :
    manager.GrowsTo (leaves action manager) := by
  unfold leaves
  cases run : action manager with
  | ok result after =>
    rw [run] at concludes
    exact concludes
  | error fault after =>
    rw [run] at concludes
    exact concludes.1

section

variable {Args : Type} {Layer : Type → Type} [Monad Layer] [MonadExceptOf Fault Layer]
  [MonadLiftT (EStateM Fault Manager) Layer]

/-- The recursion, begun in some way, ends in this manager. -/
def Ends (manager : Manager) (recursion : Recursion Args Layer Edge)
    (begin : Layer Edge → Action Final) (args : Args) : Prop :=
  recursion.Terminates Manager.insist (fun action => begin action manager) manager.Concludes
    manager.store args

theorem Ends.grows {recursion : Recursion Args Layer Edge} {begin : Layer Edge → Action Final}
    {args : Args} {fuel : Nat} (ends : manager.Ends recursion begin args)
    (enough : (manager.store.varsBelow (recursion.edges args)).card < fuel) :
    manager.GrowsTo (leaves (begin (recursion.run fuel args)) manager) :=
  (ends fuel enough).2.grows

namespace Sinks

variable {fits : Calls Args} {args : Args} {post : Edge → Store Node → Prop}

theorem checked_finished {recursion : Recursion Args Layer Edge} {layer : Steadiness Layer}
    (sinks : Sinks recursion layer fits) (canonical : store.Canonical)
    (fitting : fits .faultless store (store.varsBelow (recursion.edges args)) args post) :
    ∃ after, layer.holds (recursion.checked Manager.insist
      ((store.varsBelow (recursion.edges args)).card + 1) args) store (Finished after) after :=
  (sinks.checked_confined canonical fitting (Nat.lt_succ_self _)).finished

theorem ends {recursion : Recursion Args (EStateM Fault Manager) Edge}
    (sinks : Sinks recursion steady fits) (sound : manager.Sound)
    (monotone : recursion.Monotone (.actions Manager))
    (fitting : fits .faultless manager.store (manager.store.varsBelow (recursion.edges args)) args
      post) : manager.Ends recursion id args := by
  obtain ⟨after, run⟩ := sinks.checked_finished sound.canonical fitting
  exact Recursion.terminates monotone insist_le_actions
    (fun below concludes => (below manager).resolve_left concludes.not_tooDeep)
    (Steady.concludes sound run)

section

variable {Key : Type} [BEq Key] [Hashable Key] {entry : Store Node → Key → Edge → Prop}
  {stable : Stable entry} {table : Memo Key Edge}

theorem ends_memo {recursion : Recursion Args (StateT (Memo Key Edge) (EStateM Fault Manager)) Edge}
    (sinks : Sinks recursion (steady.memo stable) fits) (sound : manager.Sound)
    (monotone : recursion.Monotone ((Approximation.actions Manager).table (Memo Key Edge)))
    (fitting : fits .faultless manager.store (manager.store.varsBelow (recursion.edges args)) args
      post) (right : table.Holds (entry manager.store)) :
    manager.Ends recursion (· table) args := by
  obtain ⟨after, run⟩ := sinks.checked_finished sound.canonical fitting
  exact Recursion.terminates monotone insist_le_memo
    (fun below concludes => (below table manager).resolve_left concludes.not_tooDeep)
    (Steady.concludes sound (steady.finished_of_memo right run))

theorem ends_pair {Pair : Type} [BEq Pair] [Hashable Pair]
    {pairEntry : Store Node → Pair → Edge → Prop} {pairStable : Stable pairEntry}
    {pairs : Memo Pair Edge} {recursion : Recursion Args
      (StateT (Memo Pair Edge) (StateT (Memo Key Edge) (EStateM Fault Manager))) Edge}
    (sinks : Sinks recursion ((steady.memo stable).memo pairStable) fits) (sound : manager.Sound)
    (monotone : recursion.Monotone
      (((Approximation.actions Manager).table (Memo Key Edge)).table (Memo Pair Edge)))
    (fitting : fits .faultless manager.store (manager.store.varsBelow (recursion.edges args)) args
      post) (rightPairs : pairs.Holds (pairEntry manager.store))
    (right : table.Holds (entry manager.store)) :
    manager.Ends recursion (fun action => action pairs table) args := by
  obtain ⟨after, run⟩ := sinks.checked_finished sound.canonical fitting
  have opened := (steady.memo stable).finished_of_memo rightPairs run
  exact Recursion.terminates monotone insist_le_pair
    (fun below concludes => (below pairs table manager).resolve_left concludes.not_tooDeep)
    (Steady.concludes sound (steady.finished_of_memo right opened))

end

end Sinks

end

/-- At the start, the variables below the operands are left. -/
theorem Operand.below {edge : Edge} {edges : List Edge} (canonical : store.Canonical)
    (live : ∀ edge ∈ edges, store.Live edge) (member : edge ∈ edges) :
    Operand store (store.varsBelow edges) edge (store.denote edge) :=
  have represents := (live edge member).represents
  ⟨represents, represents.dependsOn_varsBelow canonical member⟩

/-! ## All of them -/

/-- A recursion that makes nodes, as it is begun: with operands, and with the tables it has. -/
inductive Descent where
  | apply (connective : Connective) (first second : Edge)
  | ite (condition whenTrue whenFalse : Edge)
  | compose (var : Nat) (edge replacement : Edge) (table : Memo (Edge × Edge) Edge)
  | restrict (var : Nat) (value : Bool) (edge : Edge) (table : Memo (Edge × Bool) Edge)
  | restrictMany (values : Std.HashMap Nat Bool) (edge : Edge) (table : Memo Edge Edge)
  | existsVars (list : List Nat) (edge : Edge) (table : Memo Edge Edge)
  | relProduct (list : List Nat) (first second : Edge) (pairs : Memo (Edge × Edge) Edge)
      (table : Memo Edge Edge)

namespace Descent

def edges : Descent → List Edge
  | apply _ first second => [first, second]
  | ite condition whenTrue whenFalse => [condition, whenTrue, whenFalse]
  | compose _ edge replacement _ => [edge, replacement]
  | restrict _ _ edge _ => [edge]
  | restrictMany _ edge _ => [edge]
  | existsVars _ edge _ => [edge]
  | relProduct _ first second _ _ => [first, second]

/-- Tables have right entries only, as the empty table has, and variables are in order. -/
def Proper (store : Store Node) : Descent → Prop
  | apply _ _ _ => True
  | ite _ _ _ => True
  | compose var _ _ table => table.Holds ((compositions var).entry store)
  | restrict var _ _ table => table.Holds ((restrictions var).entry store)
  | restrictMany values _ table => table.Holds ((fixings values).entry store)
  | existsVars list _ table =>
    Sorted list ∧ table.Holds ((quantifications {var | var ∈ list}).entry store)
  | relProduct list _ _ pairs table =>
    Sorted list ∧ pairs.Holds ((products {var | var ∈ list}).entry store) ∧
      table.Holds ((quantifications {var | var ∈ list}).entry store)

/-- The operands are in use. -/
structure Admissible (descent : Descent) (manager : Manager) : Prop where
  live : ∀ edge ∈ descent.edges, manager.store.Live edge
  proper : descent.Proper manager.store

/-- How many variables there are to go down. -/
noncomputable def depth (descent : Descent) (store : Store Node) : Nat :=
  (store.varsBelow descent.edges).card

def Ends (manager : Manager) : Descent → Prop
  | apply connective first second => manager.Ends (applying connective) id (first, second)
  | ite condition whenTrue whenFalse => manager.Ends choosing id (condition, whenTrue, whenFalse)
  | compose var edge replacement table =>
    manager.Ends (composing var) (· table) (edge, replacement)
  | restrict var value edge table => manager.Ends (restricting var value) (· table) edge
  | restrictMany values edge table => manager.Ends (fixing values) (· table) edge
  | existsVars list edge table => manager.Ends quantifying (· table) (list, edge)
  | relProduct list first second pairs table =>
    manager.Ends (multiplying list) (fun action => action pairs table) (first, second)

/-- What the recursion leaves of a manager, with a bound on its depth. -/
def leaves (fuel : Nat) (manager : Manager) : Descent → Manager
  | apply connective first second =>
    Manager.leaves (applyWithin connective fuel first second) manager
  | ite condition whenTrue whenFalse =>
    Manager.leaves (iteWithin fuel condition whenTrue whenFalse) manager
  | compose var edge replacement table =>
    Manager.leaves (composeWithin var fuel edge replacement table) manager
  | restrict var value edge table =>
    Manager.leaves (restrictWithin var value fuel edge table) manager
  | restrictMany values edge table =>
    Manager.leaves (restrictManyWithin values fuel edge table) manager
  | existsVars list edge table => Manager.leaves (existsWithin fuel list edge table) manager
  | relProduct list first second pairs table =>
    Manager.leaves (relProductWithin list fuel first second pairs table) manager

theorem ends {descent : Descent} (sound : manager.Sound) (admissible : descent.Admissible manager) :
    descent.Ends manager := by
  obtain ⟨live, proper⟩ := admissible
  have below := fun {edge} => @Operand.below _ edge _ sound.canonical live
  cases descent with
  | apply connective first second =>
    exact (applying_sinks connective).ends sound (applying_monotone connective)
      (.mk (below (by simp [edges])) (below (by simp [edges])) trivial)
  | ite condition whenTrue whenFalse =>
    exact choosing_sinks.ends sound choosing_monotone
      (.mk (below (by simp [edges])) (below (by simp [edges])) (below (by simp [edges])) trivial)
  | compose var edge replacement table =>
    exact (composing_sinks var).ends_memo sound (composing_monotone var)
      (.mk (below (by simp [edges])) (below (by simp [edges])) trivial) proper
  | restrict var value edge table =>
    exact (restricting_sinks var value).ends_memo sound (restricting_monotone var value)
      (.mk (below (by simp [edges])) trivial) proper
  | restrictMany values edge table =>
    exact (fixing_sinks values).ends_memo sound (fixing_monotone values)
      (.mk (below (by simp [edges])) trivial) proper
  | existsVars list edge table =>
    obtain ⟨sorted, right⟩ := proper
    obtain ⟨node, held⟩ := live edge (by simp [edges])
    exact (quantifying_sinks {var | var ∈ list}).ends_memo sound quantifying_monotone
      (.mk (below (by simp [edges])) ⟨node, held, Or.inr (Nat.zero_le _)⟩
        ⟨sorted, fun _ _ => Iff.rfl⟩ (Task.covered_faultless trivial)) right
  | relProduct list first second pairs table =>
    obtain ⟨sorted, rightPairs, right⟩ := proper
    exact (multiplying_sinks sorted).ends_pair sound (multiplying_monotone list)
      (.mk (below (by simp [edges])) (below (by simp [edges])) (Task.covered_faultless trivial))
      rightPairs right

theorem grows {descent : Descent} {fuel : Nat} (sound : manager.Sound)
    (admissible : descent.Admissible manager) (enough : descent.depth manager.store < fuel) :
    manager.GrowsTo (descent.leaves fuel manager) := by
  have ended := descent.ends sound admissible
  cases descent <;> exact Manager.Ends.grows ended enough

end Descent

end DecisionDiagram.Manager
