import DecisionDiagram.Proofs.Diagram.Depth
import DecisionDiagram.Proofs.Manager.Confined

/-!
# Recursions that descend

A recursion runs one step after the other, each with the recursion itself for smaller arguments, and it
gives up when a bound on its depth is reached. `checked` is the same recursion with a guard before each
call by itself: the call is made only if it descends, and given up otherwise. Giving up is never noticed
by a step and undone, so a run with a guard comes to what the run without one comes to, or gives up
(`checked_le_run`). A recursion whose steps are right as long as the calls that descend are right
(`Sinks`) is right with the guards in place, and hence does not give up.
-/

set_option autoImplicit false

namespace DecisionDiagram

/-- An operation that calls itself, with a bound on its depth. `edges` are those that a call is about. -/
structure Recursion (Args : Type) (Layer : Type → Type) [MonadExceptOf Fault Layer]
    (Result : Type) where
  edges : Args → List Edge
  step : (Args → Layer Result) → Args → Layer Result
  run : Nat → Args → Layer Result
  run_zero : ∀ args, run 0 args = throw .depthExceeded
  run_succ : ∀ fuel args, run (fuel + 1) args = step (run fuel) args

section

variable {Args Result Next : Type} {Layer : Type → Type} [Monad Layer] [MonadExceptOf Fault Layer]

/-! ## Guarded calls -/

open Classical in
/-- Goes on only if the store that is asked has the property. -/
noncomputable def Store.insist (store : Store Node) (property : Store Node → Prop)
    (action : Layer Result) : Layer Result :=
  if property store then action else throw .depthExceeded

omit [Monad Layer] in
theorem Store.insist_eq {store : Store Node} {property : Store Node → Prop} (holds : property store)
    (action : Layer Result) : store.insist property action = action :=
  if_pos holds

/-- Goes on only if the store at this moment has the property. -/
noncomputable def Manager.insist [MonadLiftT (EStateM Fault Manager) Layer]
    (property : Store Node → Prop) (action : Layer Result) : Layer Result := do
  let manager ← liftM (get : Manager.Action Manager)
  manager.store.insist property action

/-- The recursion with a guard before each call by itself. -/
def Recursion.checked (recursion : Recursion Args Layer Result)
    (insist : (Store Node → Prop) → Layer Result → Layer Result) : Nat → Args → Layer Result
  | 0, _ => throw .depthExceeded
  | depth + 1, args => recursion.step (fun callee =>
      insist (fun store => store.Descends (recursion.edges args) (recursion.edges callee))
        (recursion.checked insist depth callee)) args

/-! ## Giving up -/

/-- When an action gives up, and when it comes to what another one comes to or gives up. -/
structure Approximation (Layer : Type → Type) [Monad Layer] [MonadExceptOf Fault Layer] where
  givesUp : ∀ {Result : Type}, Layer Result → Prop
  givesUp_throw : ∀ {Result : Type}, givesUp (throw .depthExceeded : Layer Result)
  givesUp_bind : ∀ {Result Next : Type} {action : Layer Result} {next : Result → Layer Next},
    givesUp action → givesUp (action >>= next)
  le : ∀ {Result : Type}, Layer Result → Layer Result → Prop
  refl : ∀ {Result : Type} (action : Layer Result), le action action
  bind : ∀ {Result Next : Type} {action other : Layer Result} {next rest : Result → Layer Next},
    le action other → (∀ result, le (next result) (rest result)) →
      le (action >>= next) (other >>= rest)
  of_givesUp : ∀ {Result : Type} {action : Layer Result} (other : Layer Result),
    givesUp action → le action other

/-- An action has ended because its depth was exceeded. -/
def TooDeep {State : Type} (outcome : EStateM.Result Fault State Result) : Prop :=
  ∃ after, outcome = .error .depthExceeded after

namespace Approximation

/-- Answers without a state. -/
def answers : Approximation (Except Fault) where
  givesUp answer := answer = .error .depthExceeded
  givesUp_throw := rfl
  givesUp_bind := by
    rintro _ _ _ _ rfl
    rfl
  le answer other := answer = .error .depthExceeded ∨ answer = other
  refl _ := Or.inr rfl
  bind := by
    rintro _ _ answer other next rest (rfl | rfl) after
    · exact Or.inl rfl
    · cases answer with
      | error fault => exact Or.inr rfl
      | ok result => exact after result
  of_givesUp _ := Or.inl

/-- Actions that change a state. -/
def actions (State : Type) : Approximation (EStateM Fault State) where
  givesUp action := ∀ state, TooDeep (action state)
  givesUp_throw state := ⟨state, rfl⟩
  givesUp_bind gaveUp state := (gaveUp state).imp fun _ ran => bind_error ran
  le action other := ∀ state, TooDeep (action state) ∨ action state = other state
  refl _ _ := Or.inr rfl
  bind := by
    rintro _ _ action other next rest first after state
    rcases first state with ⟨last, ran⟩ | same
    · exact Or.inl ⟨last, bind_error ran⟩
    · cases ran : action state with
      | error fault middle => exact Or.inr ((bind_error ran).trans (bind_error (same ▸ ran)).symm)
      | ok result middle =>
        rw [bind_ok ran, bind_ok (same ▸ ran)]
        exact after result middle
  of_givesUp _ gaveUp state := Or.inl (gaveUp state)

/-- A table on top of another layer. -/
def table (base : Approximation Layer) (Table : Type) : Approximation (StateT Table Layer) where
  givesUp action := ∀ table, base.givesUp (action table)
  givesUp_throw _ := base.givesUp_bind base.givesUp_throw
  givesUp_bind gaveUp table := base.givesUp_bind (gaveUp table)
  le action other := ∀ table, base.le (action table) (other table)
  refl _ _ := base.refl _
  bind first after table := base.bind (first table) fun (result, later) => after result later
  of_givesUp _ gaveUp table := base.of_givesUp _ (gaveUp table)

variable (approximation : Approximation Layer)

theorem bind_same {action : Layer Result} {next rest : Result → Layer Next}
    (after : ∀ result, approximation.le (next result) (rest result)) :
    approximation.le (action >>= next) (action >>= rest) :=
  approximation.bind (approximation.refl action) after

theorem ite_le {condition : Prop} [Decidable condition] {ifTrue ifFalse ifTrue' ifFalse' : Layer Result}
    (onTrue : approximation.le ifTrue ifTrue') (onFalse : approximation.le ifFalse ifFalse') :
    approximation.le (if condition then ifTrue else ifFalse)
      (if condition then ifTrue' else ifFalse') := by
  split
  · exact onTrue
  · exact onFalse

theorem insist_le {property : Store Node → Prop} {action other : Layer Result} {store : Store Node}
    (below : approximation.le action other) :
    approximation.le (store.insist property action) other := by
  unfold Store.insist
  split
  · exact below
  · exact approximation.of_givesUp _ approximation.givesUp_throw

theorem remembering_le {Key : Type} [BEq Key] [Hashable Key] (key : Key)
    {work other : StateT (Memo Key Edge) Layer Edge}
    (below : (approximation.table (Memo Key Edge)).le work other) :
    (approximation.table (Memo Key Edge)).le (Manager.remembering key work)
      (Manager.remembering key other) := by
  refine (approximation.table _).bind ((approximation.table _).refl _) fun table => ?_
  split
  · exact (approximation.table _).refl _
  · exact (approximation.table _).bind below fun _ => (approximation.table _).refl _

end Approximation

namespace Recursion

variable {recursion : Recursion Args Layer Result} {approximation : Approximation Layer}
  {insist : (Store Node → Prop) → Layer Result → Layer Result}

/-- Steps go on as their calls do. -/
def Monotone (recursion : Recursion Args Layer Result) (approximation : Approximation Layer) : Prop :=
  ∀ {self other : Args → Layer Result}, (∀ args, approximation.le (self args) (other args)) →
    ∀ args, approximation.le (recursion.step self args) (recursion.step other args)

/-- The guards and a smaller bound on the depth make no difference but giving up. -/
theorem checked_le_run (monotone : recursion.Monotone approximation)
    (insisting : ∀ {property : Store Node → Prop} {action other : Layer Result},
      approximation.le action other → approximation.le (insist property action) other)
    {depth fuel : Nat} (atMost : depth ≤ fuel) (args : Args) :
    approximation.le (recursion.checked insist depth args) (recursion.run fuel args) := by
  induction depth generalizing fuel args with
  | zero => exact approximation.of_givesUp _ approximation.givesUp_throw
  | succ depth ih =>
    obtain ⟨fuel, rfl⟩ := Nat.exists_eq_succ_of_ne_zero (Nat.ne_of_gt (Nat.zero_lt_of_lt atMost))
    rw [recursion.run_succ]
    exact monotone (fun callee => insisting (ih (Nat.le_of_succ_le_succ atMost) callee)) args

/-- With a bound that exceeds the number of variables below the arguments, a run comes to what the
recursion with the guards comes to within just one step more than there are variables, and that is no
giving up. So all calls descend, and no larger bound makes a difference. -/
def Terminates {Outcome : Type} (recursion : Recursion Args Layer Result)
    (insist : (Store Node → Prop) → Layer Result → Layer Result) (observe : Layer Result → Outcome)
    (ended : Outcome → Prop) (store : Store Node) (args : Args) : Prop :=
  ∀ fuel, (store.varsBelow (recursion.edges args)).card < fuel →
    observe (recursion.run fuel args) =
        observe (recursion.checked insist ((store.varsBelow (recursion.edges args)).card + 1) args) ∧
      ended (observe (recursion.run fuel args))

theorem terminates {Outcome : Type} {observe : Layer Result → Outcome} {ended : Outcome → Prop}
    {store : Store Node} {args : Args} (monotone : recursion.Monotone approximation)
    (insisting : ∀ {property : Store Node → Prop} {action other : Layer Result},
      approximation.le action other → approximation.le (insist property action) other)
    (observing : ∀ {action other : Layer Result}, approximation.le action other →
      ended (observe action) → observe action = observe other)
    (checked : ended (observe
      (recursion.checked insist ((store.varsBelow (recursion.edges args)).card + 1) args))) :
    recursion.Terminates insist observe ended store args := by
  intro fuel enough
  have same := observing (checked_le_run monotone insisting enough args) checked
  exact ⟨same.symm, same ▸ checked⟩

end Recursion

end

/-! ## Steps over a manager -/

namespace Manager

variable {Args : Type} {Layer : Type → Type} [Monad Layer] [MonadExceptOf Fault Layer]
  [MonadLiftT (EStateM Fault Manager) Layer] {layer : Steadiness Layer} {store : Store Node}
  {scope : Scope}

theorem Confined.insist {Result : Type} {property : Store Node → Prop} {action : Layer Result}
    {post : Result → Store Node → Prop} (canonical : store.Canonical) (holds : property store)
    (confined : Confined layer scope action store post) :
    Confined layer scope (Manager.insist property action) store post :=
  Confined.get_bind canonical
    (fun _ isBare => Store.insist_eq (isBare ▸ holds) action) confined

/-! ### Guards only give up -/

theorem insist_le_actions {Result : Type} {property : Store Node → Prop} {action other : Action Result}
    (below : (Approximation.actions Manager).le action other) :
    (Approximation.actions Manager).le (Manager.insist property action) other :=
  fun manager => (Approximation.actions Manager).insist_le below manager

theorem insist_le_memo {Key Result : Type} [BEq Key] [Hashable Key] {property : Store Node → Prop}
    {action other : Memoized Key Result}
    (below : ((Approximation.actions Manager).table (Memo Key Edge)).le action other) :
    ((Approximation.actions Manager).table (Memo Key Edge)).le (Manager.insist property action)
      other :=
  fun table manager =>
    ((Approximation.actions Manager).table (Memo Key Edge)).insist_le below table manager

theorem insist_le_pair {Key Pair Result : Type} [BEq Key] [Hashable Key] [BEq Pair] [Hashable Pair]
    {property : Store Node → Prop} {action other : StateT (Memo Pair Edge) (Memoized Key) Result}
    (below : (((Approximation.actions Manager).table (Memo Key Edge)).table (Memo Pair Edge)).le
      action other) :
    (((Approximation.actions Manager).table (Memo Key Edge)).table (Memo Pair Edge)).le
      (Manager.insist property action) other :=
  fun pairs table manager =>
    (((Approximation.actions Manager).table (Memo Key Edge)).table (Memo Pair Edge)).insist_le below
      pairs table manager

/-! ### Calls with one variable less -/

/-- What is known of a call of a recursion: the scope, the store, the variables that are left, the
arguments, and what has to be true of the result. -/
abbrev Calls (Args : Type) : Type :=
  Scope → Store Node → Finset Nat → Args → (Edge → Store Node → Prop) → Prop

/-- A step does what it has to do if the calls do that descend and have one variable less. -/
structure Sinks (recursion : Recursion Args Layer Edge) (layer : Steadiness Layer)
    (fits : Calls Args) : Prop where
  step : ∀ {self : Args → Layer Edge} {scope : Scope} {store : Store Node} {vars : Finset Nat}
    {args : Args} {post : Edge → Store Node → Prop}, store.Canonical →
      fits scope store vars args post →
      (∀ {scope : Scope} {after : Store Node} {var : Nat} {callee : Args}
        {post : Edge → Store Node → Prop}, store.Grown after → var ∈ vars →
          store.Descends (recursion.edges args) (recursion.edges callee) →
            fits scope after (vars.erase var) callee post →
              Confined layer scope (self callee) after post) →
        Confined layer scope (recursion.step self args) store post

namespace Sinks

variable {recursion : Recursion Args Layer Edge} {fits : Calls Args} {vars : Finset Nat} {args : Args}
  {post : Edge → Store Node → Prop}

theorem card_erase_lt {var bound : Nat} (left : var ∈ vars) (enough : vars.card < bound + 1) :
    (vars.erase var).card < bound := by
  have positive := Finset.card_pos.mpr ⟨var, left⟩
  rw [Finset.card_erase_of_mem left]
  omega

/-- As many nested calls as there are variables left, and one more, are enough. -/
theorem run_confined (sinks : Sinks recursion layer fits) {fuel : Nat} (canonical : store.Canonical)
    (fitting : fits scope store vars args post) (enough : vars.card < fuel) :
    Confined layer scope (recursion.run fuel args) store post := by
  induction fuel generalizing scope store vars args post with
  | zero => exact absurd enough (Nat.not_lt_zero _)
  | succ fuel ih =>
    rw [recursion.run_succ]
    exact sinks.step canonical fitting fun grown left _ inner =>
      ih grown.canonical inner (card_erase_lt left enough)

/-- The guards let all calls pass. -/
theorem checked_confined (sinks : Sinks recursion layer fits) {depth : Nat}
    (canonical : store.Canonical) (fitting : fits scope store vars args post)
    (enough : vars.card < depth) :
    Confined layer scope (recursion.checked Manager.insist depth args) store post := by
  induction depth generalizing scope store vars args post with
  | zero => exact absurd enough (Nat.not_lt_zero _)
  | succ depth ih =>
    exact sinks.step canonical fitting fun grown left descends inner =>
      Confined.insist grown.canonical (descends.grow grown.more)
        (ih grown.canonical inner (card_erase_lt left enough))

end Sinks

end Manager

end DecisionDiagram
