import DecisionDiagram.Manager.Apply

/-!
# Answers remembered within one call

A recursive operation with arguments of its own keeps a memo table that lives as long as the
call. Its table and the state of the manager pass through the recursion together.
-/

set_option autoImplicit false

namespace DecisionDiagram.Manager

variable {Key : Type} [BEq Key] [Hashable Key] {Under : Type → Type} [Monad Under]

/-- An action that remembers edges under keys. -/
abbrev Memoized (Key : Type) [BEq Key] [Hashable Key] (Result : Type) :=
  StateT (Memo Key Edge) (EStateM Fault Manager) Result

/-- The remembered answer for a key, or the answer of `work`, which is then remembered. -/
@[inline] def remembering (key : Key) (work : StateT (Memo Key Edge) Under Edge) :
    StateT (Memo Key Edge) Under Edge := do
  match (← get).find? key with
  | some edge => return edge
  | none =>
    let edge ← work
    modify (·.insert key edge)
    return edge

/-- Runs a remembering action with an empty table. -/
def withMemo {Result : Type} [MonadStateOf Manager Under]
    (action : StateT (Memo Key Edge) Under Result) : Under Result := do
  let recalls := (← getThe Manager).recalls
  action.run' (.empty recalls)

end DecisionDiagram.Manager
