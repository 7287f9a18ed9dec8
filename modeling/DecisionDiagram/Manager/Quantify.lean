import DecisionDiagram.Manager.Memoized

/-!
# Quantifying variables away

`existsVars` gives the function that holds where some values of the variables make the operand
true, `forallVars` where all do. The relational product quantifies a conjunction without building
it.

The variables are put in ascending order first, so that a descent drops those it has passed.
-/

set_option autoImplicit false

namespace DecisionDiagram.Manager

def sortedVars (vars : List Nat) : Except Fault (List Nat) := do
  if 0 ∈ vars then throw .zeroVariable
  return sortDistinct (fun first second => first ≤ second) vars

/-- One step of a quantification, with `self` for the functions below. -/
def existsStep (self : List Nat → Edge → Memoized Edge Edge) (vars : List Nat) (edge : Edge) :
    Memoized Edge Edge := do
  if edge.isTerminal then
    return edge
  else
    let top ← ask (·.var edge.index)
    match vars.dropWhile (· < top) with
    | [] => return edge
    | next :: rest =>
      remembering edge do
        let low ← self (next :: rest) (← ask (·.lowOf edge))
        let high ← self (next :: rest) (← ask (·.highOf edge))
        if next = top then or low high else node top low high

def existsWithin : Nat → List Nat → Edge → Memoized Edge Edge
  | 0, _, _ => throw .depthExceeded
  | fuel + 1, vars, edge => existsStep (existsWithin fuel) vars edge

def existsIn (vars : List Nat) (edge : Edge) : Memoized Edge Edge := do
  existsWithin (← getThe Manager).depthBound vars edge

def existsVars (edge : Edge) (vars : List Nat) : Action Edge := do
  let vars ← sortedVars vars
  withMemo (existsIn vars edge)

def forallVars (edge : Edge) (vars : List Nat) : Action Edge := do
  (← existsVars (← edge.negate) vars).negate

/-- A relational product remembers the pairs that it meets and, below them, the functions that it
quantifies alone. -/
abbrev PairMemoized (Result : Type) :=
  StateT (Memo (Edge × Edge) Edge) (StateT (Memo Edge Edge) (EStateM Fault Manager)) Result

/-- One step of a relational product, with `self` for the functions below. -/
def relProductStep (vars : List Nat) (self : Edge → Edge → PairMemoized Edge)
    (first second : Edge) : PairMemoized Edge := do
  if first = .zero ∨ second = .zero then return .zero
  else if first = (← second.negate) then return .zero
  else if first = .one then existsIn vars second
  else if second = .one ∨ first = second then existsIn vars first
  else
    remembering (sharedKey first second) do
      let top ← ask (·.topVar [first, second])
      let (first0, first1) ← ask (·.cofactors first top)
      let (second0, second1) ← ask (·.cofactors second top)
      let low ← self first0 second0
      if top ∈ vars then
        if low = .one then
          return .one
        else
          let high ← self first1 second1
          or low high
      else
        let high ← self first1 second1
        node top low high

def relProductWithin (vars : List Nat) : Nat → Edge → Edge → PairMemoized Edge
  | 0, _, _ => throw .depthExceeded
  | fuel + 1, first, second => relProductStep vars (relProductWithin vars fuel) first second

/-- The conjunction of two functions with the variables quantified away. -/
def relProduct (first second : Edge) (vars : List Nat) : Action Edge := do
  let vars ← sortedVars vars
  let bound := (← get).depthBound
  withMemo (withMemo (relProductWithin vars bound first second))

end DecisionDiagram.Manager
