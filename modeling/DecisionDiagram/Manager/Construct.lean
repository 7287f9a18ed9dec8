import DecisionDiagram.Manager.Basic
import DecisionDiagram.SortedList

/-!
# Building nodes, literals, cubes and clauses

Every node is built by `node`, which keeps diagrams in normal form: a high edge is never
complemented, the two edges differ, variables grow downwards, and a node is stored once.

A literal is a nonzero number: `v` stands for the variable `v`, `-v` for its complement.
-/

set_option autoImplicit false

namespace DecisionDiagram.Manager

/-- A child must be the terminal or test a later variable than its parent. -/
def checkOrder (manager : Manager) (var : Nat) (child : Edge) : Except Fault Unit := do
  let childVar ← manager.var child.index
  unless childVar = 0 ∨ var < childVar do throw (.orderViolated child childVar var)

/-- The edge for "if `var` then `high` else `low`", when `high` is not complemented. -/
def regularNode (var : Nat) (low high : Edge) : Action Edge := do
  if low = high then
    return low
  else
    ask (·.checkOrder var low)
    ask (·.checkOrder var high)
    let index ← onStore (Store.put ⟨var, low, high⟩)
    Edge.positive index

/-- The edge for "if `var` then `high` else `low`". A complemented high edge is made regular by
complementing both children and the result. -/
def node (var : Nat) (low high : Edge) : Action Edge := do
  if var = 0 then throw .zeroVariable
  if high.isNegated then
    let low ← low.negate
    let high ← high.negate
    (← regularNode var low high).negate
  else
    regularNode var low high

def literal (literal : Int) : Action Edge := do
  if literal = 0 then throw .zeroVariable
  if literal < 0 then
    let opposite ← negateCode literal
    (← node opposite.natAbs .zero .one).negate
  else
    node literal.natAbs .zero .one

/-- Larger variables first; of the two literals of one variable, the complement first. -/
def literalBefore (first second : Int) : Bool :=
  second.natAbs < first.natAbs || (first.natAbs == second.natAbs && first ≤ second)

/-- Whether two neighbours are the two literals of one variable. -/
def opposedNeighbours : List Int → Except Fault Bool
  | first :: second :: rest => do
    if first = (← negateCode second) then return true
    else opposedNeighbours (second :: rest)
  | _ => return false

/-- The literals in building order, each once, or nothing if some variable occurs with both
signs. -/
def sortedLiterals (literals : List Int) : Except Fault (Option (List Int)) := do
  if 0 ∈ literals then throw .zeroVariable
  let sorted := sortDistinct literalBefore literals
  if ← opposedNeighbours sorted then
    return none
  else
    return some sorted

/-- The conjunction of literals, built from the largest variable upwards. -/
def cube (literals : List Int) : Action Edge := do
  match ← sortedLiterals literals with
  | none => return .zero
  | some sorted =>
    sorted.foldlM (fun rest literal =>
      if literal < 0 then node literal.natAbs rest .zero else node literal.natAbs .zero rest)
      .one

/-- The disjunction of literals, built from the largest variable upwards. -/
def clause (literals : List Int) : Action Edge := do
  match ← sortedLiterals literals with
  | none => return .one
  | some sorted =>
    sorted.foldlM (fun rest literal =>
      if literal < 0 then node literal.natAbs .one rest else node literal.natAbs rest .one)
      .zero

def clauses (literalLists : List (List Int)) : Action (List Edge) := literalLists.mapM clause

end DecisionDiagram.Manager
