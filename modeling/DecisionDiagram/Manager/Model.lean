import DecisionDiagram.Manager.Basic
import Std.Data.HashMap

/-!
# Values and models

The value of a function under an assignment, one model of it, and the number of its models. The
variable `v` is found at position `v - 1` of an assignment.
-/

set_option autoImplicit false

namespace DecisionDiagram.Manager

/-- The position of a variable in an assignment. -/
def position (var : Nat) : Except Fault Nat :=
  if var = 0 then .error .subtractOverflow else .ok (var - 1)

def valueStep (manager : Manager) (assignment : List Bool) (self : Edge → Except Fault Bool)
    (edge : Edge) : Except Fault Bool := do
  if edge.isTerminal then
    return edge = .one
  else
    let index ← position (← manager.var edge.index)
    match assignment[index]? with
    | some true => self (← manager.highOf edge)
    | some false => self (← manager.lowOf edge)
    | none => throw (.outOfBounds assignment.length index)

def valueWithin (manager : Manager) (assignment : List Bool) : Nat → Edge → Except Fault Bool
  | 0, _ => throw .depthExceeded
  | fuel + 1, edge => manager.valueStep assignment (valueWithin manager assignment fuel) edge

def value (manager : Manager) (edge : Edge) (assignment : List Bool) : Except Fault Bool :=
  manager.valueWithin assignment manager.depthBound edge

/-- The values under all assignments of `count` variables. Bit `v - 1` of an assignment's number
is the value of the variable `v`. -/
def truthTable (manager : Manager) (edge : Edge) (count : Nat) : Except Fault (List Bool) :=
  (List.range (1 <<< count)).mapM fun number =>
    manager.value edge ((List.range count).map number.testBit)

/-- A partial assignment: the variables that it leaves open do not matter. -/
abbrev PartialAssignment := List (Option Bool)

def pathStep (manager : Manager) (count : Nat)
    (self : Edge → Except Fault (Option (List (Nat × Bool)))) (edge : Edge) :
    Except Fault (Option (List (Nat × Bool))) := do
  if edge.isTerminal then
    return if edge = .one then some [] else none
  else
    let var ← manager.var edge.index
    if count < var then throw (.variableOutOfRange var count)
    let _ ← position var
    match ← self (← manager.highOf edge) with
    | some path => return some ((var, true) :: path)
    | none =>
      match ← self (← manager.lowOf edge) with
      | some path => return some ((var, false) :: path)
      | none => return none

/-- The choices on a path to the constant true, if there is one, trying true first. Only the
variables from 1 to `count` may be met. -/
def pathWithin (manager : Manager) (count : Nat) :
    Nat → Edge → Except Fault (Option (List (Nat × Bool)))
  | 0, _ => throw .depthExceeded
  | fuel + 1, edge => manager.pathStep count (pathWithin manager count fuel) edge

/-- The choices of a path, laid out over `count` variables. -/
def layOut (count : Nat) (path : List (Nat × Bool)) : PartialAssignment :=
  let blank : Array (Option Bool) := Array.replicate count none
  (path.foldl (fun cells (var, value) => cells.setIfInBounds (var - 1) (some value)) blank).toList

/-- One model over `count` variables, or nothing for the constant false. -/
def model? (manager : Manager) (edge : Edge) (count : Nat) :
    Except Fault (Option PartialAssignment) := do
  return (← manager.pathWithin count manager.depthBound edge).map (layOut count)

/-- One model over `count` variables as a list. A function without models has the empty list. -/
def model (manager : Manager) (edge : Edge) (count : Nat) : Except Fault PartialAssignment :=
  return (← manager.model? edge count).getD []

abbrev Counting := StateT (Std.HashMap Edge Nat) (Except Fault) Nat

def countStep (manager : Manager) (total : Nat) (self : Edge → Counting) (edge : Edge) :
    Counting := do
  if edge = .zero then return 0
  else if edge = .one then return total
  else
    match (← get)[edge]? with
    | some count => return count
    | none =>
      let low ← self (← manager.low edge.index)
      let high ← self (← manager.high edge.index)
      let half := (low + high) / 2
      let count ←
        if edge.isNegated then
          if half ≤ total then pure (total - half) else throw .countUnderflow
        else
          pure half
      modify (·.insert edge count)
      return count

/-- Counts the models among `total` assignments. Each child has the models of half of them,
whichever variables it skips. -/
def countWithin (manager : Manager) (total : Nat) : Nat → Edge → Counting
  | 0, _ => throw .depthExceeded
  | fuel + 1, edge => manager.countStep total (countWithin manager total fuel) edge

/-- The number of models over `count` variables. -/
def modelCount (manager : Manager) (edge : Edge) (count : Nat) : Except Fault Nat :=
  (manager.countWithin (1 <<< count) manager.depthBound edge).run' ∅

end DecisionDiagram.Manager
