import DecisionDiagram.Manager.Basic
import Std.Data.HashSet

/-!
# Reachable nodes and sizes

The slots that can be reached from some edges by following low and high edges, the terminal
included. The size of an edge is their number.
-/

set_option autoImplicit false

namespace DecisionDiagram.Manager

/-- Visits the pending slots and everything below them that is not visited yet. A slot is expanded
once and adds at most two pending slots, which bounds the number of steps. -/
def visit (manager : Manager) : Nat → List Nat → Std.HashSet Nat → Except Fault (Std.HashSet Nat)
  | _, [], visited => return visited
  | 0, _ :: _, _ => throw .depthExceeded
  | fuel + 1, index :: pending, visited => do
    if visited.contains index then
      visit manager fuel pending visited
    else
      let node ← manager.store.value index
      let visited := visited.insert index
      let children := [node.high.index, node.low.index].filter fun child => !visited.contains child
      visit manager fuel (children ++ pending) visited

/-- The slots that are reachable from the edges. The last edge is visited first, and of two
children the high one. -/
def reachable (manager : Manager) (edges : List Edge) : Except Fault (Std.HashSet Nat) :=
  let roots := (edges.filter fun edge => !edge.isTerminal).map Edge.index
  let bound := roots.length + 2 * manager.store.capacity
  manager.visit bound roots.reverse (Std.HashSet.emptyWithCapacity.insert Edge.one.index)

/-- The reachable slots in ascending order. -/
def reachableSlots (manager : Manager) (edges : List Edge) : Except Fault (List Nat) :=
  return (← manager.reachable edges).toList.mergeSort

/-- The number of nodes reachable from an edge. -/
def size (edge : Edge) : Action Nat := do
  match ← onCaches (·.lookupSize edge) with
  | some count => return count
  | none =>
    let slots ← ask (·.reachable [edge])
    changeCaches (·.insertSize edge slots.size)
    return slots.size

end DecisionDiagram.Manager
