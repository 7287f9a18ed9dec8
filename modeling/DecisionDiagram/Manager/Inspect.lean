import DecisionDiagram.Manager.Basic
import DecisionDiagram.Tree

/-!
# Looking into a manager

The unfolded tree of a function, the contents of slots, the lengths of the bucket chains, and a
summary of the store.
-/

set_option autoImplicit false

namespace DecisionDiagram

/-- What a slot in use holds, with edges as signed numbers. The terminal shows three zeros. -/
structure Triplet where
  var : Nat
  low : Int
  high : Int
deriving DecidableEq

def Triplet.text (triplet : Triplet) : String :=
  "(" ++ toString triplet.var ++ ", " ++ toString triplet.low ++ ", " ++
    toString triplet.high ++ ")"

namespace Manager

def treeStep (manager : Manager) (self : Edge → Except Fault Tree) (edge : Edge) :
    Except Fault Tree := do
  if edge.isTerminal then
    return .leaf (edge = .one)
  else
    let var ← manager.var edge.index
    let high ← self (← manager.highOf edge)
    let low ← self (← manager.lowOf edge)
    return .branch var high low

def treeWithin (manager : Manager) : Nat → Edge → Except Fault Tree
  | 0, _ => throw .depthExceeded
  | fuel + 1, edge => manager.treeStep (treeWithin manager fuel) edge

def tree (manager : Manager) (edge : Edge) : Except Fault Tree :=
  manager.treeWithin manager.depthBound edge

/-- The tree of an edge with brackets around each variable and its two branches. -/
def bracketText (manager : Manager) (edge : Edge) : Except Fault String :=
  return (← manager.tree edge).text

/-- The contents of a slot, if it is in use. -/
def triplet? (manager : Manager) (index : Nat) : Option Triplet :=
  if index = 0 then
    none
  else
    match manager.store.slots[index]? with
    | none => none
    | some slot =>
      if !slot.occupied then none
      else if index = Edge.one.index then some ⟨0, 0, 0⟩
      else some ⟨slot.value.var, slot.value.low.code, slot.value.high.code⟩

/-- The contents and the link of every slot from the first to the last ever used. -/
def dump (manager : Manager) : Except Fault (List (Option Triplet × Nat)) :=
  (List.range' 1 manager.store.lastUsed).mapM fun index =>
    return (manager.triplet? index, ← manager.store.next index)

def maxChain (manager : Manager) : Except Fault Nat :=
  return (← manager.store.chainLengths).foldl max 0

def cacheStats (manager : Manager) : List CacheStats := manager.caches.stats

def summary (manager : Manager) : String :=
  "Bdd \x7b capacity: " ++ toString manager.store.capacity ++ ", size: " ++
    toString manager.store.lastUsed ++ ", real_size: " ++ toString manager.store.liveCount ++
    ", buckets: " ++ toString manager.store.bucketCount ++ " \x7d"

end Manager

end DecisionDiagram
