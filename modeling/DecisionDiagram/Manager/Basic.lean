import DecisionDiagram.Config
import DecisionDiagram.Edge.Checked
import DecisionDiagram.Manager.Caches
import DecisionDiagram.Node
import DecisionDiagram.Store.Sweep

/-!
# Managers

A manager owns the nodes of all functions built with it, remembers earlier answers, and keeps a
set of pinned edges. The terminal lies in slot 1 and in no bucket.

An operation either yields a result or faults. A fault undoes nothing: nodes and remembered
answers from before it stay. Questions only read a manager.
-/

set_option autoImplicit false

namespace DecisionDiagram

/-- With `recalls` off no remembered answer is ever used, neither between calls nor within one. -/
structure Manager where
  store : Store Node
  caches : Caches
  pinned : List Edge
  recalls : Bool

namespace Manager

abbrev Action (Result : Type) := EStateM Fault Manager Result

def createWith (recalls : Bool) (config : Config) : Except Fault Manager := do
  config.validate
  let store ← Store.create config.storageBits config.bucketBits
  match Store.add Node.terminal store with
  | .ok _ store => return ⟨store, .empty recalls, [], recalls⟩
  | .error fault _ => throw fault

def create (config : Config) : Except Fault Manager := createWith true config

section

variable {Result : Type}

/-- Puts a question to the manager. -/
def ask (question : Manager → Except Fault Result) : Action Result := fun manager =>
  match question manager with
  | .ok result => .ok result manager
  | .error fault => .error fault manager

/-- Acts on the store alone. -/
def onStore (action : Store.Action Node Result) : Action Result
  | ⟨store, caches, pinned, recalls⟩ =>
    match action store with
    | .ok result store => .ok result ⟨store, caches, pinned, recalls⟩
    | .error fault store => .error fault ⟨store, caches, pinned, recalls⟩

/-- Consults the caches, which count the look-up. -/
def onCaches (look : Caches → Result × Caches) : Action Result
  | ⟨store, caches, pinned, recalls⟩ =>
    match look caches with
    | (result, caches) => .ok result ⟨store, caches, pinned, recalls⟩

end

def changeCaches (change : Caches → Caches) : Action Unit
  | ⟨store, caches, pinned, recalls⟩ => .ok () ⟨store, change caches, pinned, recalls⟩

/-! ## Reading nodes -/

def var (manager : Manager) (index : Nat) : Except Fault Nat :=
  return (← manager.store.value index).var

def low (manager : Manager) (index : Nat) : Except Fault Edge :=
  return (← manager.store.value index).low

def high (manager : Manager) (index : Nat) : Except Fault Edge :=
  return (← manager.store.value index).high

/-- The low child of an edge's node, with the sign of the edge pushed down. -/
def lowOf (manager : Manager) (edge : Edge) : Except Fault Edge := do
  (← manager.low edge.index).negateIf edge.isNegated

/-- The high child of an edge's node, with the sign of the edge pushed down. -/
def highOf (manager : Manager) (edge : Edge) : Except Fault Edge := do
  (← manager.high edge.index).negateIf edge.isNegated

/-- The functions that `edge` stands for when `var` is false and when it is true. The variable
must not lie below the edge's own. -/
def cofactors (manager : Manager) (edge : Edge) (var : Nat) : Except Fault (Edge × Edge) := do
  if var = 0 then throw .zeroVariable
  if edge.isTerminal then
    return (edge, edge)
  else
    let top ← manager.var edge.index
    if var < top then
      return (edge, edge)
    else if var = top then
      let low ← manager.lowOf edge
      let high ← manager.highOf edge
      return (low, high)
    else
      throw (.cofactorBelowTop var top)

/-- The smallest variable at the top of the edges, zero if all of them are constant. -/
def topVar (manager : Manager) (edges : List Edge) : Except Fault Nat := do
  let vars ← (edges.filter fun edge => !edge.isTerminal).mapM fun edge => manager.var edge.index
  return vars.min?.getD 0

/-- Each step of a descent moves at least one of at most three operands to a child. A path meets
no slot twice, so this many steps suffice, the one that sees that all have arrived included. -/
def depthBound (manager : Manager) : Nat := 3 * (manager.store.lastUsed + 1)

end Manager

end DecisionDiagram
