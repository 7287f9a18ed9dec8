import DecisionDiagram.Manager.Reach

/-!
# Pinned edges and reclaiming nodes

A collection frees every node that cannot be reached from the given edges, a pinned edge or the
terminal. All caches are emptied first, since their entries may name nodes that are freed.
-/

set_option autoImplicit false

namespace DecisionDiagram.Manager

def pin (edge : Edge) : Action Unit :=
  modify fun manager => { manager with pinned := manager.pinned.insert edge }

/-- Whether the edge was pinned. -/
def unpin (edge : Edge) : Action Bool :=
  modifyGet fun manager =>
    (manager.pinned.contains edge, { manager with pinned := manager.pinned.erase edge })

/-- The pinned edges in the order of their signed numbers. -/
def pinnedEdges (manager : Manager) : List Edge := manager.pinned.mergeSort Edge.le

def collect (edges : List Edge) : Action Unit := do
  changeCaches Caches.clear
  let marked ← ask fun manager => manager.reachable (edges ++ manager.pinned)
  onStore (Store.sweep marked.contains)

end DecisionDiagram.Manager
