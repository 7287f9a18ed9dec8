import DecisionDiagram.Edge.Basic
import DecisionDiagram.Pairing
import DecisionDiagram.Store.BucketHash

/-!
# Nodes

A node tests a variable and has an edge for each outcome. The terminal carries variable zero and
points at itself.
-/

set_option autoImplicit false

namespace DecisionDiagram

structure Node where
  var : Nat
  low : Edge
  high : Edge
deriving DecidableEq

namespace Node

def terminal : Node := ⟨0, Edge.one, Edge.one⟩

instance : Inhabited Node := ⟨terminal⟩

/-- Signs do not matter for the bucket: a node and the node with complemented children share it. -/
instance : BucketHash Node :=
  ⟨fun node =>
    Pairing.triple (UInt64.ofNat node.var) (UInt64.ofNat node.low.index)
      (UInt64.ofNat node.high.index)⟩

def text (node : Node) : String :=
  "Node \x7b variable: " ++ toString node.var ++ ", low: Ref(" ++ toString node.low.code ++
    "), high: Ref(" ++ toString node.high.code ++ ") \x7d"

end Node

end DecisionDiagram
