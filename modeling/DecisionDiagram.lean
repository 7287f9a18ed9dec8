import DecisionDiagram.Circuit.Eval
import DecisionDiagram.Manager.Call
import DecisionDiagram.Manager.Inspect
import DecisionDiagram.Manager.Model
import DecisionDiagram.Proofs.Action
import DecisionDiagram.Proofs.Memo
import DecisionDiagram.Proofs.Pairing
import DecisionDiagram.Proofs.SortedList
import DecisionDiagram.Proofs.Tree
import DecisionDiagram.Proofs.Store.Contents
import DecisionDiagram.Proofs.Store.Allocation
import DecisionDiagram.Proofs.Store.Chain
import DecisionDiagram.Proofs.Store.UniqueTable
import DecisionDiagram.Proofs.Store.Sweep
import DecisionDiagram.Proofs.Store.Walks
import DecisionDiagram.Proofs.Store.Create
import DecisionDiagram.Proofs.Store.Allocator
import DecisionDiagram.Proofs.Store.Interning
import DecisionDiagram.Proofs.Diagram.BoolFunction
import DecisionDiagram.Proofs.Diagram.Quantified
import DecisionDiagram.Proofs.Diagram.Models
import DecisionDiagram.Proofs.Diagram.Canonical
import DecisionDiagram.Proofs.Diagram.Reach
import DecisionDiagram.Proofs.Diagram.Canonicity
import DecisionDiagram.Proofs.Diagram.Growth
import DecisionDiagram.Proofs.Diagram.Represents
import DecisionDiagram.Proofs.Diagram.Depth
import DecisionDiagram.Proofs.Diagram.Functions
import DecisionDiagram.Proofs.Diagram.Descent
import DecisionDiagram.Proofs.Diagram.Residual
import DecisionDiagram.Proofs.Circuit.Growth
import DecisionDiagram.Proofs.Circuit.Layers
import DecisionDiagram.Proofs.Circuit.Values
import DecisionDiagram.Proofs.Circuit.Derived
import DecisionDiagram.Proofs.Circuit.Layering
import DecisionDiagram.Proofs.Circuit.Evaluation
import DecisionDiagram.Proofs.Circuit.Refusal
import DecisionDiagram.Proofs.Manager.Questions
import DecisionDiagram.Proofs.Manager.ModelSearch
import DecisionDiagram.Proofs.Manager.ModelCount
import DecisionDiagram.Proofs.Manager.Unfold
import DecisionDiagram.Proofs.Manager.Sound
import DecisionDiagram.Proofs.Manager.Steady
import DecisionDiagram.Proofs.Manager.Confined
import DecisionDiagram.Proofs.Manager.Recursion
import DecisionDiagram.Proofs.Manager.Task
import DecisionDiagram.Proofs.Manager.Construct
import DecisionDiagram.Proofs.Manager.Cube
import DecisionDiagram.Proofs.Manager.Apply
import DecisionDiagram.Proofs.Manager.Replace
import DecisionDiagram.Proofs.Manager.Quantify
import DecisionDiagram.Proofs.Manager.Termination
import DecisionDiagram.Proofs.Manager.Traversal
import DecisionDiagram.Proofs.Manager.WeightedSum
import DecisionDiagram.Proofs.Manager.TrueWeight
import DecisionDiagram.Proofs.Manager.WordBounds
import DecisionDiagram.Proofs.Manager.Reach
import DecisionDiagram.Proofs.Manager.Repeat
import DecisionDiagram.Proofs.Manager.Join
import DecisionDiagram.Proofs.Manager.Collect
import DecisionDiagram.Proofs.Manager.Twins
import DecisionDiagram.Proofs.Manager.Translate
import DecisionDiagram.Proofs.Manager.Render
import DecisionDiagram.Proofs.Manager.Create
import DecisionDiagram.Proofs.Manager.Literal
import DecisionDiagram.Proofs.Manager.Instruction
import DecisionDiagram.Proofs.Manager.Run
import DecisionDiagram.Proofs.Run.WellFormed
import DecisionDiagram.Proofs.Run.Equality
import DecisionDiagram.Proofs.Run.Connectives
import DecisionDiagram.Proofs.Run.Collection
import DecisionDiagram.Proofs.Run.Caches
import DecisionDiagram.Proofs.Run.Preservation
import DecisionDiagram.Proofs.Run.Translation
import DecisionDiagram.Proofs.Run.Miter
import DecisionDiagram.Proofs.Run.Transparency
import DecisionDiagram.Proofs.Run.Program
import DecisionDiagram.Proofs.Run.Independence
import DecisionDiagram.Proofs.Run.Capacity
import DecisionDiagram.Proofs.Run.Sequence
import DecisionDiagram.Proofs.Run.Repetition
import DecisionDiagram.Proofs.Run.Pins
import DecisionDiagram.Proofs.Run.WeightedSum
import DecisionDiagram.Proofs.Run.Agreement
import DecisionDiagram.Proofs.Run.Substitution
import DecisionDiagram.Proofs.Run.Quantification
import DecisionDiagram.Proofs.Run.Cofactors
import DecisionDiagram.Proofs.Run.Node
import DecisionDiagram.Proofs.Run.ModelCount
import DecisionDiagram.Proofs.Run.ModelSearch
import DecisionDiagram.Proofs.Run.Join
import DecisionDiagram.Proofs.Run.LiteralJoin
import DecisionDiagram.Proofs.Run.Literal
import DecisionDiagram.Proofs.Run.Size
import DecisionDiagram.Proofs.Run.Reach
import DecisionDiagram.Proofs.Run.Rendering
import DecisionDiagram.Proofs.Run.Termination
