import DecisionDiagram.Manager.Apply
import DecisionDiagram.Manager.Reach

/-!
# Joining many functions

The conjunction and disjunction of a list, taken from the left, and the conjunction that always
joins the two smallest functions first. Functions of one size are taken in the order of their
signed numbers.
-/

set_option autoImplicit false

namespace DecisionDiagram.Manager

def andAll (edges : List Edge) : Action Edge := edges.foldlM and .one

def orAll (edges : List Edge) : Action Edge := edges.foldlM or .zero

/-- Puts a function into a queue that is ordered by size and then by signed number. -/
def enqueue (size : Nat) (edge : Edge) : List (Nat × Edge) → List (Nat × Edge)
  | [] => [(size, edge)]
  | (otherSize, other) :: rest =>
    if size < otherSize ∨ (size = otherSize ∧ edge.code ≤ other.code) then
      (size, edge) :: (otherSize, other) :: rest
    else
      (otherSize, other) :: enqueue size edge rest

theorem length_enqueue (size : Nat) (edge : Edge) (queue : List (Nat × Edge)) :
    (enqueue size edge queue).length = queue.length + 1 := by
  induction queue with
  | nil => rfl
  | cons first rest ih =>
    simp only [enqueue]
    split
    · rfl
    · simp [ih]

def joinQueue (queue : List (Nat × Edge)) : Action Edge :=
  match queue with
  | [] => return .one
  | [(_, last)] => return last
  | (_, first) :: (_, second) :: rest => do
    let joined ← and first second
    let count ← size joined
    joinQueue (enqueue count joined rest)
termination_by queue.length
decreasing_by simp [length_enqueue]

/-- The conjunction of the edges, always joining the two smallest first. -/
def andSmallestFirst (edges : List Edge) : Action Edge := do
  let sizes ← edges.mapM size
  joinQueue ((sizes.zip edges).foldl (fun queue (count, edge) => enqueue count edge queue) [])

end DecisionDiagram.Manager
