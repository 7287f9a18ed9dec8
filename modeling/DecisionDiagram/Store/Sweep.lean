import DecisionDiagram.Store.UniqueTable

/-!
# Sweeping the chains

A sweep frees every chained slot that is not marked and links what remains of each chain in the
order it had.
-/

set_option autoImplicit false

namespace DecisionDiagram.Store

variable {Value : Type}

/-- Sweeps a chain from `index` on and returns the head of what remains. -/
def sweepFrom (marked : Nat → Bool) : Nat → Nat → Action Value Nat
  | _, 0 => return 0
  | 0, _ + 1 => throw .depthExceeded
  | fuel + 1, index => do
    let next ← (← get).next index
    let rest ← sweepFrom marked fuel next
    if marked index then
      setNext index rest
      return index
    else
      free index
      return rest

def sweepBucket (marked : Nat → Bool) (number : Nat) : Action Value Unit := do
  let head ← (← get).bucket number
  unless head = 0 do
    setBucket number (← sweepFrom marked (← get).capacity head)

/-- Sweeps the first `count` buckets. -/
def sweepBuckets (marked : Nat → Bool) : Nat → Action Value Unit
  | 0 => return
  | count + 1 => do
    sweepBucket marked count
    sweepBuckets marked count

def sweep (marked : Nat → Bool) : Action Value Unit := do
  sweepBuckets marked (← get).bucketCount

end DecisionDiagram.Store
