import DecisionDiagram.Store.Allocation
import DecisionDiagram.Store.BucketHash

/-!
# The unique table

Putting a value into a store finds the slot of an equal value or stores the value once. Values
with the same bucket are chained in the order in which they came; a new one goes to the end.

A chain visits no slot twice, so a walk along it takes at most as many steps as there are slots.
-/

set_option autoImplicit false

namespace DecisionDiagram.Store

variable {Value : Type}

/-- The slots from `index` to the end of its chain. -/
def chainFrom (store : Store Value) : Nat → Nat → Except Fault (List Nat)
  | _, 0 => return []
  | 0, _ + 1 => throw .depthExceeded
  | fuel + 1, index => do
    let slot ← store.slotAt index
    return index :: (← chainFrom store fuel slot.next)

def chain (store : Store Value) (number : Nat) : Except Fault (List Nat) := do
  chainFrom store store.capacity (← store.bucket number)

/-- The length of every bucket's chain. -/
def chainLengths (store : Store Value) : Except Fault (List Nat) :=
  store.buckets.toList.mapM fun head =>
    return (← chainFrom store store.capacity head).length

section

variable [BucketHash Value]

/-- The bucket of a value among `count` buckets. -/
def bucketAmong (count : Nat) (value : Value) : Nat :=
  (bucketHash value % UInt64.ofNat count).toNat

def bucketIndex (store : Store Value) (value : Value) : Nat := bucketAmong store.bucketCount value

variable [BEq Value]

/-- Where a search along a chain ends. -/
inductive Search where
  /-- At the slot that holds an equal value. -/
  | found (index : Nat)
  /-- At the last slot of the chain, without success. -/
  | missing (last : Nat)

def searchFrom (store : Store Value) (value : Value) : Nat → Nat → Except Fault Search
  | 0, _ => throw .depthExceeded
  | fuel + 1, index => do
    let slot ← store.slotAt index
    unless slot.occupied do throw .freeSlotInChain
    if slot.value == value then
      return .found index
    else if slot.next = 0 then
      return .missing index
    else
      searchFrom store value fuel slot.next

def put (value : Value) : Action Value Nat := do
  let number := (← get).bucketIndex value
  let head ← (← get).bucket number
  if head = 0 then
    let index ← add value
    setBucket number index
    return index
  else
    match ← (← get).searchFrom value (← get).capacity head with
    | .found index => return index
    | .missing last =>
      let index ← add value
      setNext last index
      return index

end

end DecisionDiagram.Store
