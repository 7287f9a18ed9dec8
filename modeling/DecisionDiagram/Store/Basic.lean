import DecisionDiagram.Fault

/-!
# Stores

A store has a fixed number of slots, a power of two. A slot holds a value, says whether it is in
use, and links to another slot. Buckets are the entry points of chains of linked slots. Slot 0
stands for "no slot": it ends every chain, is never handed out, and may not be read or written.

An action on a store either yields a result or faults; in both cases it leaves a store behind.
-/

set_option autoImplicit false

namespace DecisionDiagram

structure Slot (Value : Type) where
  value : Value
  next : Nat
  occupied : Bool
deriving DecidableEq

/-- `minFree` is a lower bound of the free slots, `lastUsed` the last slot ever handed out, and
`liveCount` the number of slots in use, slot 0 apart. -/
structure Store (Value : Type) where
  slots : Array (Slot Value)
  buckets : Array Nat
  minFree : Nat
  lastUsed : Nat
  liveCount : Nat

namespace Store

variable {Value : Type}

abbrev Action (Value Result : Type) := EStateM Fault (Store Value) Result

/-- The largest exponent of a number of slots or buckets. -/
def maxBits : Nat := 31

def checkBits (bits bucketBits : Nat) : Except Fault Unit := do
  if maxBits < bits then throw .storageBitsTooLarge
  if maxBits < bucketBits then throw .bucketBitsTooLarge

/-- A store without values. Slot 0 counts as in use so that no search for a free slot finds it. -/
def create [Inhabited Value] (bits bucketBits : Nat) : Except Fault (Store Value) := do
  checkBits bits bucketBits
  let slots := Array.replicate (1 <<< bits) ⟨default, 0, false⟩
  return {
    slots := slots.modify 0 fun slot => { slot with occupied := true }
    buckets := Array.replicate (1 <<< bucketBits) 0
    minFree := 1
    lastUsed := 0
    liveCount := 0 }

/-- The number of slots, slot 0 included. -/
def capacity (store : Store Value) : Nat := store.slots.size

def bucketCount (store : Store Value) : Nat := store.buckets.size

/-! ## Reading -/

def slotAt (store : Store Value) (index : Nat) : Except Fault (Slot Value) :=
  match store.slots[index]? with
  | some slot => .ok slot
  | none => .error (.outOfBounds store.slots.size index)

/-- A slot that stands for itself. -/
def slot (store : Store Value) (index : Nat) : Except Fault (Slot Value) :=
  if index = 0 then .error .zeroIndex else store.slotAt index

def value (store : Store Value) (index : Nat) : Except Fault Value :=
  return (← store.slot index).value

def isOccupied (store : Store Value) (index : Nat) : Except Fault Bool :=
  return (← store.slot index).occupied

def next (store : Store Value) (index : Nat) : Except Fault Nat :=
  return (← store.slot index).next

def bucket (store : Store Value) (number : Nat) : Except Fault Nat :=
  match store.buckets[number]? with
  | some head => .ok head
  | none => .error (.outOfBounds store.buckets.size number)

/-! ## Writing links -/

def updateSlot (index : Nat) (change : Slot Value → Slot Value) : Action Value Unit :=
  modify fun store => { store with slots := store.slots.modify index change }

def setNext (index next : Nat) : Action Value Unit := do
  let _ ← (← get).slot index
  updateSlot index fun slot => { slot with next := next }

def setBucket (number head : Nat) : Action Value Unit := do
  let _ ← (← get).bucket number
  modify fun store => { store with buckets := store.buckets.setIfInBounds number head }

end Store

end DecisionDiagram
