import DecisionDiagram.Store.Basic

/-!
# Handing out slots

Slots are handed out lowest first. The search starts at `minFree` and ends behind the last slot
ever used, where the first untouched slot lies. A full store refuses and stays as it is.
-/

set_option autoImplicit false

namespace DecisionDiagram.Store

variable {Value : Type}

/-- The first free slot among the `count` slots from `index` on, or the slot behind them. -/
def firstFreeFrom (slots : Array (Slot Value)) : Nat → Nat → Nat
  | 0, index => index
  | count + 1, index =>
    match slots[index]? with
    | some slot => if slot.occupied then firstFreeFrom slots count (index + 1) else index
    | none => index

def firstFree (store : Store Value) : Nat :=
  firstFreeFrom store.slots (store.lastUsed + 1 - store.minFree) store.minFree

def allocate : Action Value Nat := do
  let index := (← get).firstFree
  if index < (← get).capacity then
    modify fun store =>
      { store with
        slots := store.slots.modify index fun slot => { slot with occupied := true }
        minFree := index + 1
        lastUsed := max store.lastUsed index
        liveCount := store.liveCount + 1 }
    return index
  else
    throw (.storageFull (← get).capacity)

/-- Gives a slot back. Its value stays until the slot is handed out again. -/
def free (index : Nat) : Action Value Unit := do
  let slot ← (← get).slot index
  unless slot.occupied do throw (.slotNotOccupied index)
  modify fun store =>
    { store with
      slots := store.slots.modify index fun slot => { slot with next := 0, occupied := false }
      minFree := min store.minFree index
      liveCount := store.liveCount - 1 }

/-- Stores a value in a slot of its own, outside every chain. -/
def add (value : Value) : Action Value Nat := do
  let index ← allocate
  updateSlot index fun slot => { slot with value := value, next := 0 }
  return index

end DecisionDiagram.Store
