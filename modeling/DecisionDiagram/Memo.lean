import Std.Data.HashMap

/-!
# Memo tables

A table of answers that were worked out before. A table whose `recalls` is off takes entries and
never gives one back, so a computation over it works everything out anew.
-/

set_option autoImplicit false

namespace DecisionDiagram

structure Memo (Key Value : Type) [BEq Key] [Hashable Key] where
  recalls : Bool
  entries : Std.HashMap Key Value

namespace Memo

variable {Key Value : Type} [BEq Key] [Hashable Key]

def empty (recalls : Bool) : Memo Key Value := ⟨recalls, ∅⟩

def find? (memo : Memo Key Value) (key : Key) : Option Value :=
  if memo.recalls then memo.entries[key]? else none

def insert (memo : Memo Key Value) (key : Key) (value : Value) : Memo Key Value :=
  ⟨memo.recalls, memo.entries.insert key value⟩

def clear (memo : Memo Key Value) : Memo Key Value := ⟨memo.recalls, ∅⟩

def size (memo : Memo Key Value) : Nat := memo.entries.size

end Memo

end DecisionDiagram
