import DecisionDiagram.Memo

/-!
# Named caches

A cache is a memo table with a name that counts how often a look-up succeeded and how often it
did not. Emptying a cache keeps its counters.
-/

set_option autoImplicit false

namespace DecisionDiagram

structure Cache (Key Value : Type) [BEq Key] [Hashable Key] where
  name : String
  memo : Memo Key Value
  hits : Nat
  misses : Nat

/-- What a cache reports about itself. -/
structure CacheStats where
  name : String
  hits : Nat
  misses : Nat
  entries : Nat
deriving DecidableEq

namespace Cache

variable {Key Value : Type} [BEq Key] [Hashable Key]

def empty (name : String) (recalls : Bool) : Cache Key Value := ⟨name, .empty recalls, 0, 0⟩

/-- The stored answer, if there is one, and the cache with the look-up counted. -/
def lookup (cache : Cache Key Value) (key : Key) : Option Value × Cache Key Value :=
  match cache with
  | ⟨name, memo, hits, misses⟩ =>
    match memo.find? key with
    | some value => (some value, ⟨name, memo, hits + 1, misses⟩)
    | none => (none, ⟨name, memo, hits, misses + 1⟩)

def insert (cache : Cache Key Value) (key : Key) (value : Value) : Cache Key Value :=
  match cache with
  | ⟨name, memo, hits, misses⟩ => ⟨name, memo.insert key value, hits, misses⟩

def clear (cache : Cache Key Value) : Cache Key Value :=
  match cache with
  | ⟨name, memo, hits, misses⟩ => ⟨name, memo.clear, hits, misses⟩

def size (cache : Cache Key Value) : Nat := cache.memo.size

def stats (cache : Cache Key Value) : CacheStats :=
  ⟨cache.name, cache.hits, cache.misses, cache.size⟩

end Cache

namespace CacheStats

/-- The share of look-ups that succeeded, zero before the first one. -/
def hitRate (stats : CacheStats) : Float :=
  let total := stats.hits + stats.misses
  if total = 0 then 0 else Float.ofNat stats.hits / Float.ofNat total

def text (stats : CacheStats) : String :=
  stats.name ++ ": hits=" ++ toString stats.hits ++ ", misses=" ++ toString stats.misses ++
    ", entries=" ++ toString stats.entries

end CacheStats

end DecisionDiagram
