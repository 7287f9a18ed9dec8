import DecisionDiagram.Cache
import DecisionDiagram.Edge.Basic

/-!
# Connectives and the caches of a manager

A manager remembers the answers of its recursive operations between calls: one cache for
if-then-else, one for each binary connective, and one for sizes. An entry of a connective serves
both orders of its operands.
-/

set_option autoImplicit false

namespace DecisionDiagram

/-- The binary connectives that are worked out directly. -/
inductive Connective where
  | and
  | or
  | xor
deriving DecidableEq

/-- The truth function of a connective. -/
def Connective.eval : Connective → Bool → Bool → Bool
  | and, first, second => first && second
  | or, first, second => first || second
  | xor, first, second => first ^^ second

structure Caches where
  ite : Cache (Edge × Edge × Edge) Edge
  and : Cache (Edge × Edge) Edge
  or : Cache (Edge × Edge) Edge
  xor : Cache (Edge × Edge) Edge
  size : Cache Edge Nat

namespace Caches

def empty (recalls : Bool) : Caches :=
  ⟨.empty "ITE" recalls, .empty "AND" recalls, .empty "OR" recalls, .empty "XOR" recalls,
    .empty "SIZE" recalls⟩

def clear : Caches → Caches
  | ⟨ite, and, or, xor, size⟩ => ⟨ite.clear, and.clear, or.clear, xor.clear, size.clear⟩

def stats (caches : Caches) : List CacheStats :=
  [caches.ite.stats, caches.and.stats, caches.or.stats, caches.xor.stats, caches.size.stats]

def lookupIte (key : Edge × Edge × Edge) : Caches → Option Edge × Caches
  | ⟨ite, and, or, xor, size⟩ =>
    let (answer, ite) := ite.lookup key
    (answer, ⟨ite, and, or, xor, size⟩)

def insertIte (key : Edge × Edge × Edge) (edge : Edge) : Caches → Caches
  | ⟨ite, and, or, xor, size⟩ => ⟨ite.insert key edge, and, or, xor, size⟩

def lookupSize (edge : Edge) : Caches → Option Nat × Caches
  | ⟨ite, and, or, xor, size⟩ =>
    let (answer, size) := size.lookup edge
    (answer, ⟨ite, and, or, xor, size⟩)

def insertSize (edge : Edge) (count : Nat) : Caches → Caches
  | ⟨ite, and, or, xor, size⟩ => ⟨ite, and, or, xor, size.insert edge count⟩

def lookupBinary (connective : Connective) (key : Edge × Edge) : Caches → Option Edge × Caches
  | ⟨ite, and, or, xor, size⟩ =>
    match connective with
    | .and =>
      let (answer, and) := and.lookup key
      (answer, ⟨ite, and, or, xor, size⟩)
    | .or =>
      let (answer, or) := or.lookup key
      (answer, ⟨ite, and, or, xor, size⟩)
    | .xor =>
      let (answer, xor) := xor.lookup key
      (answer, ⟨ite, and, or, xor, size⟩)

def insertBinary (connective : Connective) (key : Edge × Edge) (edge : Edge) : Caches → Caches
  | ⟨ite, and, or, xor, size⟩ =>
    match connective with
    | .and => ⟨ite, and.insert key edge, or, xor, size⟩
    | .or => ⟨ite, and, or.insert key edge, xor, size⟩
    | .xor => ⟨ite, and, or, xor.insert key edge, size⟩

end Caches

end DecisionDiagram
