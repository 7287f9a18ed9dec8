/-!
# Sorted lists without repeats
-/

set_option autoImplicit false

namespace DecisionDiagram

variable {Element : Type} [DecidableEq Element]

/-- Drops every element that equals its left neighbour. -/
def dropRepeats : List Element → List Element
  | [] => []
  | [last] => [last]
  | first :: second :: rest =>
    if first = second then dropRepeats (second :: rest)
    else first :: dropRepeats (second :: rest)

/-- The elements of a list, each once, in the given order. -/
def sortDistinct (inOrder : Element → Element → Bool) (elements : List Element) : List Element :=
  dropRepeats (elements.mergeSort inOrder)

end DecisionDiagram
