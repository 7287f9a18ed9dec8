/-!
# Decision trees

A diagram unfolded: every path from the root is written out. A tree prints as nested brackets with
the variable, the branch for true and the branch for false.
-/

set_option autoImplicit false

namespace DecisionDiagram

inductive Tree where
  | leaf (value : Bool)
  | branch (var : Nat) (high low : Tree)
deriving DecidableEq

namespace Tree

/-- The printed form in front of `rest`. -/
def write : Tree → List Char → List Char
  | leaf true, rest => '1' :: rest
  | leaf false, rest => '0' :: rest
  | branch var high low, rest =>
    '(' :: (Nat.toDigits 10 var ++
      ',' :: ' ' :: high.write (',' :: ' ' :: low.write (')' :: rest)))

def text (tree : Tree) : String := String.ofList (tree.write [])

end Tree

end DecisionDiagram
