/-!
# Pairing of machine words

Cantor's pairing counts the pairs of numbers along the diagonals of a constant sum. Here it runs
on 64-bit words and wraps around; only the low bits of its value choose a bucket. The triangular
number of the diagonal is formed by halving whichever of two neighbours is even before they are
multiplied, so that no bit is lost while the exact value fits into a word. The successor of the
sum wraps before it is halved.
-/

set_option autoImplicit false

namespace DecisionDiagram.Pairing

/-- The number of pairs with a smaller sum than `sum`. -/
def triangular (sum : UInt64) : UInt64 :=
  if sum % 2 = 0 then sum / 2 * (sum + 1) else sum * ((sum + 1) / 2)

def cantor (first second : UInt64) : UInt64 :=
  triangular (first + second) + second

def pair (first second : UInt64) : UInt64 := cantor first second

def triple (first second third : UInt64) : UInt64 :=
  pair (pair first second) third

/-- Cantor's pairing of unbounded numbers, which the machine words approximate. -/
def exactCantor (first second : Nat) : Nat :=
  (first + second) * (first + second + 1) / 2 + second

end DecisionDiagram.Pairing
