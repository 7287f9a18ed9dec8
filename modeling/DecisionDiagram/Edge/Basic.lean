/-!
# Edges

An edge names a stored node together with a sign. It is kept as one signed number that is never
zero: the magnitude is the slot of the node, and a negative sign says that the edge stands for the
complement of the node's function. Slot 1 holds the terminal, so `1` is the constant true and `-1`
the constant false.

Negation here is the mathematical one. The running code uses the negation of `Edge/Checked`, which
knows that an edge occupies 32 bits.
-/

set_option autoImplicit false

namespace DecisionDiagram

structure Edge where
  code : Int
  nonzero : code ≠ 0

namespace Edge

theorem eq_of_code_eq {first second : Edge} (same : first.code = second.code) :
    first = second := by
  cases first
  cases second
  simp_all

theorem eq_iff_code_eq {first second : Edge} : first = second ↔ first.code = second.code :=
  ⟨congrArg code, eq_of_code_eq⟩

instance : DecidableEq Edge := fun first second =>
  decidable_of_iff (first.code = second.code) eq_iff_code_eq.symm

instance : Hashable Edge := ⟨fun edge => hash edge.code⟩

/-- The constant true. -/
def one : Edge := ⟨1, by decide⟩

/-- The constant false. -/
def zero : Edge := ⟨-1, by decide⟩

instance : Inhabited Edge := ⟨one⟩

/-- The slot of the node that the edge points at. -/
def index (edge : Edge) : Nat := edge.code.natAbs

def isNegated (edge : Edge) : Bool := edge.code < 0

/-- Both constants are edges to the terminal. -/
def isTerminal (edge : Edge) : Bool := edge.index == 1

def neg (edge : Edge) : Edge := ⟨-edge.code, Int.neg_ne_zero.mpr edge.nonzero⟩

instance : Neg Edge := ⟨neg⟩

/-- The printed form: the slot behind an at sign, with a tilde in front of a complement. -/
def text (edge : Edge) : String :=
  (if edge.isNegated then "~@" else "@") ++ toString edge.index

/-- The order of the signed numbers. -/
def le (first second : Edge) : Bool := first.code ≤ second.code

theorem index_pos (edge : Edge) : 0 < edge.index :=
  Int.natAbs_pos.mpr edge.nonzero

@[simp] theorem code_neg (edge : Edge) : (-edge).code = -edge.code := rfl

@[simp] theorem index_neg (edge : Edge) : (-edge).index = edge.index :=
  Int.natAbs_neg edge.code

@[simp] theorem neg_neg (edge : Edge) : - -edge = edge :=
  eq_of_code_eq (Int.neg_neg edge.code)

@[simp] theorem neg_one : -one = zero := rfl

@[simp] theorem neg_zero : -zero = one := rfl

theorem isNegated_neg (edge : Edge) : (-edge).isNegated = !edge.isNegated := by
  have nonzero := edge.nonzero
  simp only [isNegated, code_neg]
  by_cases negative : edge.code < 0
  · simp [negative]
    omega
  · simp [negative]
    omega

end Edge

end DecisionDiagram
