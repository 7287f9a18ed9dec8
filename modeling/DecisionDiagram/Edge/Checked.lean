import DecisionDiagram.Fault

/-!
# Edges in 32 bits

An edge is stored as a signed 32-bit number. The smallest such number has no negation, so the
operations that flip a sign may fault. All other edges are flipped by the total negation
(`negate_eq_ok`), and a slot number below `2 ^ 31` makes the edge one expects
(`positive_eq_ok`).
-/

set_option autoImplicit false

namespace DecisionDiagram

/-- The smallest signed 32-bit number. -/
def leastCode : Int := -2147483648

/-- Negation of a signed 32-bit number. -/
def negateCode (code : Int) : Except Fault Int :=
  if code = leastCode then .error .negateOverflow else .ok (-code)

namespace Edge

/-- The edge with the given signed number. -/
def ofCode (code : Int) : Except Fault Edge :=
  if nonzero : code ≠ 0 then .ok ⟨code, nonzero⟩ else .error .zeroEdge

/-- The uncomplemented edge to a slot, whose number is read as a signed 32-bit number. -/
def positive (index : Nat) : Except Fault Edge :=
  ofCode (Int.bmod index 4294967296)

/-- The complemented edge to a slot, whose number is read as a signed 32-bit number. -/
def negative (index : Nat) : Except Fault Edge := do
  ofCode (← negateCode (Int.bmod index 4294967296))

def negate (edge : Edge) : Except Fault Edge :=
  if edge.code = leastCode then .error .negateOverflow else .ok (-edge)

def negateIf (edge : Edge) (condition : Bool) : Except Fault Edge :=
  if condition then edge.negate else .ok edge

/-- The same node without the complement. -/
def regular (edge : Edge) : Except Fault Edge :=
  edge.negateIf edge.isNegated

theorem negate_eq_ok {edge : Edge} (inRange : edge.index < 2147483648) :
    edge.negate = .ok (-edge) := by
  have notLeast : edge.code ≠ leastCode := by
    simp only [index] at inRange
    simp only [leastCode]
    omega
  simp [negate, notLeast]

theorem negateIf_eq_ok {edge : Edge} (condition : Bool) (inRange : edge.index < 2147483648) :
    edge.negateIf condition = .ok (if condition then -edge else edge) := by
  cases condition
  · simp [negateIf]
  · simp [negateIf, negate_eq_ok inRange]

theorem positive_eq_ok {index : Nat} (nonzero : index ≠ 0) (inRange : index < 2147483648) :
    positive index = .ok ⟨index, by omega⟩ := by
  have unchanged : Int.bmod index 4294967296 = index := by
    rw [Int.bmod_def]
    split <;> omega
  have codeNonzero : (index : Int) ≠ 0 := by omega
  unfold positive
  rw [unchanged]
  exact dif_pos codeNonzero

end Edge

end DecisionDiagram
