import DecisionDiagram.Manager.Construct

/-!
# Connectives and if-then-else

Each operation first tries to answer from the shape of its operands alone, then from its cache.
Otherwise it splits its operands on their smallest variable, works out both halves, and joins
them by a node. A connective does the low half first, if-then-else the high half: this order
decides which slot a new node gets.

If-then-else is reduced to a connective where two of its operands suffice, and its operands are
brought to a form with uncomplemented condition and then-part before the cache is asked.

A recursion is one step with itself for smaller operands. How deep it may get is bounded by what the
store can hold.
-/

set_option autoImplicit false

namespace DecisionDiagram

/-- The answer that the operands alone determine. -/
def Connective.shortcut (connective : Connective) (first second : Edge) :
    Except Fault (Option Edge) := do
  match connective with
  | .and =>
    if first = .zero ∨ second = .zero then return some .zero
    else if first = .one then return some second
    else if second = .one then return some first
    else if first = second then return some first
    else if first = (← second.negate) then return some .zero
    else return none
  | .or =>
    if first = .one ∨ second = .one then return some .one
    else if first = .zero then return some second
    else if second = .zero then return some first
    else if first = second then return some first
    else if first = (← second.negate) then return some .one
    else return none
  | .xor =>
    if first = .one then return some (← second.negate)
    else if second = .one then return some (← first.negate)
    else if first = .zero then return some second
    else if second = .zero then return some first
    else if first = second then return some .zero
    else if first = (← second.negate) then return some .one
    else return none

/-- One key for both orders of the operands. -/
def sharedKey (first second : Edge) : Edge × Edge :=
  if first.le second then (first, second) else (second, first)

/-- What an if-then-else comes down to. -/
inductive IteForm where
  | answer (edge : Edge)
  | binary (connective : Connective) (first second : Edge)
  | general

def IteForm.of (condition whenTrue whenFalse : Edge) : Except Fault IteForm := do
  if condition = .one then return .answer whenTrue
  else if condition = .zero then return .answer whenFalse
  else if whenTrue = .one ∨ condition = whenTrue then
    return .binary .or condition whenFalse
  else if whenTrue = .zero then
    return .binary .and (← condition.negate) whenFalse
  else if condition = (← whenTrue.negate) then
    return .binary .and (← condition.negate) whenFalse
  else if whenFalse = .zero ∨ condition = whenFalse then
    return .binary .and condition whenTrue
  else if whenFalse = .one then
    return .binary .or (← condition.negate) whenTrue
  else if condition = (← whenFalse.negate) then
    return .binary .or (← condition.negate) whenTrue
  else if whenTrue = whenFalse then return .answer whenTrue
  else if whenTrue = (← whenFalse.negate) then
    return .binary .xor condition whenFalse
  else return .general

/-- An if-then-else with uncomplemented condition and then-part, and whether its value has to be
complemented. -/
structure IteKey where
  condition : Edge
  whenTrue : Edge
  whenFalse : Edge
  negated : Bool

def IteKey.of (condition whenTrue whenFalse : Edge) : Except Fault IteKey := do
  let (condition, whenTrue, whenFalse) ←
    if condition.isNegated then pure (← condition.negate, whenFalse, whenTrue)
    else pure (condition, whenTrue, whenFalse)
  if whenTrue.isNegated then
    return ⟨condition, ← whenTrue.negate, ← whenFalse.negate, true⟩
  else
    return ⟨condition, whenTrue, whenFalse, false⟩

namespace Manager

/-- One step of a connective, with `self` for the connective of smaller operands. -/
def applyStep (connective : Connective) (self : Edge → Edge → Action Edge) (first second : Edge) :
    Action Edge := do
  match ← connective.shortcut first second with
  | some edge => return edge
  | none =>
    let key := sharedKey first second
    match ← onCaches (·.lookupBinary connective key) with
    | some edge => return edge
    | none =>
      if first.isTerminal || second.isTerminal then throw .constantOperand
      let top ← ask (·.topVar [first, second])
      let (first0, first1) ← ask (·.cofactors first top)
      let (second0, second1) ← ask (·.cofactors second top)
      let low ← self first0 second0
      let high ← self first1 second1
      let edge ← node top low high
      changeCaches (·.insertBinary connective key edge)
      return edge

/-- Works out a connective in at most `fuel` nested steps. -/
def applyWithin (connective : Connective) : Nat → Edge → Edge → Action Edge
  | 0, _, _ => throw .depthExceeded
  | fuel + 1, first, second => applyStep connective (applyWithin connective fuel) first second

def apply (connective : Connective) (first second : Edge) : Action Edge := do
  applyWithin connective (← get).depthBound first second

/-- One step of an if-then-else, with `self` for the if-then-else of smaller operands. -/
def iteStep (self : Edge → Edge → Edge → Action Edge) (condition whenTrue whenFalse : Edge) :
    Action Edge := do
  match ← IteForm.of condition whenTrue whenFalse with
  | .answer edge => return edge
  | .binary connective first second => apply connective first second
  | .general =>
    if condition.isTerminal || whenTrue.isTerminal || whenFalse.isTerminal then
      throw .constantOperand
    let ⟨f, g, h, negated⟩ ← IteKey.of condition whenTrue whenFalse
    match ← onCaches (·.lookupIte (f, g, h)) with
    | some edge => edge.negateIf negated
    | none =>
      let top ← ask (·.topVar [f, g, h])
      let (f0, f1) ← ask (·.cofactors f top)
      let (g0, g1) ← ask (·.cofactors g top)
      let (h0, h1) ← ask (·.cofactors h top)
      let high ← self f1 g1 h1
      let low ← self f0 g0 h0
      let edge ← node top low high
      changeCaches (·.insertIte (f, g, h) edge)
      edge.negateIf negated

/-- Works out an if-then-else in at most `fuel` nested steps. -/
def iteWithin : Nat → Edge → Edge → Edge → Action Edge
  | 0, _, _, _ => throw .depthExceeded
  | fuel + 1, condition, whenTrue, whenFalse =>
    iteStep (iteWithin fuel) condition whenTrue whenFalse

/-- If `condition` then `whenTrue` else `whenFalse`. -/
def ite (condition whenTrue whenFalse : Edge) : Action Edge := do
  iteWithin (← get).depthBound condition whenTrue whenFalse

def and (first second : Edge) : Action Edge := apply .and first second

def or (first second : Edge) : Action Edge := apply .or first second

def xor (first second : Edge) : Action Edge := apply .xor first second

/-- Equivalence is the complement of exclusive or. -/
def iff (first second : Edge) : Action Edge := do
  (← xor first second).negate

def imp (first second : Edge) : Action Edge := do
  or (← first.negate) second

end Manager

end DecisionDiagram
