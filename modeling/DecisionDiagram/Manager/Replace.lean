import DecisionDiagram.Manager.Memoized

/-!
# Replacing variables

`compose` and `substitute` put a function in the place of a variable; `restrict` and
`restrictMany` put constants there. `compose` walks both functions together, `substitute`
restricts the variable both ways and joins the two results.
-/

set_option autoImplicit false

namespace DecisionDiagram.Manager

/-- One step of `compose`, with `self` for the functions below. -/
def composeStep (var : Nat) (self : Edge → Edge → Memoized (Edge × Edge) Edge)
    (edge replacement : Edge) : Memoized (Edge × Edge) Edge := do
  if edge.isTerminal then
    return edge
  else
    let top ← ask (·.var edge.index)
    if var < top then
      return edge
    else
      remembering (edge, replacement) do
        if var = top then
          let high ← ask (·.highOf edge)
          let low ← ask (·.lowOf edge)
          ite replacement high low
        else
          let top ← ask (·.topVar [edge, replacement])
          let (edge0, edge1) ← ask (·.cofactors edge top)
          let (replacement0, replacement1) ← ask (·.cofactors replacement top)
          let low ← self edge0 replacement0
          let high ← self edge1 replacement1
          node top low high

def composeWithin (var : Nat) : Nat → Edge → Edge → Memoized (Edge × Edge) Edge
  | 0, _, _ => throw .depthExceeded
  | fuel + 1, edge, replacement => composeStep var (composeWithin var fuel) edge replacement

/-- The function `edge` with `replacement` in the place of `var`. -/
def compose (edge : Edge) (var : Nat) (replacement : Edge) : Action Edge := do
  if var = 0 then throw .zeroVariable
  withMemo (composeWithin var (← get).depthBound edge replacement)

/-- One step of `restrict`, with `self` for the functions below. -/
def restrictStep (var : Nat) (value : Bool) (self : Edge → Memoized (Edge × Bool) Edge)
    (edge : Edge) : Memoized (Edge × Bool) Edge := do
  if edge.isTerminal then
    return edge
  else
    let top ← ask (·.var edge.index)
    if var < top then
      return edge
    else if var = top then
      if value then ask (·.highOf edge) else ask (·.lowOf edge)
    else
      remembering (edge, value) do
        let low ← self (← ask (·.lowOf edge))
        let high ← self (← ask (·.highOf edge))
        node top low high

def restrictWithin (var : Nat) (value : Bool) : Nat → Edge → Memoized (Edge × Bool) Edge
  | 0, _ => throw .depthExceeded
  | fuel + 1, edge => restrictStep var value (restrictWithin var value fuel) edge

def restrictIn (edge : Edge) (var : Nat) (value : Bool) : Memoized (Edge × Bool) Edge := do
  restrictWithin var value (← getThe Manager).depthBound edge

/-- The function `edge` with `var` fixed. -/
def restrict (edge : Edge) (var : Nat) (value : Bool) : Action Edge := do
  if var = 0 then throw .zeroVariable
  withMemo (restrictIn edge var value)

/-- The function `edge` with `replacement` in the place of `var`, by way of both restrictions. -/
def substitute (edge : Edge) (var : Nat) (replacement : Edge) : Action Edge := do
  if var = 0 then throw .zeroVariable
  let (whenTrue, whenFalse) ← withMemo do
    let whenTrue ← restrictIn edge var true
    let whenFalse ← restrictIn edge var false
    return (whenTrue, whenFalse)
  ite replacement whenTrue whenFalse

/-- One step of `restrictMany`, with `self` for the functions below. -/
def restrictManyStep (values : Std.HashMap Nat Bool) (self : Edge → Memoized Edge Edge)
    (edge : Edge) : Memoized Edge Edge := do
  if edge.isTerminal then
    return edge
  else
    let regular ← edge.regular
    let result ← remembering regular do
      let top ← ask (·.var regular.index)
      let low ← ask (·.lowOf regular)
      let high ← ask (·.highOf regular)
      match values[top]? with
      | some value => self (if value then high else low)
      | none =>
        let low ← self low
        let high ← self high
        node top low high
    result.negateIf edge.isNegated

def restrictManyWithin (values : Std.HashMap Nat Bool) : Nat → Edge → Memoized Edge Edge
  | 0, _ => throw .depthExceeded
  | fuel + 1, edge => restrictManyStep values (restrictManyWithin values fuel) edge

/-- The function `edge` with several variables fixed at once. -/
def restrictMany (edge : Edge) (values : Std.HashMap Nat Bool) : Action Edge := do
  if values.isEmpty then
    return edge
  else
    withMemo (restrictManyWithin values (← get).depthBound edge)

end DecisionDiagram.Manager
