import DecisionDiagram.Proofs.Manager.Questions

/-!
# Searching for a model

A search follows choices down to the constant true. It fails on the constant false only, since the
two children of a node differ. Each choice is about a later variable than the one before, so that
the choices can be laid out without one overwriting another, and however the open variables are
chosen, the function is true.
-/

set_option autoImplicit false

namespace DecisionDiagram

/-- Choices that lead from an edge to the constant true. A variable is false only where it cannot be
true. -/
inductive Store.Path (store : Store Node) : Edge → List (Nat × Bool) → Prop
  | one : Path store .one []
  | choose {edge : Edge} {node : Node} {value : Bool} {rest : List (Nat × Bool)} :
      store.contents edge.index = some node → edge.index ≠ 1 →
        (value = false → (node.child true).flip edge.isNegated = .zero) →
          Path store ((node.child value).flip edge.isNegated) rest →
            Path store edge ((node.var, value) :: rest)

/-- The values agree with every cell that is decided. -/
def CompletedBy (cells : Manager.PartialAssignment) (inputs : List Bool) : Prop :=
  inputs.length = cells.length ∧
    ∀ (place : Nat) (value : Bool), cells[place]? = some (some value) → inputs[place]? = some value

namespace Store.Path

variable {store : Store Node} {edge : Edge} {path : List (Nat × Bool)}

theorem tests (leads : store.Path edge path) {choice : Nat × Bool} (member : choice ∈ path) :
    store.Tests edge choice.1 := by
  induction leads with
  | one => cases member
  | choose held inner _ _ ih =>
    rcases List.mem_cons.mp member with rfl | later
    · exact tests_top held inner
    · exact (ih later).of_child held

/-- The choices after the first one are about later variables. -/
theorem lt_of_mem_rest (canonical : store.Canonical) {node : Node} {value : Bool}
    {rest : List (Nat × Bool)} (held : store.contents edge.index = some node)
    (inner : edge.index ≠ 1) (further : store.Path ((node.child value).flip edge.isNegated) rest)
    {choice : Nat × Bool} (member : choice ∈ rest) : node.var < choice.1 := by
  have above := ((canonical.normal _ node held inner).child_from value).flip edge.isNegated
  exact canonical.le_of_tests above (further.tests member)

theorem pairwise_lt (leads : store.Path edge path) (canonical : store.Canonical) :
    path.Pairwise fun first second => first.1 < second.1 := by
  induction leads with
  | one => exact List.Pairwise.nil
  | choose held inner _ further ih =>
    exact List.Pairwise.cons (fun _ => lt_of_mem_rest canonical held inner further) ih

/-- Along a choice the function is that of the child. -/
theorem denote_choose (canonical : store.Canonical) {node : Node} {valuation : Valuation}
    (held : store.contents edge.index = some node) :
    store.denote edge valuation =
      store.denote ((node.child (valuation node.var)).flip edge.isNegated) valuation := by
  rw [canonical.denote_follow held, denote_flip]
  rfl

theorem denote_eq_true (leads : store.Path edge path) (canonical : store.Canonical)
    {valuation : Valuation} (chosen : ∀ choice ∈ path, valuation choice.1 = choice.2) :
    store.denote edge valuation = true := by
  induction leads with
  | one => rw [canonical.denote_one]
  | choose held inner _ _ ih =>
    have here := chosen _ List.mem_cons_self
    rw [denote_choose canonical held, here]
    exact ih fun choice member => chosen choice (List.mem_cons_of_mem _ member)

/-- Where a valuation leaves the path by making a variable true that is false on it, the function is
false. -/
theorem denote_eq_false (leads : store.Path edge path) (canonical : store.Canonical)
    {valuation : Valuation} {choice : Nat × Bool} (member : choice ∈ path)
    (isFalse : choice.2 = false)
    (before : ∀ earlier ∈ path, earlier.1 < choice.1 → valuation earlier.1 = earlier.2)
    (leaves : valuation choice.1 = true) : store.denote edge valuation = false := by
  induction leads with
  | one => cases member
  | @choose edge node value rest held inner onlyIf further ih =>
    rw [denote_choose canonical held]
    rcases List.mem_cons.mp member with rfl | later
    · rw [leaves, onlyIf isFalse, canonical.denote_zero]
    · have first := lt_of_mem_rest canonical held inner further later
      rw [before _ List.mem_cons_self first]
      exact ih later fun earlier known => before earlier (List.mem_cons_of_mem _ known)

end Store.Path

/-! ## Laying out choices -/

section

variable {path : List (Nat × Bool)} {cells : Array (Option Bool)} {place : Nat}

/-- The cells after some choices were written into them. -/
def written (path : List (Nat × Bool)) (cells : Array (Option Bool)) : Array (Option Bool) :=
  path.foldl (fun cells (var, value) => cells.setIfInBounds (var - 1) (some value)) cells

theorem written_cons (var : Nat) (value : Bool) (rest : List (Nat × Bool))
    (cells : Array (Option Bool)) : written ((var, value) :: rest) cells =
      written rest (cells.setIfInBounds (var - 1) (some value)) := rfl

theorem size_written (path : List (Nat × Bool)) (cells : Array (Option Bool)) :
    (written path cells).size = cells.size := by
  induction path generalizing cells with
  | nil => rfl
  | cons first rest ih => rw [written_cons, ih, Array.size_setIfInBounds]

theorem written_of_ne (others : ∀ choice ∈ path, choice.1 - 1 ≠ place) :
    (written path cells)[place]? = cells[place]? := by
  induction path generalizing cells with
  | nil => rfl
  | cons first rest ih =>
    rw [written_cons, ih fun choice member => others choice (List.mem_cons_of_mem first member)]
    exact Array.getElem?_setIfInBounds_ne (others first List.mem_cons_self)

theorem written_of_mem (positive : ∀ choice ∈ path, 0 < choice.1)
    (increasing : path.Pairwise fun first second => first.1 < second.1) {choice : Nat × Bool}
    (member : choice ∈ path) (inside : choice.1 ≤ cells.size) :
    (written path cells)[choice.1 - 1]? = some (some choice.2) := by
  induction path generalizing cells with
  | nil => cases member
  | cons first rest ih =>
    obtain ⟨later, increasing⟩ := List.pairwise_cons.mp increasing
    rw [written_cons]
    rcases List.mem_cons.mp member with rfl | known
    · have here := positive choice List.mem_cons_self
      rw [written_of_ne fun other otherKnown => by
        have := later other otherKnown
        omega]
      exact Array.getElem?_setIfInBounds_self_of_lt (by omega)
    · apply ih (fun other otherKnown => positive other (List.mem_cons_of_mem first otherKnown))
        increasing known
      rw [Array.size_setIfInBounds]
      exact inside

end

namespace Manager

variable {manager : Manager} {edge : Edge} {function : BoolFunction} {count : Nat}

theorem layOut_eq (count : Nat) (path : List (Nat × Bool)) :
    layOut count path = (written path (Array.replicate count none)).toList := rfl

theorem pathWithin_terminal (fuel : Nat) (terminal : edge.index = 1) :
    manager.pathWithin count (fuel + 1) edge = .ok (if edge = .one then some [] else none) := by
  rw [pathWithin, pathStep, if_pos (Edge.isTerminal_iff.mpr terminal)]
  rfl

section

variable {node : Node} {fuel : Nat} {path : List (Nat × Bool)}

/-- At an inner node the high child is searched first. -/
theorem pathWithin_of_high (canonical : manager.store.Canonical)
    (held : manager.store.contents edge.index = some node) (inner : edge.index ≠ 1)
    (inRange : node.var ≤ count)
    (found : manager.pathWithin count fuel ((node.child true).flip edge.isNegated) =
      .ok (some path)) :
    manager.pathWithin count (fuel + 1) edge = .ok (some ((node.var, true) :: path)) := by
  rw [pathWithin, pathStep, if_neg fun ends => inner (Edge.isTerminal_iff.mp ends)]
  simp only [var_eq_ok held, position_eq_ok canonical held inner, answer_bind,
    if_neg (Nat.not_lt.mpr inRange), highOf_eq_ok canonical held, found]
  rfl

theorem pathWithin_of_low (canonical : manager.store.Canonical)
    (held : manager.store.contents edge.index = some node) (inner : edge.index ≠ 1)
    (inRange : node.var ≤ count)
    (missed : manager.pathWithin count fuel ((node.child true).flip edge.isNegated) = .ok none)
    (found : manager.pathWithin count fuel ((node.child false).flip edge.isNegated) =
      .ok (some path)) :
    manager.pathWithin count (fuel + 1) edge = .ok (some ((node.var, false) :: path)) := by
  rw [pathWithin, pathStep, if_neg fun ends => inner (Edge.isTerminal_iff.mp ends)]
  simp only [var_eq_ok held, position_eq_ok canonical held inner, answer_bind,
    if_neg (Nat.not_lt.mpr inRange), highOf_eq_ok canonical held, missed,
    lowOf_eq_ok canonical held, found]
  rfl

end

theorem pathWithin_spec (canonical : manager.store.Canonical) {fuel : Nat}
    (live : manager.store.Live edge)
    (inRange : ∀ var, manager.store.Tests edge var → var ≤ count)
    (enough : manager.store.rank edge.index < fuel) :
    (edge = .zero ∧ manager.pathWithin count fuel edge = .ok none) ∨
      ∃ path, manager.pathWithin count fuel edge = .ok (some path) ∧
        manager.store.Path edge path := by
  induction fuel generalizing edge with
  | zero => exact absurd enough (Nat.not_lt_zero _)
  | succ fuel ih =>
    by_cases terminal : edge.index = 1
    · rw [pathWithin_terminal fuel terminal]
      rcases Edge.eq_constant terminal with rfl | rfl
      · exact Or.inr ⟨[], rfl, .one⟩
      · exact Or.inl ⟨rfl, rfl⟩
    obtain ⟨node, held⟩ := live
    have normal := canonical.normal _ node held terminal
    have onChild : ∀ value, _ := fun value =>
      have above := (normal.child_from value).flip edge.isNegated
      have lower := Store.rank_lt_of_from held terminal above
      ih above.live (fun var tests => inRange var (tests.of_child held)) (by omega)
    have inNodeRange := inRange node.var (Store.tests_top held terminal)
    refine Or.inr ?_
    rcases onChild true with ⟨highZero, highNone⟩ | ⟨path, found, leads⟩
    · rcases onChild false with ⟨lowZero, lowNone⟩ | ⟨path, found, leads⟩
      · have same : node.low = node.high := Edge.flip_inj.mp (lowZero.trans highZero.symm)
        exact absurd same normal.low_ne_high
      · exact ⟨_, pathWithin_of_low canonical held terminal inNodeRange highNone found,
          .choose held terminal (fun _ => highZero) leads⟩
    · exact ⟨_, pathWithin_of_high canonical held terminal inNodeRange found,
        .choose held terminal (fun impossible => nomatch impossible) leads⟩

section

variable {path : List (Nat × Bool)}

/-- The choices of a path decide the places of its variables. -/
theorem layOut_of_mem (canonical : manager.store.Canonical) (leads : manager.store.Path edge path)
    (inRange : ∀ choice ∈ path, choice.1 ≤ count) {choice : Nat × Bool} (member : choice ∈ path) :
    (layOut count path)[choice.1 - 1]? = some (some choice.2) := by
  rw [layOut_eq, Array.getElem?_toList]
  apply written_of_mem (fun other known => canonical.tests_pos (leads.tests known))
    (leads.pairwise_lt canonical) member
  rw [Array.size_replicate]
  exact inRange choice member

/-- No other places are decided. -/
theorem mem_of_layOut (canonical : manager.store.Canonical) (leads : manager.store.Path edge path)
    (inRange : ∀ choice ∈ path, choice.1 ≤ count) {place : Nat} {value : Bool}
    (decided : (layOut count path)[place]? = some (some value)) : (place + 1, value) ∈ path := by
  by_cases known : ∃ choice ∈ path, choice.1 - 1 = place
  · obtain ⟨choice, member, rfl⟩ := known
    rw [layOut_of_mem canonical leads inRange member] at decided
    have sameValue : choice.2 = value := by simpa using decided
    have positive := canonical.tests_pos (leads.tests member)
    rw [← sameValue, Nat.sub_add_cancel positive]
    exact member
  · have others : ∀ choice ∈ path, choice.1 - 1 ≠ place := fun choice member same =>
      known ⟨choice, member, same⟩
    rw [layOut_eq, Array.getElem?_toList, written_of_ne others, Array.getElem?_replicate] at decided
    split at decided <;> simp at decided

theorem length_layOut (count : Nat) (path : List (Nat × Bool)) :
    (layOut count path).length = count := by
  rw [layOut_eq, Array.length_toList, size_written, Array.size_replicate]

/-- However the open variables are chosen, the values are those of the choices. -/
theorem valuationOf_of_completedBy (canonical : manager.store.Canonical)
    (leads : manager.store.Path edge path) (inRange : ∀ choice ∈ path, choice.1 ≤ count)
    {inputs : List Bool} (completed : CompletedBy (layOut count path) inputs)
    {choice : Nat × Bool} (member : choice ∈ path) : valuationOf inputs choice.1 = choice.2 := by
  have decided := layOut_of_mem canonical leads inRange member
  rw [valuationOf, List.getD_eq_getElem?_getD, completed.2 _ _ decided]
  rfl

/-- Whatever completes the layout of a path makes the edge true. -/
theorem denote_of_completedBy (canonical : manager.store.Canonical)
    (leads : manager.store.Path edge path) (inRange : ∀ choice ∈ path, choice.1 ≤ count)
    {inputs : List Bool} (completed : CompletedBy (layOut count path) inputs) :
    manager.store.denote edge (valuationOf inputs) = true :=
  leads.denote_eq_true canonical fun _ =>
    valuationOf_of_completedBy canonical leads inRange completed

/-- A model is the layout of a path, which is found unless the function is constantly false. -/
theorem model?_path (canonical : manager.store.Canonical)
    (represents : manager.store.Represents edge function)
    (depends : DependsOn function {var | var ≤ count}) (satisfiable : edge ≠ .zero) :
    ∃ path, manager.model? edge count = .ok (some (layOut count path)) ∧
      manager.store.Path edge path ∧ ∀ choice ∈ path, choice.1 ≤ count := by
  have enough := rank_lt_depthBound canonical edge.index
  have inRange : ∀ var, manager.store.Tests edge var → var ≤ count := by
    intro var tests
    have member := represents.mem_of_tests canonical depends tests
    exact member
  obtain ⟨path, found, leads⟩ :=
    (pathWithin_spec canonical represents.live inRange enough).resolve_left
      fun isZero => satisfiable isZero.1
  refine ⟨path, ?_, leads, fun choice member => inRange _ (leads.tests member)⟩
  rw [model?, found]
  rfl

end

/-- A model is found unless the function is constantly false, and it settles the function. -/
theorem model?_spec (canonical : manager.store.Canonical)
    (represents : manager.store.Represents edge function)
    (depends : DependsOn function {var | var ≤ count}) (satisfiable : edge ≠ .zero) :
    ∃ cells, manager.model? edge count = .ok (some cells) ∧ cells.length = count ∧
      ∀ inputs, CompletedBy cells inputs → function (valuationOf inputs) = true := by
  obtain ⟨path, found, leads, inRange⟩ := model?_path canonical represents depends satisfiable
  refine ⟨layOut count path, found, length_layOut count path, fun inputs completed => ?_⟩
  rw [← represents.denote_eq]
  exact denote_of_completedBy canonical leads inRange completed

end Manager

end DecisionDiagram
