import DecisionDiagram.Proofs.Diagram.Reach

/-!
# Equal functions are equal edges

In a canonical store an edge is determined by its function (`Canonical.eq_of_denote_eq`). So the
function of an edge says which variable its node tests: the first one that it depends on.
-/

set_option autoImplicit false

namespace DecisionDiagram

/-- The edge, complemented if `negated`. -/
def Edge.flip (edge : Edge) (negated : Bool) : Edge := if negated then -edge else edge

/-- The child for a value of the node's variable. -/
def Node.child (node : Node) (value : Bool) : Edge := if value then node.high else node.low

namespace Edge

@[simp] theorem flip_false (edge : Edge) : edge.flip false = edge := rfl

@[simp] theorem flip_true (edge : Edge) : edge.flip true = -edge := rfl

@[simp] theorem index_flip (edge : Edge) (negated : Bool) :
    (edge.flip negated).index = edge.index := by
  cases negated
  · rfl
  · exact index_neg edge

theorem isNegated_flip (edge : Edge) (negated : Bool) :
    (edge.flip negated).isNegated = (negated ^^ edge.isNegated) := by
  cases negated
  · rw [flip_false, Bool.false_xor]
  · rw [flip_true, isNegated_neg, Bool.true_xor]

theorem flip_inj {first second : Edge} {negated : Bool} :
    first.flip negated = second.flip negated ↔ first = second := by
  cases negated
  · rfl
  · constructor
    · intro same
      rw [← neg_neg first, ← neg_neg second]
      exact congrArg _ same
    · intro same
      rw [same]

@[simp] theorem flip_flip (edge : Edge) (negated : Bool) :
    (edge.flip negated).flip negated = edge := by
  cases negated
  · rfl
  · exact neg_neg edge

/-- An edge is its slot and its sign. -/
theorem eq_of_index_of_isNegated {first second : Edge} (sameIndex : first.index = second.index)
    (sameSign : first.isNegated = second.isNegated) : first = second := by
  apply eq_of_code_eq
  simp only [index] at sameIndex
  simp only [isNegated, decide_eq_decide] at sameSign
  omega

theorem eq_constant {edge : Edge} (terminal : edge.index = 1) : edge = one ∨ edge = zero := by
  cases negated : edge.isNegated with
  | false => exact Or.inl (eq_of_index_of_isNegated terminal negated)
  | true => exact Or.inr (eq_of_index_of_isNegated terminal negated)

end Edge

namespace Store

theorem denote_flip (store : Store Node) (edge : Edge) (negated : Bool) :
    store.denote (edge.flip negated) = fun valuation => negated ^^ store.denote edge valuation := by
  funext valuation
  cases negated
  · simp
  · simp [denote_neg]

theorem child_child {store : Store Node} {index : Nat} {node : Node}
    (held : store.contents index = some node) (value : Bool) :
    store.Child index (node.child value).index := by
  refine ⟨node, held, ?_⟩
  cases value
  · exact Or.inl rfl
  · exact Or.inr rfl

theorem tests_top {store : Store Node} {edge : Edge} {node : Node}
    (held : store.contents edge.index = some node) (inner : edge.index ≠ 1) :
    store.Tests edge node.var :=
  ⟨_, node, Relation.ReflTransGen.refl, held, inner, rfl⟩

theorem Tests.of_child {store : Store Node} {edge : Edge} {node : Node} {value negated : Bool}
    {var : Nat} (tests : store.Tests ((node.child value).flip negated) var)
    (held : store.contents edge.index = some node) : store.Tests edge var := by
  obtain ⟨index, inner, reaches, rest⟩ := tests
  rw [Edge.index_flip] at reaches
  exact ⟨index, inner, Relation.ReflTransGen.head (child_child held value) reaches, rest⟩

theorem From.flip {store : Store Node} {bound : Nat} {edge : Edge} (above : store.From bound edge)
    (negated : Bool) : store.From bound (edge.flip negated) := by
  obtain ⟨node, held, tests⟩ := above
  exact ⟨node, by rw [Edge.index_flip]; exact held, by rw [Edge.index_flip]; exact tests⟩

theorem live_flip {store : Store Node} {edge : Edge} {negated : Bool} :
    store.Live (edge.flip negated) ↔ store.Live edge := by
  unfold Live
  rw [Edge.index_flip]

theorem Normal.child_from {store : Store Node} {node : Node} (normal : store.Normal node)
    (value : Bool) : store.From (node.var + 1) (node.child value) := by
  cases value
  · exact normal.low_from
  · exact normal.high_from

namespace Canonical

variable {store : Store Node} {edge : Edge} {node : Node}

/-- The cofactors of a function by its top variable are the functions of the children. -/
theorem cofactor_denote (canonical : store.Canonical) (held : store.contents edge.index = some node)
    (inner : edge.index ≠ 1) (value : Bool) :
    cofactor (store.denote edge) node.var value =
      store.denote ((node.child value).flip edge.isNegated) := by
  have above := (canonical.normal _ node held inner).child_from value
  have independent := cofactor_of_notMem (canonical.dependsOn_Ici above)
    (show node.var ∉ Set.Ici (node.var + 1) from Nat.not_succ_le_self _) value
  funext valuation
  have chosen : node.follow (Function.update valuation node.var value) = node.child value := by
    unfold Node.follow Node.child
    rw [Function.update_self]
  rw [denote_flip]
  show store.denote edge (Function.update valuation node.var value) = _
  rw [canonical.denote_follow held, chosen]
  exact congrArg (edge.isNegated ^^ ·) (congrFun independent valuation)

/-- One level of the argument: if edges of smaller rank are determined by their functions, then a
node's function depends on the node's variable. -/
theorem cofactors_ne_of_smaller (canonical : store.Canonical)
    (held : store.contents edge.index = some node) (inner : edge.index ≠ 1)
    (smaller : ∀ first second, store.Live first → store.Live second →
      store.rank first.index < store.rank edge.index →
      store.rank second.index < store.rank edge.index →
      store.denote first = store.denote second → first = second) :
    cofactor (store.denote edge) node.var true ≠ cofactor (store.denote edge) node.var false := by
  have normal := canonical.normal _ node held inner
  intro same
  rw [canonical.cofactor_denote held inner, canonical.cofactor_denote held inner] at same
  have equal := smaller _ _ (normal.high_from.flip edge.isNegated).live
    (normal.low_from.flip edge.isNegated).live
    (rank_lt_of_from held inner (normal.high_from.flip _))
    (rank_lt_of_from held inner (normal.low_from.flip _)) same
  exact normal.low_ne_high (Edge.flip_inj.mp equal).symm

/-- Under the same condition, an edge that does not test the node's variable has another function. -/
theorem denote_ne_of_smaller (canonical : store.Canonical)
    (held : store.contents edge.index = some node) (inner : edge.index ≠ 1)
    (smaller : ∀ first second, store.Live first → store.Live second →
      store.rank first.index < store.rank edge.index →
      store.rank second.index < store.rank edge.index →
      store.denote first = store.denote second → first = second)
    {other : Edge} (above : store.From (node.var + 1) other) :
    store.denote edge ≠ store.denote other := by
  intro same
  have outside : node.var ∉ Set.Ici (node.var + 1) := Nat.not_succ_le_self _
  have independent := canonical.dependsOn_Ici above
  apply canonical.cofactors_ne_of_smaller held inner smaller
  rw [same, cofactor_of_notMem independent outside, cofactor_of_notMem independent outside]

/-- Edges to inner nodes with the same variable and the same children, signs included, are equal. -/
theorem eq_of_children_eq (canonical : store.Canonical) {first second : Edge} {other : Node}
    (held : store.contents first.index = some node) (inner : first.index ≠ 1)
    (otherHeld : store.contents second.index = some other) (otherInner : second.index ≠ 1)
    (sameVar : node.var = other.var)
    (children : ∀ value, (node.child value).flip first.isNegated =
      (other.child value).flip second.isNegated) : first = second := by
  have regular := (canonical.normal _ node held inner).high_regular
  have otherRegular := (canonical.normal _ other otherHeld otherInner).high_regular
  -- high edges are regular, so the signs of the high children are those of the edges
  have sameSign : first.isNegated = second.isNegated := by
    have signs := congrArg Edge.isNegated (children true)
    rw [Edge.isNegated_flip, Edge.isNegated_flip] at signs
    simp only [Node.child, if_true, regular, otherRegular, Bool.xor_false] at signs
    exact signs
  rw [sameSign] at children
  have sameNode : node = other := by
    have sameHigh := Edge.flip_inj.mp (children true)
    have sameLow := Edge.flip_inj.mp (children false)
    cases node
    cases other
    simp_all [Node.child]
  rw [← sameNode] at otherHeld
  exact Edge.eq_of_index_of_isNegated (canonical.distinct held otherHeld) sameSign

/-- Both constants point at the terminal, and their values tell them apart. -/
theorem eq_of_terminal (canonical : store.Canonical) {first second : Edge}
    (terminal : first.index = 1) (otherTerminal : second.index = 1)
    (same : store.denote first = store.denote second) : first = second := by
  refine Edge.eq_of_index_of_isNegated (terminal.trans otherTerminal.symm) ?_
  have sameValue := congrFun same fun _ => false
  simp only [denote, terminal, otherTerminal, canonical.slotValue_terminal,
    Bool.xor_true] at sameValue
  exact Bool.not_inj sameValue

/-- **Equal functions are equal edges.** The induction is on a bound of both ranks: comparing two
nodes of the same variable leads to their children, and a node whose variable the other edge does
not test leads to its own two children. -/
theorem eq_of_denote_eq (canonical : store.Canonical) {first second : Edge}
    (firstLive : store.Live first) (secondLive : store.Live second)
    (same : store.denote first = store.denote second) : first = second := by
  suffices ranked : ∀ fuel first second, store.Live first → store.Live second →
      store.rank first.index < fuel → store.rank second.index < fuel →
      store.denote first = store.denote second → first = second from
    ranked (max (store.rank first.index) (store.rank second.index) + 1) first second
      firstLive secondLive (by omega) (by omega) same
  intro fuel
  induction fuel with
  | zero =>
    intro first second _ _ small
    exact absurd small (Nat.not_lt_zero _)
  | succ fuel ih =>
    rintro first second ⟨node, held⟩ ⟨other, otherHeld⟩ small otherSmall same
    have smaller : ∀ edge : Edge, store.rank edge.index < fuel + 1 →
        ∀ left right, store.Live left → store.Live right →
          store.rank left.index < store.rank edge.index →
          store.rank right.index < store.rank edge.index →
          store.denote left = store.denote right → left = right :=
      fun edge small left right leftLive rightLive leftSmall rightSmall =>
        ih left right leftLive rightLive (by omega) (by omega)
    by_cases terminal : first.index = 1
    · by_cases otherTerminal : second.index = 1
      · exact canonical.eq_of_terminal terminal otherTerminal same
      · exact absurd same.symm (canonical.denote_ne_of_smaller otherHeld otherTerminal
          (smaller second otherSmall) ⟨node, held, Or.inl terminal⟩)
    · by_cases otherTerminal : second.index = 1
      · exact absurd same (canonical.denote_ne_of_smaller held terminal (smaller first small)
          ⟨other, otherHeld, Or.inl otherTerminal⟩)
      · rcases Nat.lt_trichotomy node.var other.var with earlier | sameVar | later
        · exact absurd same (canonical.denote_ne_of_smaller held terminal (smaller first small)
            ⟨other, otherHeld, Or.inr earlier⟩)
        · refine canonical.eq_of_children_eq held terminal otherHeld otherTerminal sameVar ?_
          intro value
          have onChild := ((canonical.normal _ node held terminal).child_from value).flip
            first.isNegated
          have onOther := ((canonical.normal _ other otherHeld otherTerminal).child_from value).flip
            second.isNegated
          have below := rank_lt_of_from held terminal onChild
          have otherBelow := rank_lt_of_from otherHeld otherTerminal onOther
          refine ih _ _ onChild.live onOther.live (by omega) (by omega) ?_
          rw [← canonical.cofactor_denote held terminal,
            ← canonical.cofactor_denote otherHeld otherTerminal, same, sameVar]
        · exact absurd same.symm (canonical.denote_ne_of_smaller otherHeld otherTerminal
            (smaller second otherSmall) ⟨node, held, Or.inr later⟩)

/-- A function depends on the variable of its node. -/
theorem cofactors_ne (canonical : store.Canonical) (held : store.contents edge.index = some node)
    (inner : edge.index ≠ 1) :
    cofactor (store.denote edge) node.var true ≠ cofactor (store.denote edge) node.var false :=
  canonical.cofactors_ne_of_smaller held inner fun _ _ firstLive secondLive _ _ same =>
    canonical.eq_of_denote_eq firstLive secondLive same

/-- A function depends on every variable that is tested below its edge. The induction is on the path
to the test: each step takes a cofactor, which no longer depends on the variable of the step. -/
theorem mem_of_tests (canonical : store.Canonical) {vars : Set Nat} {var : Nat}
    (live : store.Live edge) (depends : DependsOn (store.denote edge) vars)
    (tests : store.Tests edge var) : var ∈ vars := by
  obtain ⟨index, node, reaches, held, inner, rfl⟩ := tests
  generalize atStart : edge.index = start at reaches
  induction reaches using Relation.ReflTransGen.head_induction_on generalizing edge vars with
  | refl =>
    subst atStart
    by_contra outside
    apply canonical.cofactors_ne held inner
    rw [cofactor_of_notMem depends outside, cofactor_of_notMem depends outside]
  | @head start next follows rest ih =>
    subst atStart
    have passed : edge.index ≠ 1 := by
      intro terminal
      rw [terminal] at follows
      exact inner (canonical.reaches_one (canonical.child_one follows ▸ rest))
    obtain ⟨parent, parentHeld, side⟩ := follows
    have branch : ∀ value, next = (parent.child value).index → node.var ∈ vars := by
      intro value isNext
      have below := (canonical.normal _ parent parentHeld passed).child_from value
      have lower := dependsOn_cofactor depends parent.var value
      rw [canonical.cofactor_denote parentHeld passed] at lower
      exact (ih (below.flip edge.isNegated).live lower ((Edge.index_flip _ _).trans isNext.symm)).1
    exact side.elim (branch false) (branch true)

/-- An edge whose function depends on late variables only tests none before them. -/
theorem from_of_dependsOn (canonical : store.Canonical) {bound : Nat} (live : store.Live edge)
    (depends : DependsOn (store.denote edge) (Set.Ici bound)) : store.From bound edge := by
  obtain ⟨node, held⟩ := live
  by_cases terminal : edge.index = 1
  · exact ⟨node, held, Or.inl terminal⟩
  · refine ⟨node, held, Or.inr ?_⟩
    by_contra early
    have outside : node.var ∉ Set.Ici bound := early
    apply canonical.cofactors_ne held terminal
    rw [cofactor_of_notMem depends outside, cofactor_of_notMem depends outside]

end Canonical

end Store

end DecisionDiagram
