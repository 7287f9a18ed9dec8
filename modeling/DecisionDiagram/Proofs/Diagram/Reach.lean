import DecisionDiagram.Proofs.Diagram.Canonical
import Mathlib.Logic.Relation

/-!
# What lies below an edge

The slots that are met when low and high edges are followed, and the variables that are tested on
the way. A function depends on the variables tested below its edge only (`dependsOn_tests`), and in
a canonical store none of them comes before the edge's own.
-/

set_option autoImplicit false

namespace DecisionDiagram.Store

variable {store : Store Node}

/-- One slot holds a node with an edge to another slot. -/
def Child (store : Store Node) (parent child : Nat) : Prop :=
  ∃ node, store.contents parent = some node ∧ (child = node.low.index ∨ child = node.high.index)

def Reaches (store : Store Node) : Nat → Nat → Prop := Relation.ReflTransGen store.Child

/-- The slots at or below some edges, and the terminal's. -/
def below (store : Store Node) (edges : List Edge) : Set Nat :=
  {index | index = 1 ∨ ∃ edge ∈ edges, store.Reaches edge.index index}

/-- The variable is tested below the edge. -/
def Tests (store : Store Node) (edge : Edge) (var : Nat) : Prop :=
  ∃ index node, store.Reaches edge.index index ∧ store.contents index = some node ∧ index ≠ 1 ∧
    node.var = var

theorem child_follow {index : Nat} {node : Node} (held : store.contents index = some node)
    (valuation : Valuation) : store.Child index (node.follow valuation).index := by
  refine ⟨node, held, ?_⟩
  unfold Node.follow
  split
  · exact Or.inr rfl
  · exact Or.inl rfl

theorem mem_below_of_mem {edges : List Edge} {edge : Edge} (member : edge ∈ edges) :
    edge.index ∈ store.below edges :=
  Or.inr ⟨edge, member, Relation.ReflTransGen.refl⟩

namespace Canonical

variable {edge : Edge}

theorem child_live (canonical : store.Canonical) {parent child : Nat}
    (follows : store.Child parent child) : ∃ node, store.contents child = some node := by
  obtain ⟨node, held, side⟩ := follows
  by_cases terminal : parent = 1
  · rw [terminal, canonical.terminal] at held
    rw [← Option.some.inj held] at side
    have ends : child = 1 := side.elim id id
    exact ⟨_, ends ▸ canonical.terminal⟩
  · have normal := canonical.normal parent node held terminal
    rcases side with low | high
    · exact low ▸ normal.low_from.live
    · exact high ▸ normal.high_from.live

theorem reaches_live (canonical : store.Canonical) {first last : Nat} {node : Node}
    (held : store.contents first = some node) (reaches : store.Reaches first last) :
    ∃ node, store.contents last = some node := by
  induction reaches with
  | refl => exact ⟨node, held⟩
  | tail _ follows _ => exact canonical.child_live follows

theorem child_one (canonical : store.Canonical) {child : Nat} (follows : store.Child 1 child) :
    child = 1 := by
  obtain ⟨node, held, side⟩ := follows
  rw [canonical.terminal] at held
  rw [← Option.some.inj held] at side
  exact side.elim id id

theorem reaches_one (canonical : store.Canonical) {last : Nat} (reaches : store.Reaches 1 last) :
    last = 1 := by
  induction reaches with
  | refl => rfl
  | tail _ follows ih => exact canonical.child_one (ih ▸ follows)

theorem below_live (canonical : store.Canonical) {edges : List Edge}
    (live : ∀ edge ∈ edges, store.Live edge) {index : Nat} (member : index ∈ store.below edges) :
    ∃ node, store.contents index = some node := by
  rcases member with terminal | ⟨edge, known, reaches⟩
  · exact ⟨_, terminal ▸ canonical.terminal⟩
  · obtain ⟨node, held⟩ := live edge known
    exact canonical.reaches_live held reaches

theorem child_mem_below (canonical : store.Canonical) {edges : List Edge} {parent child : Nat}
    (member : parent ∈ store.below edges) (follows : store.Child parent child) :
    child ∈ store.below edges := by
  rcases member with terminal | ⟨edge, known, reaches⟩
  · exact Or.inl (canonical.child_one (terminal ▸ follows))
  · exact Or.inr ⟨edge, known, reaches.tail follows⟩

/-- No slot below an edge tests a variable before the edge's own. -/
theorem reaches_from (canonical : store.Canonical) {bound first last : Nat} {node : Node}
    (held : store.contents first = some node) (tests : first = 1 ∨ bound ≤ node.var)
    (reaches : store.Reaches first last) :
    ∃ node, store.contents last = some node ∧ (last = 1 ∨ bound ≤ node.var) := by
  induction reaches with
  | refl => exact ⟨node, held, tests⟩
  | @tail parent child _ follows ih =>
    obtain ⟨above, aboveHeld, aboveTests⟩ := ih
    by_cases terminal : parent = 1
    · have ends := canonical.child_one (terminal ▸ follows)
      exact ⟨_, ends ▸ canonical.terminal, Or.inl ends⟩
    · have atLeast := aboveTests.resolve_left terminal
      have normal := canonical.normal parent above aboveHeld terminal
      obtain ⟨same, sameHeld, side⟩ := follows
      rw [aboveHeld] at sameHeld
      obtain rfl := Option.some.inj sameHeld
      rcases side with low | high
      · rw [low]
        exact normal.low_from.mono (by omega)
      · rw [high]
        exact normal.high_from.mono (by omega)

theorem tests_mem_testedVars {var : Nat} (tests : store.Tests edge var) :
    var ∈ store.testedVars := by
  obtain ⟨index, node, _, held, inner, rfl⟩ := tests
  exact mem_testedVars held inner

theorem tests_pos (canonical : store.Canonical) {var : Nat} (tests : store.Tests edge var) :
    0 < var := by
  obtain ⟨index, node, _, held, inner, rfl⟩ := tests
  exact (canonical.normal index node held inner).var_pos

theorem le_of_tests (canonical : store.Canonical) {bound var : Nat}
    (above : store.From bound edge) (tests : store.Tests edge var) : bound ≤ var := by
  obtain ⟨top, topHeld, topTests⟩ := above
  obtain ⟨index, node, reaches, held, inner, rfl⟩ := tests
  obtain ⟨same, sameHeld, atLeast⟩ := canonical.reaches_from topHeld topTests reaches
  rw [held] at sameHeld
  obtain rfl := Option.some.inj sameHeld
  exact atLeast.resolve_left inner

/-- The function of an edge depends only on the variables that are tested below it. -/
theorem dependsOn_tests (canonical : store.Canonical) (live : store.Live edge) :
    DependsOn (store.denote edge) {var | store.Tests edge var} := by
  -- the induction is on a bound of the rank, for all edges at once
  suffices ranked : ∀ fuel edge, store.Live edge → store.rank edge.index ≤ fuel →
      DependsOn (store.denote edge) {var | store.Tests edge var} from
    ranked _ edge live (Nat.le_refl _)
  intro fuel
  induction fuel with
  | zero =>
    rintro edge ⟨node, held⟩ small first second agree
    by_cases terminal : edge.index = 1
    · simp only [denote, terminal, canonical.slotValue_terminal]
    · have := rank_lt_of_from held terminal (canonical.normal _ node held terminal).high_from
      omega
  | succ fuel ih =>
    rintro edge ⟨node, held⟩ small first second agree
    by_cases terminal : edge.index = 1
    · simp only [denote, terminal, canonical.slotValue_terminal]
    · have above := (canonical.normal _ node held terminal).follow_from second
      have lower := rank_lt_of_from held terminal above
      have sameBranch : node.follow first = node.follow second := by
        unfold Node.follow
        rw [agree node.var ⟨_, node, Relation.ReflTransGen.refl, held, terminal, rfl⟩]
      rw [canonical.denote_follow held, canonical.denote_follow held, sameBranch]
      congr 1
      refine ih _ above.live (by omega) fun var tested => agree var ?_
      obtain ⟨index, inner, reaches, rest⟩ := tested
      exact ⟨index, inner, Relation.ReflTransGen.head (child_follow held second) reaches, rest⟩

theorem dependsOn_testedVars (canonical : store.Canonical) (live : store.Live edge) :
    DependsOn (store.denote edge) ↑store.testedVars :=
  (canonical.dependsOn_tests live).mono fun _ tests => tests_mem_testedVars tests

theorem dependsOn_Ici (canonical : store.Canonical) {bound : Nat} (above : store.From bound edge) :
    DependsOn (store.denote edge) (Set.Ici bound) :=
  (canonical.dependsOn_tests above.live).mono fun _ tests => canonical.le_of_tests above tests

end Canonical

end DecisionDiagram.Store
