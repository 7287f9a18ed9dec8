import DecisionDiagram.Manager.Model
import DecisionDiagram.Proofs.Manager.Run

/-!
# Equality of edges decides equality of functions

After any run, two edges in use are the same signed number exactly when they have the same values.
Satisfiability, validity and complementarity are thereby decided without a search.
-/

set_option autoImplicit false

namespace DecisionDiagram.Manager

variable {manager : Manager} {edge first second : Edge} {assignment : List Bool}

theorem covers_neg {store : Store Node} :
    Covers store assignment (-edge) ↔ Covers store assignment edge := by
  unfold Covers Store.Tests
  rw [Edge.index_neg]

theorem covers_of_terminal {store : Store Node} (canonical : store.Canonical)
    (terminal : edge.index = 1) (assignment : List Bool) : Covers store assignment edge := by
  rintro var ⟨index, node, reaches, _, inner, _⟩
  rw [terminal] at reaches
  exact absurd (canonical.reaches_one reaches) inner

theorem value_eq_ok (canonical : manager.store.Canonical) (live : manager.store.Live edge)
    (covers : Covers manager.store assignment edge) :
    manager.value edge assignment =
      .ok (manager.store.denote edge (valuationOf assignment)) :=
  value_spec canonical live.represents covers

theorem value_neg_eq_ok (canonical : manager.store.Canonical) (live : manager.store.Live edge)
    (covers : Covers manager.store assignment edge) :
    manager.value (-edge) assignment =
      .ok !manager.store.denote edge (valuationOf assignment) :=
  value_spec canonical live.represents.neg (covers_neg.mpr covers)

/-- An edge is constant when all its values are the same. -/
theorem eq_constant_iff (canonical : manager.store.Canonical) (live : manager.store.Live edge)
    {constant : Edge} {value : Bool} (terminal : constant.index = 1)
    (represents : manager.store.Represents constant fun _ => value) :
    edge = constant ↔ ∀ assignment, Covers manager.store assignment edge →
      manager.value edge assignment = .ok value := by
  constructor
  · rintro rfl assignment covers
    exact value_spec canonical represents covers
  · intro values
    refine eq_of_value_eq canonical live represents.live fun assignment covers _ => ?_
    rw [values assignment covers, value_spec canonical represents
      (covers_of_terminal canonical terminal assignment)]

/-- An edge is the negation of another one when their values always differ. -/
theorem eq_neg_iff (canonical : manager.store.Canonical) (live : manager.store.Live first)
    (secondLive : manager.store.Live second) :
    first = -second ↔ ∀ assignment, Covers manager.store assignment first →
      Covers manager.store assignment second →
        ∃ value, manager.value first assignment = .ok value ∧
          manager.value second assignment = .ok !value := by
  constructor
  · rintro rfl assignment _ covers
    refine ⟨_, value_neg_eq_ok canonical secondLive covers, ?_⟩
    rw [value_eq_ok canonical secondLive covers, Bool.not_not]
  · intro differ
    apply eq_of_value_eq canonical live (Store.live_neg.mpr secondLive)
    intro assignment covers negCovers
    have secondCovers := covers_neg.mp negCovers
    obtain ⟨value, isValue, isOther⟩ := differ assignment covers secondCovers
    rw [value_eq_ok canonical secondLive secondCovers] at isOther
    rw [isValue, value_neg_eq_ok canonical secondLive secondCovers, Except.ok.inj isOther,
      Bool.not_not]

/-- **Canonicity.** After any run, edges in use are equal exactly when their values are. The
constants and negation are special cases. -/
theorem attained_eq_iff {config : Config} (attained : Attained config manager)
    (live : manager.store.Live first) (secondLive : manager.store.Live second) :
    (first = second ↔ ∀ assignment, Covers manager.store assignment first →
      Covers manager.store assignment second →
        ∃ value, manager.value first assignment = .ok value ∧
          manager.value second assignment = .ok value) ∧
    (first = .zero ↔ ∀ assignment, Covers manager.store assignment first →
      manager.value first assignment = .ok false) ∧
    (first = .one ↔ ∀ assignment, Covers manager.store assignment first →
      manager.value first assignment = .ok true) ∧
    (first = -second ↔ ∀ assignment, Covers manager.store assignment first →
      Covers manager.store assignment second →
        ∃ value, manager.value first assignment = .ok value ∧
          manager.value second assignment = .ok !value) := by
  have canonical := attained.sound.canonical
  refine ⟨⟨?_, ?_⟩, eq_constant_iff canonical live rfl canonical.represents_zero,
    eq_constant_iff canonical live rfl canonical.represents_one,
    eq_neg_iff canonical live secondLive⟩
  · rintro rfl assignment covers _
    exact ⟨_, value_eq_ok canonical live covers, value_eq_ok canonical live covers⟩
  · intro agree
    refine eq_of_value_eq canonical live secondLive fun assignment covers secondCovers => ?_
    obtain ⟨value, isValue, isSame⟩ := agree assignment covers secondCovers
    rw [isValue, isSame]

/-- Two different literals differ under some assignment. -/
theorem literals_differ : ∃ manager, Attained ⟨3, 2, 2⟩ manager ∧
    ¬∀ assignment, Covers manager.store assignment ⟨2, by decide⟩ →
      Covers manager.store assignment ⟨3, by decide⟩ →
        ∃ value, manager.value ⟨2, by decide⟩ assignment = .ok value ∧
          manager.value ⟨3, by decide⟩ assignment = .ok value := by
  obtain ⟨manager, attained, live, secondLive, _⟩ := attained_literals
  refine ⟨manager, attained, fun agree => ?_⟩
  have same := (attained_eq_iff attained live secondLive).1.mpr agree
  exact absurd (congrArg Edge.code same) (by decide)

end DecisionDiagram.Manager
