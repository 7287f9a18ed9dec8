import DecisionDiagram.Manager.Model
import DecisionDiagram.Proofs.Manager.Run

/-!
# The connectives compute what they are named after

After any run, whatever the caches hold by then, the edge that a connective returns has the value
that the truth function makes of the values of the operands.
-/

set_option autoImplicit false

namespace DecisionDiagram.Manager

variable {before manager : Manager} {first second third : Edge}

/-- What an action makes of the values of its operands. -/
structure Computes (before : Manager) (action : Action Edge) (operands : List Edge)
    (combine : (Edge → Bool) → Bool) : Prop where
  /-- Where an assignment covers the operands, they have values, before as after, and so does the
  returned edge. -/
  value : ∀ edge after, action before = .ok edge after → ∀ assignment,
    (∀ operand ∈ operands, Covers before.store assignment operand) →
      ∃ value : Edge → Bool,
        (∀ operand ∈ operands, before.value operand assignment = .ok (value operand) ∧
          after.value operand assignment = .ok (value operand)) ∧
        after.value edge assignment = .ok (combine value)
  /-- Only a full store keeps the action from returning. -/
  fault : ∀ fault after, action before = .error fault after → OutOfSpace fault after

/-- The values of an edge in use stay when a store grows. -/
theorem grown_value {after : Manager} {edge : Edge} {function : BoolFunction}
    {assignment : List Bool} (grown : before.store.Grown after.store)
    (represents : before.store.Represents edge function)
    (covers : Covers before.store assignment edge) :
    after.value edge assignment = .ok (function (valuationOf assignment)) := by
  have later := grown.represents represents
  have depends := (covers_iff_dependsOn grown.origin represents).mp covers
  exact Manager.value_spec grown.canonical later
    ((covers_iff_dependsOn grown.canonical later).mpr depends)

/-- Where the operands have values, they keep them, and what stands for a combination of the operands
has the value that is combined of theirs. -/
theorem value_of_operands {after : Manager} {edge : Edge} {operands : List Edge}
    {combine : (Edge → Bool) → Bool} (grown : before.store.Grown after.store)
    (live : ∀ operand ∈ operands, before.store.Live operand)
    (onOperands : ∀ left right : Edge → Bool,
      (∀ operand ∈ operands, left operand = right operand) → combine left = combine right)
    (represents : after.store.Represents edge fun valuation =>
      combine fun operand => before.store.denote operand valuation)
    (assignment : List Bool) (covers : ∀ operand ∈ operands, Covers before.store assignment operand) :
    ∃ value : Edge → Bool,
      (∀ operand ∈ operands, before.value operand assignment = .ok (value operand) ∧
        after.value operand assignment = .ok (value operand)) ∧
      after.value edge assignment = .ok (combine value) := by
  refine ⟨fun operand => before.store.denote operand (valuationOf assignment), ?_, ?_⟩
  · intro operand member
    have known := (live operand member).represents
    exact ⟨value_spec grown.origin known (covers operand member),
      grown_value grown known (covers operand member)⟩
  · exact value_spec grown.canonical represents
      (covers_of_operands grown.origin grown.canonical onOperands represents live covers)

/-- An action computes what its result stands for, provided that this depends on nothing but the
operands. -/
theorem computes_of_represents {action : Action Edge} {operands : List Edge}
    {combine : (Edge → Bool) → Bool} (sound : before.Sound)
    (live : ∀ operand ∈ operands, before.store.Live operand)
    (onOperands : ∀ left right : Edge → Bool,
      (∀ operand ∈ operands, left operand = right operand) → combine left = combine right)
    (constructs : Constructs action before
      (fun edge after => after.store.Represents edge fun valuation =>
        combine fun operand => before.store.denote operand valuation) fun _ => False) :
    Computes before action operands combine where
  value edge after run := by
    obtain ⟨grows, represents⟩ := constructs.result edge after run
    exact value_of_operands (grows.grown sound) live onOperands represents
  fault _ _ := constructs.outOfSpace

theorem computes_pair {action : Action Edge} {truth : Bool → Bool → Bool} (sound : before.Sound)
    (live : before.store.Live first) (secondLive : before.store.Live second)
    (constructs : Constructs action before
      (fun edge after => after.store.Represents edge fun valuation =>
        truth (before.store.denote first valuation) (before.store.denote second valuation))
      fun _ => False) :
    Computes before action [first, second] fun value => truth (value first) (value second) := by
  refine computes_of_represents sound ?_ ?_ constructs
  · exact List.forall_mem_cons.mpr ⟨live, List.forall_mem_singleton.mpr secondLive⟩
  · intro left right agree
    obtain ⟨onFirst, others⟩ := List.forall_mem_cons.mp agree
    rw [onFirst, List.forall_mem_singleton.mp others]

theorem computes_ite (sound : before.Sound) (live : before.store.Live first)
    (secondLive : before.store.Live second) (thirdLive : before.store.Live third) :
    Computes before (ite first second third) [first, second, third]
      fun value => if value first then value second else value third := by
  refine computes_of_represents sound ?_ ?_
    (ite_spec sound live.represents secondLive.represents thirdLive.represents)
  · exact List.forall_mem_cons.mpr ⟨live, List.forall_mem_cons.mpr
      ⟨secondLive, List.forall_mem_singleton.mpr thirdLive⟩⟩
  · intro left right agree
    obtain ⟨onFirst, others⟩ := List.forall_mem_cons.mp agree
    obtain ⟨onSecond, last⟩ := List.forall_mem_cons.mp others
    rw [onFirst, onSecond, List.forall_mem_singleton.mp last]

/-- **The algebra is computed correctly through the caches**, from every state of every run. -/
theorem attained_computes {config : Config} (attained : Attained config manager)
    (live : manager.store.Live first) (secondLive : manager.store.Live second)
    (thirdLive : manager.store.Live third) :
    Computes manager (ite first second third) [first, second, third]
      (fun value => if value first then value second else value third) ∧
    Computes manager (apply .and first second) [first, second]
      (fun value => value first && value second) ∧
    Computes manager (apply .or first second) [first, second]
      (fun value => value first || value second) ∧
    Computes manager (apply .xor first second) [first, second]
      (fun value => value first ^^ value second) ∧
    Computes manager (iff first second) [first, second]
      (fun value => value first == value second) ∧
    Computes manager (imp first second) [first, second]
      (fun value => !value first || value second) := by
  have sound := attained.sound
  have one := live.represents
  have two := secondLive.represents
  exact ⟨computes_ite sound live secondLive thirdLive,
    computes_pair sound live secondLive (apply_spec .and sound one two),
    computes_pair sound live secondLive (apply_spec .or sound one two),
    computes_pair sound live secondLive (apply_spec .xor sound one two),
    @computes_pair _ _ _ _ (· == ·) sound live secondLive (iff_spec sound one two),
    @computes_pair _ _ _ _ (!· || ·) sound live secondLive (imp_spec sound one two)⟩

/-- The conjunction of two literals, one of them complemented, after a run. -/
theorem computes_and_of_literals : ∃ manager, Attained ⟨3, 2, 2⟩ manager ∧
    Computes manager (apply .and ⟨2, by decide⟩ ⟨-3, by decide⟩) [⟨2, by decide⟩, ⟨-3, by decide⟩]
      fun value => value ⟨2, by decide⟩ && value ⟨-3, by decide⟩ := by
  obtain ⟨manager, attained, live, secondLive, thirdLive⟩ := attained_literals
  have negLive : manager.store.Live ⟨-3, by decide⟩ := Store.live_neg.mpr secondLive
  exact ⟨manager, attained, (attained_computes attained live negLive thirdLive).2.1⟩

end DecisionDiagram.Manager
