import DecisionDiagram.Manager.Construct
import DecisionDiagram.Proofs.Manager.Confined
import DecisionDiagram.Proofs.Manager.Questions

/-!
# Building one node

`node` builds the edge of a branch whose two functions depend on later variables only. Asked to
violate the order it faults and changes nothing.
-/

set_option autoImplicit false

namespace DecisionDiagram.Manager

variable {before : Manager} {scope : Scope} {store : Store Node} {var : Nat} {low high : Edge}
  {onLow onHigh : BoolFunction}

theorem onStore_ok {Result : Type} {action : Store.Action Node Result} {result : Result}
    {store : Store Node} (run : action before.store = .ok result store) :
    onStore action before = .ok result { before with store := store } := by
  cases before
  simp only at run
  simp only [onStore, run]

theorem onStore_error {Result : Type} {action : Store.Action Node Result} {fault : Fault}
    {store : Store Node} (run : action before.store = .error fault store) :
    onStore action before = .error fault { before with store := store } := by
  cases before
  simp only at run
  simp only [onStore, run]

theorem checkOrder_eq {manager : Manager} {child : Edge} {node : Node}
    (held : manager.store.contents child.index = some node) :
    manager.checkOrder var child =
      if node.var = 0 ∨ var < node.var then .ok ()
      else .error (.orderViolated child node.var var) := by
  unfold checkOrder
  rw [var_eq_ok held]
  rfl

/-- Exactly the children with later variables pass the check of the order. -/
theorem checkOrder_eq_ok_iff {manager : Manager} {child : Edge}
    (canonical : manager.store.Canonical) (live : manager.store.Live child) :
    manager.checkOrder var child = .ok () ↔ manager.store.From (var + 1) child := by
  obtain ⟨node, held⟩ := live
  have passes : (node.var = 0 ∨ var < node.var) ↔ manager.store.From (var + 1) child := by
    rw [canonical.var_eq_zero_iff held]
    constructor
    · exact fun tests => ⟨node, held, tests⟩
    · rintro ⟨same, sameHeld, tests⟩
      rw [held] at sameHeld
      rw [Option.some.inj sameHeld]
      exact tests
  rw [checkOrder_eq held, ← passes]
  split
  · exact iff_of_true rfl ‹_›
  · exact iff_of_false (fun same => nomatch same) ‹_›

/-- A slot in use has an uncomplemented edge. -/
theorem positive_spec {store : Store Node} (canonical : store.Canonical) {index : Nat} {node : Node}
    (held : store.contents index = some node) :
    ∃ edge, Edge.positive index = .ok edge ∧ edge.index = index ∧ edge.isNegated = false := by
  have inRange := Nat.lt_of_lt_of_le (Store.lt_capacity_of_contents held) canonical.capacity_le
  exact ⟨_, Edge.positive_eq_ok (Store.ne_zero_of_contents held) inRange,
    Int.natAbs_natCast index, decide_eq_false (Int.not_lt.mpr (Int.natCast_nonneg index))⟩

/-- A node in normal form is found or stored. -/
theorem put_confined (canonical : store.Canonical) {node : Node} (normal : store.Normal node)
    (representsHigh : store.Represents node.high onHigh)
    (represents : store.Represents node.low onLow)
    (member : branch node.var onHigh onLow ∈ scope.family) :
    Confined steady scope (onStore (Store.put node)) store
      fun index after => after.contents index = some node := by
  have threaded := canonical.threaded
  by_cases stored : ∃ index, index ∉ ({1} : Set Nat) ∧ store.contents index = some node
  · obtain ⟨index, tight, held⟩ := stored
    have found := threaded.put_found canonical.allotted tight held (beq_self_eq_true node)
    exact ⟨.ok index, store, .onStore found canonical (.refl _), .returns canonical held⟩
  · have absent : ∀ index, index ∉ ({1} : Set Nat) → store.contents index ≠ some node :=
      fun index tight held => stored ⟨index, tight, held⟩
    have lacks : store.Lacks ({1} : Set Nat)ᶜ node := Store.lacks_iff.mpr absent
    have missing : branch node.var onHigh onLow ∉ store.functions := by
      rintro ⟨edge, known⟩
      obtain ⟨inner, held⟩ :=
        canonical.contents_of_branch normal representsHigh represents known
      exact absent edge.index inner held
    by_cases space : store.firstFree < store.capacity
    · obtain ⟨after, run, inserted⟩ := threaded.put_new canonical.allotted lacks space
      have lowest := canonical.allotted.lowestFree space
      have afterCanonical := canonical.inserted lowest normal absent inserted
      have grown : store.Grown after :=
        ⟨canonical, afterCanonical, inserted.extends lowest.free⟩
      have held : after.contents store.firstFree = some node := by
        rw [inserted.contents, Function.update_self]
      obtain ⟨edge, _, isNew, plain⟩ := positive_spec afterCanonical held
      have result : after.Represents edge (branch node.var onHigh onLow) :=
        afterCanonical.represents_branch (isNew ▸ held) plain (grown.represents representsHigh)
          (grown.represents represents)
      refine ⟨.ok store.firstFree, after, .onStore run afterCanonical grown.more, ?_⟩
      exact
        { grown := grown
          within := inserted.functions_subset lowest canonical afterCanonical result isNew
            scope.closed member
          unchanged := fun same => absurd (same result.mem_functions) missing
          returned := by
            rintro _ ⟨⟩
            exact held
          faulted := fun _ impossible => nomatch impossible }
    · have refused := threaded.put_full canonical.allotted lacks space
      refine ⟨.error _, store, .onStore refused canonical (.refl _), ?_⟩
      exact
        { grown := .refl canonical
          within := Set.subset_union_left
          unchanged := fun _ => rfl
          returned := fun _ impossible => nomatch impossible
          faulted := by
            rintro _ ⟨⟩
            exact Or.inl ⟨rfl, canonical.allotted.full space, _, member, missing⟩ }

theorem stored_confined (canonical : store.Canonical) {node : Node} (normal : store.Normal node)
    (representsHigh : store.Represents node.high onHigh)
    (represents : store.Represents node.low onLow)
    (member : branch node.var onHigh onLow ∈ scope.family) :
    Confined steady scope
      (onStore (Store.put node) >>= fun index => liftM (Edge.positive index)) store
      fun edge after => after.Represents edge (branch node.var onHigh onLow) := by
  refine (put_confined canonical normal representsHigh represents member).bind ?_
  intro index after grown held
  obtain ⟨edge, made, sameIndex, plain⟩ := positive_spec grown.canonical held
  rw [← sameIndex] at held
  exact Confined.read grown.canonical made (grown.canonical.represents_branch held plain
    (grown.represents representsHigh) (grown.represents represents))

/-- A branch that can be asked for: the two functions depend on later variables, or they are one. -/
def Fits (var : Nat) (onHigh onLow : BoolFunction) : Prop :=
  var ≠ 0 ∧ (onLow = onHigh ∨ DependsOn onLow (Set.Ioi var) ∧ DependsOn onHigh (Set.Ioi var))

theorem Fits.neg {onHigh onLow : BoolFunction} (fits : Fits var onHigh onLow) :
    Fits var (fun valuation => !onHigh valuation) fun valuation => !onLow valuation := by
  refine ⟨fits.1, fits.2.imp ?_ ?_⟩
  · exact fun same => congrArg (fun function valuation => !function valuation) same
  · exact fun depends => ⟨dependsOn_not depends.1, dependsOn_not depends.2⟩

theorem fits_not_iff : Fits var (fun valuation => !onHigh valuation)
    (fun valuation => !onLow valuation) ↔ Fits var onHigh onLow := by
  refine ⟨fun fits => ?_, Fits.neg⟩
  have back := fits.neg
  simp only [Bool.not_not] at back
  exact back

theorem branch_not (var : Nat) (onHigh onLow : BoolFunction) :
    branch var (fun valuation => !onHigh valuation) (fun valuation => !onLow valuation) =
      fun valuation => !branch var onHigh onLow valuation := by
  funext valuation
  unfold branch
  split <;> rfl

theorem branch_self (var : Nat) (function : BoolFunction) : branch var function function = function :=
  funext fun _ => ite_self _

theorem regularNode_confined (canonical : store.Canonical) (positive : var ≠ 0)
    (regular : high.isNegated = false) (represents : store.Represents low onLow)
    (representsHigh : store.Represents high onHigh)
    (member : Fits var onHigh onLow → branch var onHigh onLow ∈ scope.family)
    (misfit : ¬ Fits var onHigh onLow → ∀ fault, scope.allows fault) :
    Confined steady scope (regularNode var low high) store
      fun edge after => Fits var onHigh onLow ∧
        after.Represents edge (branch var onHigh onLow) := by
  unfold regularNode
  by_cases same : low = high
  · rw [if_pos same]
    have equal : onLow = onHigh := represents.eq_of_eq representsHigh same
    refine Confined.pure canonical ⟨⟨positive, Or.inl equal⟩, ?_⟩
    rw [equal, branch_self, ← equal]
    exact represents
  · rw [if_neg same]
    have different : onLow ≠ onHigh := fun equal =>
      same (represents.unique canonical (equal ▸ representsHigh))
    have passes : ∀ {child : Edge} {function : BoolFunction}, store.Represents child function →
        ((bare store).checkOrder var child = .ok () ↔ DependsOn function (Set.Ioi var)) := by
      intro child function stands
      rw [checkOrder_eq_ok_iff (bare_sound canonical).canonical stands.live]
      exact ⟨stands.dependsOn_Ici canonical, stands.from_of_dependsOn canonical⟩
    have early : ∀ {child : Edge} {function : BoolFunction}, store.Represents child function →
        ∀ fault, (bare store).checkOrder var child = .error fault →
          ¬ DependsOn function (Set.Ioi var) := by
      intro child function stands fault failed depends
      rw [(passes stands).mpr depends] at failed
      cases failed
    refine Confined.ask_any canonical (fun _ => rfl) (fun fault failed => ?_) fun _ lowPasses => ?_
    · exact misfit (fun fits => early represents fault failed (fits.2.resolve_left different).1) fault
    refine Confined.ask_any canonical (fun _ => rfl) (fun fault failed => ?_) fun _ highPasses => ?_
    · exact misfit (fun fits => early representsHigh fault failed
        (fits.2.resolve_left different).2) fault
    have depends := (passes represents).mp lowPasses
    have dependsHigh := (passes representsHigh).mp highPasses
    have fits : Fits var onHigh onLow := ⟨positive, Or.inr ⟨depends, dependsHigh⟩⟩
    have normal : store.Normal ⟨var, low, high⟩ :=
      ⟨Nat.pos_of_ne_zero positive, regular, same,
        represents.from_of_dependsOn canonical depends,
        representsHigh.from_of_dependsOn canonical dependsHigh⟩
    apply (stored_confined canonical normal representsHigh represents (member fits)).weaken
    exact fun edge after _ result => ⟨fits, result⟩

/-- The edge of a branch that can be asked for. Anything else is a fault. -/
theorem node_confined (canonical : store.Canonical) (var : Nat)
    (represents : store.Represents low onLow) (representsHigh : store.Represents high onHigh)
    (member : Fits var onHigh onLow → branch var onHigh onLow ∈ scope.family)
    (misfit : ¬ Fits var onHigh onLow → ∀ fault, scope.allows fault) :
    Confined steady scope (node var low high) store
      fun edge after => Fits var onHigh onLow ∧
        after.Represents edge (branch var onHigh onLow) := by
  unfold node
  by_cases zero : var = 0
  · rw [if_pos zero]
    exact Confined.throw_bind canonical (misfit (fun fits => fits.1 zero) _)
  rw [if_neg zero]
  cases negated : high.isNegated with
  | false => exact regularNode_confined canonical zero negated represents representsHigh member misfit
  | true =>
    rw [if_pos rfl]
    apply Confined.read_bind canonical (canonical.negate_eq_ok represents.live)
    apply Confined.read_bind canonical (canonical.negate_eq_ok representsHigh.live)
    have regular : (-high).isNegated = false := by
      rw [Edge.isNegated_neg, negated]
      rfl
    refine (regularNode_confined canonical zero regular represents.neg representsHigh.neg
      ?_ ?_).bind ?_
    · intro fits
      rw [branch_not]
      exact scope.closed.neg _ (member (fits_not_iff.mp fits))
    · exact fun unfit => misfit (mt Fits.neg unfit)
    · rintro edge after grown ⟨fits, result⟩
      apply Confined.read grown.canonical (grown.canonical.negate_eq_ok result.live)
      refine ⟨fits_not_iff.mp fits, ?_⟩
      rw [branch_not] at result
      have back := result.neg
      simp only [Bool.not_not] at back
      exact back

/-- A function is joined again from the edges of its two cofactors. -/
theorem join_confined {function : BoolFunction} (canonical : store.Canonical) (positive : var ≠ 0)
    (depends : DependsOn function (Set.Ici var))
    (represents : store.Represents low (cofactor function var false))
    (representsHigh : store.Represents high (cofactor function var true))
    (member : function ∈ scope.family) :
    Confined steady scope (node var low high) store
      fun edge after => after.Represents edge function := by
  have fits : Fits var (cofactor function var true) (cofactor function var false) :=
    ⟨positive, Or.inr ⟨dependsOn_cofactor_Ioi depends false, dependsOn_cofactor_Ioi depends true⟩⟩
  have whole := shannon function var
  refine (node_confined canonical var represents representsHigh ?_ ?_).weaken ?_
  · intro _
    rw [whole]
    exact member
  · exact fun unfit => absurd fits unfit
  · rintro edge after _ ⟨_, result⟩
    rw [whole] at result
    exact result

/-! ## Literals -/

/-- The function of a literal. -/
def literalFunction (number : Int) : BoolFunction := fun valuation =>
  decide (number < 0) ^^ valuation number.natAbs

theorem dependsOn_literalFunction {number : Int} {vars : Set Nat} (member : number.natAbs ∈ vars) :
    DependsOn (literalFunction number) vars :=
  fun _ _ agree => congrArg (decide (number < 0) ^^ ·) (agree _ member)

theorem branch_constants (var : Nat) :
    branch var (fun _ => true) (fun _ => false) = fun valuation => valuation var := by
  funext valuation
  unfold branch
  cases valuation var <;> rfl

/-- The literals that can be asked for. -/
def Literal (number : Int) : Prop := number ≠ 0 ∧ number ≠ leastCode

/-- The node of the variable of a literal, with the sign of the literal. -/
def literalNode (number : Int) : Action Edge := do
  if number < 0 then
    (← node number.natAbs .zero .one).negate
  else
    node number.natAbs .zero .one

theorem literalNode_confined {number : Int} (canonical : store.Canonical) (nonzero : number ≠ 0)
    (member : literalFunction number ∈ scope.family) :
    Confined steady scope (literalNode number) store
      fun edge after => after.Represents edge (literalFunction number) := by
  have constant : ∀ value : Bool, DependsOn (fun _ : Valuation => value) (Set.Ioi number.natAbs) :=
    fun value => (dependsOn_const value).mono (Set.empty_subset _)
  have fits : Fits number.natAbs (fun _ => true) fun _ => false :=
    ⟨Int.natAbs_ne_zero.mpr nonzero, Or.inr ⟨constant false, constant true⟩⟩
  have plain : (fun valuation : Valuation => valuation number.natAbs) ∈ scope.family →
      Confined steady scope (node number.natAbs .zero .one) store
        fun edge after => after.Represents edge fun valuation => valuation number.natAbs := by
    intro known
    rw [← branch_constants] at known ⊢
    exact (node_confined canonical number.natAbs canonical.represents_zero
      canonical.represents_one (fun _ => known) fun unfit => absurd fits unfit).weaken
        fun _ _ _ result => result.2
  unfold literalNode
  by_cases negative : number < 0
  · rw [if_pos negative]
    have isNegated : literalFunction number = fun valuation => !valuation number.natAbs := by
      funext valuation
      simp [literalFunction, negative]
    rw [isNegated] at member ⊢
    apply (plain (scope.closed.of_neg member)).bind
    intro edge after grown result
    exact Confined.read grown.canonical (grown.canonical.negate_eq_ok result.live) result.neg
  · rw [if_neg negative]
    have isPlain : literalFunction number = fun valuation => valuation number.natAbs := by
      funext valuation
      simp [literalFunction, negative]
    rw [isPlain] at member ⊢
    exact plain member

theorem literal_eq_literalNode {number : Int} (proper : Literal number) :
    literal number = literalNode number := by
  have opposite : negateCode number = .ok (-number) := if_neg proper.2
  unfold literal literalNode
  rw [if_neg proper.1]
  by_cases negative : number < 0
  · rw [if_pos negative, if_pos negative, opposite]
    show (node (-number).natAbs .zero .one >>= fun edge => liftM edge.negate) = _
    rw [Int.natAbs_neg]
  · rw [if_neg negative, if_neg negative]

theorem literal_leastCode (manager : Manager) :
    literal leastCode manager = .error .negateOverflow manager := rfl

theorem literal_confined (canonical : store.Canonical) (number : Int)
    (member : Literal number → literalFunction number ∈ scope.family)
    (misfit : ¬ Literal number → ∀ fault, scope.allows fault) :
    Confined steady scope (literal number) store
      fun edge after => Literal number ∧ after.Represents edge (literalFunction number) := by
  by_cases zero : number = 0
  · unfold literal
    rw [if_pos zero]
    exact Confined.throw_bind canonical (misfit (fun proper => proper.1 zero) _)
  by_cases least : number = leastCode
  · subst least
    have refused : literal leastCode = throw .negateOverflow := funext literal_leastCode
    rw [refused]
    exact Confined.throw canonical (misfit (fun proper => proper.2 rfl) _)
  · have proper : Literal number := ⟨zero, least⟩
    rw [literal_eq_literalNode proper]
    exact (literalNode_confined canonical zero (member proper)).weaken
      fun _ _ _ represents => ⟨proper, represents⟩

end DecisionDiagram.Manager
