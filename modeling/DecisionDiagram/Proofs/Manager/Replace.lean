import DecisionDiagram.Manager.Replace
import DecisionDiagram.Proofs.Manager.Apply
import DecisionDiagram.Proofs.Manager.Task

/-!
# Replacing variables

Each replacement comes to the function that one expects. What it meets on the way are cofactors of
that function.
-/

set_option autoImplicit false

namespace DecisionDiagram

/-- The function with another in the place of a variable. -/
def composed (var : Nat) (function replacement : BoolFunction) : BoolFunction := fun valuation =>
  function (Function.update valuation var (replacement valuation))

section

variable {function replacement : BoolFunction} {var top : Nat} {vars : Set Nat}

theorem composed_of_notMem (depends : DependsOn function vars) (outside : var ∉ vars)
    (replacement : BoolFunction) : composed var function replacement = function := by
  funext valuation
  refine depends fun other member => Function.update_of_ne ?_ _ _
  intro same
  exact outside (same ▸ member)

theorem composed_eq_ifThenElse (var : Nat) (function replacement : BoolFunction) :
    composed var function replacement =
      ifThenElse replacement (cofactor function var true) (cofactor function var false) := by
  funext valuation
  unfold composed ifThenElse cofactor
  cases replacement valuation <;> rfl

theorem dependsOn_composed (depends : DependsOn function (insert var vars))
    (dependsReplacement : DependsOn replacement vars) :
    DependsOn (composed var function replacement) vars := by
  intro first second agree
  refine depends fun other member => ?_
  rw [dependsReplacement agree]
  by_cases same : other = var
  · rw [same, Function.update_self, Function.update_self]
  · rw [Function.update_of_ne same, Function.update_of_ne same]
    exact agree other (Set.mem_of_mem_insert_of_ne member same)

theorem cofactor_composed (different : top ≠ var) (value : Bool) :
    cofactor (composed var function replacement) top value =
      composed var (cofactor function top value) (cofactor replacement top value) := by
  funext valuation
  simp only [composed, cofactor, Function.update_comm different]

/-- Fixing two variables, whichever is fixed first. -/
theorem cofactor_comm (different : top ≠ var) (value other : Bool) :
    cofactor (cofactor function var other) top value =
      cofactor (cofactor function top value) var other := by
  funext valuation
  unfold cofactor
  rw [Function.update_comm different]

end

/-- The function with several variables fixed. -/
def fixed (values : Std.HashMap Nat Bool) (function : BoolFunction) : BoolFunction := fun valuation =>
  function fun var => values[var]?.getD (valuation var)

section

variable {function : BoolFunction} {values : Std.HashMap Nat Bool} {top : Nat} {vars : Set Nat}

theorem dependsOn_fixed (depends : DependsOn function vars) :
    DependsOn (fixed values function) vars := by
  intro first second agree
  exact depends fun other member => by rw [agree other member]

theorem fixed_cofactor {value : Bool} (isFixed : values[top]? = some value) :
    fixed values (cofactor function top value) = fixed values function := by
  funext valuation
  unfold fixed cofactor
  congr 1
  funext other
  by_cases same : other = top
  · rw [same, Function.update_self, isFixed, Option.getD_some]
  · rw [Function.update_of_ne same]

theorem cofactor_fixed (isFree : values[top]? = none) (value : Bool) :
    cofactor (fixed values function) top value = fixed values (cofactor function top value) := by
  funext valuation
  simp only [fixed, cofactor]
  congr 1
  funext other
  by_cases same : other = top
  · rw [same, Function.update_self, Function.update_self, isFree, Option.getD_none]
  · rw [Function.update_of_ne same, Function.update_of_ne same]

theorem fixed_of_dependsOn_empty (depends : DependsOn function ∅) :
    fixed values function = function :=
  funext fun _ => depends fun _ impossible => absurd impossible (Set.notMem_empty _)

theorem fixed_of_isEmpty (empty : values.isEmpty = true) : fixed values function = function := by
  funext valuation
  unfold fixed
  congr 1
  funext other
  rw [Std.HashMap.getElem?_of_isEmpty empty, Option.getD_none]

theorem dependsOn_fixed_free (values : Std.HashMap Nat Bool) (function : BoolFunction) :
    DependsOn (fixed values function) {var | var ∉ values} := by
  intro first second agree
  unfold fixed
  congr 1
  funext var
  cases isFixed : values[var]? with
  | some value => rfl
  | none => exact agree var ((getElem?_eq_none_iff values var).mp isFixed)

/-- The valuation with the entries written over it, the last of them first. -/
def overwrite (entries : List (Nat × Bool)) (valuation : Valuation) : Valuation :=
  entries.foldr (fun entry valuation => Function.update valuation entry.1 entry.2) valuation

variable {entries : List (Nat × Bool)} {valuation : Valuation} {var : Nat}

theorem overwrite_of_mem {value : Bool}
    (distinct : entries.Pairwise fun first second => first.1 ≠ second.1)
    (member : (var, value) ∈ entries) : overwrite entries valuation var = value := by
  induction entries with
  | nil => cases member
  | cons entry rest ih =>
    obtain ⟨different, distinct⟩ := List.pairwise_cons.mp distinct
    rw [overwrite, List.foldr_cons]
    cases member with
    | head => exact Function.update_self _ _ _
    | tail _ member =>
      rw [Function.update_of_ne (different _ member).symm]
      exact ih distinct member

theorem overwrite_of_notMem (absent : ∀ value, (var, value) ∉ entries) :
    overwrite entries valuation var = valuation var := by
  induction entries with
  | nil => rfl
  | cons entry rest ih =>
    have different : var ≠ entry.1 := fun same => absent entry.2 (same ▸ List.mem_cons_self)
    rw [overwrite, List.foldr_cons, Function.update_of_ne different]
    exact ih fun value member => absent value (List.mem_cons_of_mem _ member)

/-- The entries of a map may be written in any order, since no variable has two of them. -/
theorem overwrite_eq_getD (same : entries.Perm values.toList) (valuation : Valuation) (var : Nat) :
    overwrite entries valuation var = values[var]?.getD (valuation var) := by
  have isEntry : ∀ value, (var, value) ∈ entries ↔ values[var]? = some value := fun value =>
    same.mem_iff.trans Std.HashMap.mem_toList_iff_getElem?_eq_some
  cases isFixed : values[var]? with
  | none =>
    refine overwrite_of_notMem fun value member => ?_
    rw [isEntry, isFixed] at member
    cases member
  | some value =>
    refine overwrite_of_mem (same.symm.pairwise ?_ Ne.symm) ((isEntry value).mpr isFixed)
    exact Std.HashMap.distinct_keys_toList.imp fun different => ne_of_beq_false different

theorem foldl_cofactor (entries : List (Nat × Bool)) (function : BoolFunction) :
    entries.foldl (fun function entry => cofactor function entry.1 entry.2) function =
      fun valuation => function (overwrite entries valuation) := by
  induction entries generalizing function with
  | nil => rfl
  | cons entry rest ih => exact ih (cofactor function entry.1 entry.2)

/-- Fixing several variables is fixing one after the other, in any order. -/
theorem fixed_eq_foldl_cofactor (same : entries.Perm values.toList) (function : BoolFunction) :
    fixed values function =
      entries.foldl (fun function entry => cofactor function entry.1 entry.2) function := by
  rw [foldl_cofactor]
  funext valuation
  unfold fixed
  congr 1
  funext var
  rw [overwrite_eq_getD same]

end

namespace Manager

variable {scope : Scope} {store : Store Node} {vars : Finset Nat} {edge replacement : Edge}
  {function onReplacement : BoolFunction}

/-- Two halves that are done, joined by a branch. -/
theorem joinHalves_confined {Layer : Type → Type} [Monad Layer]
    [MonadLiftT (EStateM Fault Manager) Layer] {layer : Steadiness Layer} {target : BoolFunction}
    {half : Bool → BoolFunction} {top : Nat} {low high : Edge} (canonical : store.Canonical)
    (positive : top ≠ 0) (depends : DependsOn target (Set.Ici top))
    (cofactors : ∀ value, cofactor target top value = half value)
    (lowDone : (Task.of (half false)).Done low store)
    (highDone : (Task.of (half true)).Done high store) (member : target ∈ scope.family) :
    Confined layer scope (liftM (node top low high)) store (Task.of target).Done := by
  have onLow := lowDone.represents
  have onHigh := highDone.represents
  simp only [Task.of, Task.given, ← cofactors] at onLow onHigh
  exact (join_confined canonical positive depends onLow onHigh member).lift.weaken
    fun _ _ _ => Task.done_of

/-! ## Composition -/

/-- The compositions with a variable, named by the two edges. -/
abbrev compositions (var : Nat) : Naming (Edge × Edge) :=
  .ofPair fun function replacement => .of (composed var function replacement)

/-- Composition as a recursion of the function and its replacement. -/
def composing (var : Nat) :
    Recursion (Edge × Edge) (StateT (Memo (Edge × Edge) Edge) (EStateM Fault Manager)) Edge where
  edges args := [args.1, args.2]
  step self args := composeStep var (fun edge replacement => self (edge, replacement)) args.1 args.2
  run fuel args := composeWithin var fuel args.1 args.2
  run_zero _ := rfl
  run_succ _ _ := rfl

/-- A function and a replacement, and what their composition has to come to. -/
inductive ComposeCall (var : Nat) (scope : Scope) (store : Store Node) (vars : Finset Nat) :
    Edge × Edge → (Edge → Store Node → Prop) → Prop
  | mk {edge replacement : Edge} {function onReplacement : BoolFunction} :
      Operand store vars edge function → Operand store vars replacement onReplacement →
      composed var function onReplacement ∈ scope.family →
      ComposeCall var scope store vars (edge, replacement)
        (Task.of (composed var function onReplacement)).Done

theorem composing_sinks (var : Nat) :
    Sinks (composing var) ((compositions var).remembers steady) (ComposeCall var) := by
  refine ⟨?_⟩
  rintro self scope store vars _ _ canonical @⟨edge, replacement, function, onReplacement,
    ⟨represents, dependsVars⟩, operandReplacement, member⟩ onward
  obtain ⟨node, held⟩ := represents.live
  have unchanged : ∀ bound, store.From bound edge → var < bound →
      (Task.of (composed var function onReplacement)).Done edge store := by
    intro bound above before
    have depends := represents.dependsOn_Ici canonical above
    rw [composed_of_notMem depends (Nat.not_le.mpr before)]
    exact Task.done_of represents
  show Confined _ scope (composeStep var (fun edge replacement => self (edge, replacement))
    edge replacement) store _
  rw [composeStep]
  by_cases terminal : edge.index = 1
  · rw [if_pos (Edge.isTerminal_iff.mpr terminal)]
    exact Confined.pure canonical
      (unchanged (var + 1) ⟨node, held, Or.inl terminal⟩ (Nat.lt_succ_self var))
  rw [if_neg (mt Edge.isTerminal_iff.mp terminal)]
  apply Confined.ask_bind canonical (fun _ => rfl) (var_eq_ok held)
  by_cases before : var < node.var
  · rw [if_pos before]
    exact Confined.pure canonical
      (unchanged node.var ⟨node, held, Or.inr (Nat.le_refl _)⟩ before)
  rw [if_neg before]
  refine (compositions var).remember canonical ⟨_, _, represents, operandReplacement.represents, rfl⟩
    (Task.covered_of member) fun scope covered => ?_
  by_cases top : var = node.var
  · subst top
    rw [if_pos rfl]
    apply Confined.ask_bind canonical (fun _ => rfl) (highOf_eq_ok canonical held)
    apply Confined.ask_bind canonical (fun _ => rfl) (lowOf_eq_ok canonical held)
    rw [composed_eq_ifThenElse] at covered ⊢
    exact (ite_confined canonical operandReplacement.represents
      (represents.child canonical held terminal true)
      (represents.child canonical held terminal false) covered.mem).lift.weaken
        fun _ _ _ => Task.done_of
  · rw [if_neg top]
    obtain ⟨split, edge0, edge1, replacement0, replacement1, found, positive, left, isFirst, onEdge,
      onReplaced⟩ := splits_pair (bare_sound canonical) ⟨represents, dependsVars⟩
        operandReplacement terminal
    obtain ⟨descendsLow, descendsHigh⟩ := descends_pair canonical isFirst onEdge onReplaced
    have atMost : split ≤ node.var :=
      represents.mem_of_dependsOn canonical held terminal onEdge.depends
    have different : split ≠ var := by omega
    have depends : DependsOn (composed var _ _) _ :=
      dependsOn_composed (onEdge.depends.mono (Set.subset_insert _ _)) onReplaced.depends
    have lower := scope.closed.cofactor _ covered.mem split depends
    simp only [cofactor_composed different] at lower
    apply Confined.ask_bind canonical (fun _ => rfl) found
    apply Confined.ask_bind canonical (fun _ => rfl) onEdge.found
    apply Confined.ask_bind canonical (fun _ => rfl) onReplaced.found
    have lowCall : Confined ((compositions var).remembers steady) scope (self (edge0, replacement0))
        store _ :=
      onward (.refl canonical) left descendsLow (.mk onEdge.low onReplaced.low (lower false))
    apply lowCall.bind
    intro low second grownLow lowDone
    have highCall : Confined ((compositions var).remembers steady) scope (self (edge1, replacement1))
        second _ :=
      onward grownLow left descendsHigh
        (.mk (onEdge.high.grow grownLow) (onReplaced.high.grow grownLow) (lower true))
    apply highCall.bind
    intro high third grownHigh highDone
    exact joinHalves_confined grownHigh.canonical positive depends
      (cofactor_composed different) (lowDone.grow grownHigh) highDone covered.mem

theorem composeWithin_confined (var : Nat) {fuel : Nat} (canonical : store.Canonical)
    (operand : Operand store vars edge function)
    (operandReplacement : Operand store vars replacement onReplacement)
    (enough : vars.card < fuel)
    (member : composed var function onReplacement ∈ scope.family) :
    Confined ((compositions var).remembers steady) scope (composeWithin var fuel edge replacement)
      store (Task.of (composed var function onReplacement)).Done :=
  (composing_sinks var).run_confined canonical (.mk operand operandReplacement member) enough

/-- What a composition has to come to. -/
def composeTask (var : Nat) (function replacement : BoolFunction) : Task :=
  .given (var ≠ 0) (composed var function replacement)

theorem compose_confined (var : Nat) (canonical : store.Canonical)
    (represents : store.Represents edge function)
    (representsReplacement : store.Represents replacement onReplacement)
    (covered : (composeTask var function onReplacement).Covered scope) :
    Confined steady scope (compose edge var replacement) store
      (composeTask var function onReplacement).Done := by
  unfold compose
  by_cases zero : var = 0
  · rw [if_pos zero]
    exact Confined.throw_bind canonical (covered.allows (fun positive => positive zero) _)
  rw [if_neg zero]
  have confined := (composeWithin_confined var canonical (Operand.start canonical represents)
    (Operand.start canonical representsReplacement) (card_testedVars_lt_depthBound canonical)
    covered.mem).withMemo_steady
  refine Confined.get_bind canonical (fun manager isBare => ?_)
    (confined.weaken fun _ _ _ done => Task.done_given zero done.represents)
  rw [depthBound_of_bare isBare]

/-! ## Restriction -/

/-- The restrictions of a variable, named by the edge and the value. -/
abbrev restrictions (var : Nat) : Naming (Edge × Bool) :=
  .ofEdge Prod.fst fun key function => .of (cofactor function var key.2)

/-- Restriction as a recursion of the function. -/
def restricting (var : Nat) (value : Bool) :
    Recursion Edge (StateT (Memo (Edge × Bool) Edge) (EStateM Fault Manager)) Edge where
  edges edge := [edge]
  step := restrictStep var value
  run := restrictWithin var value
  run_zero _ := rfl
  run_succ _ _ := rfl

/-- A function, and what its restriction has to come to. -/
inductive RestrictCall (var : Nat) (value : Bool) (scope : Scope) (store : Store Node)
    (vars : Finset Nat) : Edge → (Edge → Store Node → Prop) → Prop
  | mk {edge : Edge} {function : BoolFunction} : Operand store vars edge function →
      cofactor function var value ∈ scope.family →
      RestrictCall var value scope store vars edge (Task.of (cofactor function var value)).Done

theorem restricting_sinks (var : Nat) (value : Bool) :
    Sinks (restricting var value) ((restrictions var).remembers steady) (RestrictCall var value) := by
  refine ⟨?_⟩
  rintro self scope store vars edge _ canonical @⟨function, operand, member⟩ onward
  have represents := operand.represents
  obtain ⟨node, held⟩ := represents.live
  have unchanged : ∀ bound, store.From bound edge → var < bound →
      (Task.of (cofactor function var value)).Done edge store := by
    intro bound above before
    have depends := represents.dependsOn_Ici canonical above
    rw [cofactor_of_notMem depends (Nat.not_le.mpr before)]
    exact Task.done_of represents
  show Confined _ scope (restrictStep var value self edge) store _
  rw [restrictStep]
  by_cases terminal : edge.index = 1
  · rw [if_pos (Edge.isTerminal_iff.mpr terminal)]
    exact Confined.pure canonical
      (unchanged (var + 1) ⟨node, held, Or.inl terminal⟩ (Nat.lt_succ_self var))
  rw [if_neg (mt Edge.isTerminal_iff.mp terminal)]
  apply Confined.ask_bind canonical (fun _ => rfl) (var_eq_ok held)
  by_cases before : var < node.var
  · rw [if_pos before]
    exact Confined.pure canonical
      (unchanged node.var ⟨node, held, Or.inr (Nat.le_refl _)⟩ before)
  rw [if_neg before]
  have child := represents.child canonical held terminal
  by_cases top : var = node.var
  · subst top
    rw [if_pos rfl]
    cases value with
    | true =>
      exact (Confined.ask canonical (fun _ => rfl) (highOf_eq_ok canonical held)
        (Task.done_of (child true))).lift
    | false =>
      exact (Confined.ask canonical (fun _ => rfl) (lowOf_eq_ok canonical held)
        (Task.done_of (child false))).lift
  · rw [if_neg top]
    refine (restrictions var).remember canonical ⟨_, represents, rfl⟩ (Task.covered_of member)
      fun scope covered => ?_
    have different : node.var ≠ var := fun same => top same.symm
    have positive := Nat.ne_of_gt (canonical.normal _ node held terminal).var_pos
    have left := operand.var_mem canonical held terminal
    have descends := fun value => canonical.descends_child held terminal value edge.isNegated
    have children := operand.child canonical held terminal
    have depends : DependsOn (cofactor function var value) (Set.Ici node.var) :=
      (dependsOn_cofactor (represents.dependsOn_top canonical held) var value).mono
        Set.sdiff_subset
    have lower := scope.closed.cofactor _ covered.mem node.var depends
    simp only [cofactor_comm different] at lower
    apply Confined.ask_bind canonical (fun _ => rfl) (lowOf_eq_ok canonical held)
    apply (onward (.refl canonical) left (descends false) (.mk (children false) (lower false))).bind
    intro low second grownLow lowDone
    apply Confined.ask_bind grownLow.canonical (fun _ => rfl)
      (highOf_eq_ok grownLow.canonical (grownLow.more.contents _ node held))
    apply (onward grownLow left (descends true)
      (.mk ((children true).grow grownLow) (lower true))).bind
    intro high third grownHigh highDone
    exact joinHalves_confined grownHigh.canonical positive depends
      (fun half => cofactor_comm different half value) (lowDone.grow grownHigh) highDone covered.mem

theorem restrictWithin_confined (var : Nat) (value : Bool) {fuel : Nat}
    (canonical : store.Canonical) (operand : Operand store vars edge function)
    (enough : vars.card < fuel) (member : cofactor function var value ∈ scope.family) :
    Confined ((restrictions var).remembers steady) scope (restrictWithin var value fuel edge) store
      (Task.of (cofactor function var value)).Done :=
  (restricting_sinks var value).run_confined canonical (.mk operand member) enough

theorem restrictIn_confined (var : Nat) (value : Bool) (canonical : store.Canonical)
    (represents : store.Represents edge function)
    (member : cofactor function var value ∈ scope.family) :
    Confined ((restrictions var).remembers steady) scope (restrictIn edge var value) store
      (Task.of (cofactor function var value)).Done := by
  refine Confined.get_bind canonical (fun manager isBare => ?_)
    (restrictWithin_confined var value canonical (Operand.start canonical represents)
      (card_testedVars_lt_depthBound canonical) member)
  rw [depthBound_of_bare isBare]

/-- What a restriction has to come to. -/
def restrictTask (var : Nat) (value : Bool) (function : BoolFunction) : Task :=
  .given (var ≠ 0) (cofactor function var value)

theorem restrict_confined (var : Nat) (value : Bool) (canonical : store.Canonical)
    (represents : store.Represents edge function)
    (covered : (restrictTask var value function).Covered scope) :
    Confined steady scope (restrict edge var value) store
      (restrictTask var value function).Done := by
  unfold restrict
  by_cases zero : var = 0
  · rw [if_pos zero]
    exact Confined.throw_bind canonical (covered.allows (fun positive => positive zero) _)
  rw [if_neg zero]
  exact (restrictIn_confined var value canonical represents covered.mem).withMemo_steady.weaken
    fun _ _ _ done => Task.done_given zero done.represents

/-- What a substitution has to come to, by way of both restrictions. -/
def substituteTask (var : Nat) (function replacement : BoolFunction) : Task where
  target := composed var function replacement
  needs := {composed var function replacement, cofactor function var true,
    cofactor function var false}
  proper := var ≠ 0

theorem substitute_confined (var : Nat) (canonical : store.Canonical)
    (represents : store.Represents edge function)
    (representsReplacement : store.Represents replacement onReplacement)
    (covered : (substituteTask var function onReplacement).Covered scope) :
    Confined steady scope (substitute edge var replacement) store
      (substituteTask var function onReplacement).Done := by
  unfold substitute
  by_cases zero : var = 0
  · rw [if_pos zero]
    exact Confined.throw_bind canonical (covered.allows (fun positive => positive zero) _)
  rw [if_neg zero]
  have needed := covered.needs
  simp only [substituteTask, Set.insert_subset_iff, Set.singleton_subset_iff] at needed
  obtain ⟨whole, ifTrue, ifFalse⟩ := needed
  have both : Confined ((restrictions var).remembers steady) scope
      (do
        let whenTrue ← restrictIn edge var true
        let whenFalse ← restrictIn edge var false
        return (whenTrue, whenFalse)) store
      fun pair after => after.Represents pair.1 (cofactor function var true) ∧
        after.Represents pair.2 (cofactor function var false) := by
    apply (restrictIn_confined var true canonical represents ifTrue).bind
    intro whenTrue second grownTrue doneTrue
    apply (restrictIn_confined var false grownTrue.canonical (grownTrue.represents represents)
      ifFalse).bind
    intro whenFalse third grownFalse doneFalse
    exact Confined.pure grownFalse.canonical
      ⟨(doneTrue.grow grownFalse).represents, doneFalse.represents⟩
  apply both.withMemo_steady.bind
  rintro ⟨whenTrue, whenFalse⟩ middle grown ⟨onTrue, onFalse⟩
  rw [composed_eq_ifThenElse] at whole
  apply (ite_confined grown.canonical (grown.represents representsReplacement) onTrue onFalse
    whole).weaken
  intro result after more represents
  rw [← composed_eq_ifThenElse] at represents
  refine ⟨represents, ?_, zero⟩
  rw [substituteTask, Set.insert_subset_iff, Set.insert_subset_iff, Set.singleton_subset_iff]
  exact ⟨represents.mem_functions, (more.represents onTrue).mem_functions,
    (more.represents onFalse).mem_functions⟩

/-! ## Many variables at once -/

/-- The functions with several variables fixed, named by the edge. -/
abbrev fixings (values : Std.HashMap Nat Bool) : Naming Edge :=
  .ofEdge id fun _ function => .of (fixed values function)

/-- Fixing several variables as a recursion of the function. -/
def fixing (values : Std.HashMap Nat Bool) :
    Recursion Edge (StateT (Memo Edge Edge) (EStateM Fault Manager)) Edge where
  edges edge := [edge]
  step := restrictManyStep values
  run := restrictManyWithin values
  run_zero _ := rfl
  run_succ _ _ := rfl

/-- A function, and what it has to come to with the variables fixed. -/
inductive FixCall (values : Std.HashMap Nat Bool) (scope : Scope) (store : Store Node)
    (vars : Finset Nat) : Edge → (Edge → Store Node → Prop) → Prop
  | mk {edge : Edge} {function : BoolFunction} : Operand store vars edge function →
      fixed values function ∈ scope.family →
      FixCall values scope store vars edge (Task.of (fixed values function)).Done

theorem fixing_sinks (values : Std.HashMap Nat Bool) :
    Sinks (fixing values) ((fixings values).remembers steady) (FixCall values) := by
  refine ⟨?_⟩
  rintro self scope store vars edge _ canonical @⟨function, operand, member⟩ onward
  have represents := operand.represents
  obtain ⟨node, held⟩ := represents.live
  show Confined _ scope (restrictManyStep values self edge) store _
  rw [restrictManyStep]
  by_cases terminal : edge.index = 1
  · rw [if_pos (Edge.isTerminal_iff.mpr terminal)]
    have independent := represents.dependsOn_empty canonical terminal
    refine Confined.pure canonical (Task.done_of ?_)
    rw [fixed_of_dependsOn_empty independent]
    exact represents
  rw [if_neg (mt Edge.isTerminal_iff.mp terminal)]
  -- the table is asked for the uncomplemented edge
  have regular := operand.flip edge.isNegated
  have regularHeld : store.contents (edge.flip edge.isNegated).index = some node := by
    rw [Edge.index_flip]
    exact held
  have inner : (edge.flip edge.isNegated).index ≠ 1 := by
    rw [Edge.index_flip]
    exact terminal
  have descends : ∀ value negated, store.Descends [edge] [(node.child value).flip negated] :=
    canonical.descends_child held terminal
  apply Confined.read_bind canonical (canonical.negateIf_eq_ok represents.live _)
  generalize edge.flip edge.isNegated = base at regular regularHeld inner
  refine ((fixings values).remember canonical ⟨_, regular.represents, rfl⟩
    (Task.covered_of (scope.closed.flip member edge.isNegated)) fun scope covered => ?_).bind ?_
  · have positive := Nat.ne_of_gt (canonical.normal _ node held terminal).var_pos
    have left := regular.var_mem canonical regularHeld inner
    have children := regular.child canonical regularHeld inner
    have depends : DependsOn (fixed values _) _ :=
      dependsOn_fixed (regular.represents.dependsOn_top canonical regularHeld)
    apply Confined.ask_bind canonical (fun _ => rfl) (var_eq_ok regularHeld)
    apply Confined.ask_bind canonical (fun _ => rfl) (lowOf_eq_ok canonical regularHeld)
    apply Confined.ask_bind canonical (fun _ => rfl) (highOf_eq_ok canonical regularHeld)
    cases chosen : values[node.var]? with
    | some value =>
      have below := onward (.refl canonical) left (descends value base.isNegated)
        (.mk (children value) (by rw [fixed_cofactor chosen]; exact covered.mem))
      rw [fixed_cofactor chosen] at below
      cases value
      · exact below
      · exact below
    | none =>
      have lower := scope.closed.cofactor _ covered.mem node.var depends
      simp only [cofactor_fixed chosen] at lower
      apply (onward (.refl canonical) left (descends false base.isNegated)
        (.mk (children false) (lower false))).bind
      intro low second grownLow lowDone
      apply (onward grownLow left (descends true base.isNegated)
        (.mk ((children true).grow grownLow) (lower true))).bind
      intro high third grownHigh highDone
      exact joinHalves_confined grownHigh.canonical positive depends
        (cofactor_fixed chosen) (lowDone.grow grownHigh) highDone covered.mem
  · intro result after grown done
    refine (Confined.read grown.canonical (grown.canonical.negateIf_eq_ok done.live _)
      (Task.done_of ?_)).lift
    apply (done.represents.flip edge.isNegated).congr
    intro valuation
    show ((fixed values function valuation ^^ edge.isNegated) ^^ edge.isNegated) = _
    rw [Bool.xor_assoc, Bool.xor_self, Bool.xor_false]

theorem restrictManyWithin_confined (values : Std.HashMap Nat Bool) {fuel : Nat}
    (canonical : store.Canonical) (operand : Operand store vars edge function)
    (enough : vars.card < fuel) (member : fixed values function ∈ scope.family) :
    Confined ((fixings values).remembers steady) scope (restrictManyWithin values fuel edge) store
      (Task.of (fixed values function)).Done :=
  (fixing_sinks values).run_confined canonical (.mk operand member) enough

theorem restrictMany_confined (values : Std.HashMap Nat Bool) (canonical : store.Canonical)
    (represents : store.Represents edge function)
    (covered : (Task.of (fixed values function)).Covered scope) :
    Confined steady scope (restrictMany edge values) store
      (Task.of (fixed values function)).Done := by
  unfold restrictMany
  by_cases empty : values.isEmpty = true
  · rw [if_pos empty, fixed_of_isEmpty empty]
    exact Confined.pure canonical (Task.done_of represents)
  rw [if_neg empty]
  refine Confined.get_bind canonical (fun manager isBare => ?_)
    (restrictManyWithin_confined values canonical (Operand.start canonical represents)
      (card_testedVars_lt_depthBound canonical) covered.mem).withMemo_steady
  rw [depthBound_of_bare isBare]

end Manager

end DecisionDiagram
