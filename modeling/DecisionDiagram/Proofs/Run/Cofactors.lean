import Mathlib
import DecisionDiagram.Proofs.Run.Yields

/-!
# Variables fixed at once, or one by one

In every state of every run, fixing the variables of a map gives an edge the values that it has
where these variables have the values of the map, and they do not occur in the result. As long as
nothing is collected, this is the edge that one gets by restricting one variable after the other, in
any order, or by composing with constants one after the other.
-/

set_option autoImplicit false

namespace DecisionDiagram.Manager

variable {manager before : Manager} {calls : List Call} {edge last result : Edge}
  {values : Std.HashMap Nat Bool} {entries : List (Nat × Bool)} {function : BoolFunction}

/-- The assignment with the values of the map in place of its own. -/
def withValues (values : Std.HashMap Nat Bool) (assignment : List Bool) : List Bool :=
  assignment.mapIdx fun place value => values[place + 1]?.getD value

/-- What it is to fix the variables of a map. -/
structure Fixes (before : Manager) (action : Action Edge) (edge : Edge)
    (values : Std.HashMap Nat Bool) : Prop where
  /-- Where an assignment covers the edge, the result has the value that the edge has under the
  assignment with the values of the map. -/
  value : ∀ result after, action before = .ok result after → ∀ assignment,
    Covers before.store assignment edge →
      ∃ value, before.value edge (withValues values assignment) = .ok value ∧
        after.value result assignment = .ok value
  eliminates : ∀ result after, action before = .ok result after →
    ∀ var ∈ values, ¬after.store.Tests result var
  /-- Only a full store keeps the action from returning. -/
  fault : ∀ fault after, action before = .error fault after → OutOfSpace fault after

theorem function_withValues {assignment : List Bool}
    (depends : DependsOn function {var | 0 < var ∧ var ≤ assignment.length}) :
    function (valuationOf (withValues values assignment)) =
      fixed values function (valuationOf assignment) := by
  refine depends fun var inside => ?_
  obtain ⟨place, rfl⟩ := Nat.exists_eq_succ_of_ne_zero (Nat.ne_of_gt inside.1)
  rw [valuationOf_succ, valuationOf_succ, withValues, List.getElem?_mapIdx,
    List.getElem?_eq_getElem inside.2, Option.map_some, Option.getD_some, Option.getD_some]

theorem restrictMany_fixes (sound : before.Sound) (live : before.store.Live edge)
    (values : Std.HashMap Nat Bool) : Fixes before (restrictMany edge values) edge values := by
  have canonical := sound.canonical
  have constructs : Constructs (restrictMany edge values) before (fun result after =>
      after.store.Represents result (fixed values (before.store.denote edge))) fun _ => False :=
    ((restrictMany_confined values canonical live.represents
      (Task.covered_faultless trivial)).weaken
        fun _ _ _ done => done.represents).constructs_faultless sound
  refine ⟨?_, ?_, fun _ _ => constructs.outOfSpace⟩
  · intro result after run assignment covers
    obtain ⟨grows, represents⟩ := constructs.result result after run
    have depends := covers.dependsOn canonical live.represents
    have stillCovers : Covers before.store (withValues values assignment) edge := by
      intro var tests
      rw [withValues, List.length_mapIdx]
      exact covers var tests
    refine ⟨_, value_spec canonical live.represents stillCovers, ?_⟩
    rw [function_withValues depends]
    exact value_of_dependsOn grows.sound.canonical represents
      (dependsOn_fixed (depends.mono fun _ inside => inside.2))
  · intro result after run var member tests
    obtain ⟨grows, represents⟩ := constructs.result result after run
    exact represents.mem_of_tests grows.sound.canonical (dependsOn_fixed_free values _) tests member

/-! ## One by one -/

/-- In the run there is a call for each entry, made on what the call for the one before returned. -/
inductive YieldsInTurn (calls : List Call) (manager : Manager)
    (way : Edge → Nat × Bool → Instruction Edge) : List (Nat × Bool) → Edge → Edge → Prop
  | nil {edge : Edge} : YieldsInTurn calls manager way [] edge edge
  | cons {entry : Nat × Bool} {rest : List (Nat × Bool)} {edge next last : Edge} :
      Yields calls manager (way edge entry).call next →
        YieldsInTurn calls manager way rest next last →
          YieldsInTurn calls manager way (entry :: rest) edge last

/-- One variable is fixed by restriction. -/
def byRestriction (edge : Edge) (entry : Nat × Bool) : Instruction Edge :=
  .restrict edge entry.1 entry.2

/-- One variable is fixed by composition with a constant. -/
def byComposition (edge : Edge) (entry : Nat × Bool) : Instruction Edge :=
  .compose edge entry.1 (if entry.2 then .one else .zero)

/-- The way fixes one variable, as seen from the store. -/
def FixesOne (store : Store Node) (way : Edge → Nat × Bool → Instruction Edge) : Prop :=
  ∀ edge entry, ((way edge entry).map store.denote).task.target =
    cofactor (store.denote edge) entry.1 entry.2

theorem fixesOne_byRestriction (store : Store Node) : FixesOne store byRestriction := fun _ _ => rfl

theorem fixesOne_byComposition {store : Store Node} (canonical : store.Canonical) :
    FixesOne store byComposition := by
  rintro edge ⟨var, value⟩
  cases value
  · exact congrArg (composed var (store.denote edge)) canonical.represents_zero.denote_eq
  · exact congrArg (composed var (store.denote edge)) canonical.represents_one.denote_eq

variable {way : Edge → Nat × Bool → Instruction Edge}

theorem YieldsInTurn.represents (inTurn : YieldsInTurn calls manager way entries edge last)
    (sound : manager.Sound) (run : Uncollected calls manager)
    (fixesOne : FixesOne (leavesAll calls manager).store way)
    (onEdge : (leavesAll calls manager).store.Represents edge function) :
    (leavesAll calls manager).store.Represents last
      (entries.foldl (fun function entry => cofactor function entry.1 entry.2) function) := by
  induction inTurn generalizing function with
  | nil => exact onEdge
  | @cons entry rest edge next last yields _ ih =>
    refine ih ?_
    have onNext := yields.represents sound run
    rw [fixesOne, onEdge.denote_eq] at onNext
    exact onNext

theorem YieldsInTurn.eq_of_yields (inTurn : YieldsInTurn calls manager way entries edge last)
    (sound : manager.Sound) (run : Uncollected calls manager)
    (fixesOne : FixesOne (leavesAll calls manager).store way) (live : manager.store.Live edge)
    (atOnce : Yields calls manager (.restrictMany edge values) result)
    (same : entries.Perm values.toList) : last = result := by
  have onLast := inTurn.represents sound run fixesOne
    ((run.grown sound).live live).represents
  rw [← fixed_eq_foldl_cofactor same] at onLast
  exact (@Yields.eq_of_represents _ _ _ _ (.restrictMany edge values) atOnce sound run onLast).symm

/-- **All ways to fix variables agree**: at once, by restricting one after the other, and by composing
with constants one after the other, each in any order. -/
theorem attained_fixes {config : Config} (attained : Attained config manager)
    (live : manager.store.Live edge) (values : Std.HashMap Nat Bool) :
    Fixes manager (restrictMany edge values) edge values ∧
    ∀ calls, Uncollected calls manager → ∀ result,
      Yields calls manager (.restrictMany edge values) result →
        ∀ entries : List (Nat × Bool), entries.Perm values.toList → ∀ last,
          (YieldsInTurn calls manager byRestriction entries edge last → last = result) ∧
          (YieldsInTurn calls manager byComposition entries edge last → last = result) := by
  have sound := attained.sound
  refine ⟨restrictMany_fixes sound live values, ?_⟩
  intro calls run result atOnce entries same last
  have canonical := (leavesAll_sound sound run.admissible).canonical
  exact ⟨fun inTurn => inTurn.eq_of_yields sound run (fixesOne_byRestriction _) live atOnce same,
    fun inTurn => inTurn.eq_of_yields sound run (fixesOne_byComposition canonical) live atOnce same⟩

def bothTrue : Std.HashMap Nat Bool := ((∅ : Std.HashMap Nat Bool).insert 2 true).insert 1 true

theorem perm_bothTrue : [(1, true), (2, true)].Perm bothTrue.toList := by
  have single : ((∅ : Std.HashMap Nat Bool).insert 2 true).toList.Perm [(2, true)] := by
    simpa using @Std.HashMap.toList_insert_perm Nat Bool _ _ ∅ _ _ 2 true
  exact (Std.HashMap.toList_insert_perm.trans ((single.filter _).cons _)).symm

/-- Both variables of a conjunction are fixed in all three ways. -/
theorem fixes_conjunction : ∃ calls result last other, Attained ⟨3, 1, 1⟩ twoVariables ∧
    Uncollected calls twoVariables ∧
    Fixes twoVariables (restrictMany ⟨3, by decide⟩ bothTrue) ⟨3, by decide⟩ bothTrue ∧
    Yields calls twoVariables (.restrictMany ⟨3, by decide⟩ bothTrue) result ∧
    [(1, true), (2, true)].Perm bothTrue.toList ∧
    YieldsInTurn calls twoVariables byRestriction [(1, true), (2, true)] ⟨3, by decide⟩ last ∧
    YieldsInTurn calls twoVariables byComposition [(1, true), (2, true)] ⟨3, by decide⟩ other ∧
    last = result ∧ other = result := by
  obtain ⟨secondLive, bothLive⟩ := live_twoVariables
  have onBoth := List.forall_mem_singleton.mpr bothLive
  have onSecond := List.forall_mem_singleton.mpr secondLive
  have onOne := List.forall_mem_singleton.mpr attained_twoVariables.sound.canonical.live_one
  have atOnce : restrictMany ⟨3, by decide⟩ bothTrue twoVariables = .ok .one twoVariables := by
    unfold restrictMany
    rw [if_neg (by simp [bothTrue])]
    cbv
  have all : ∀ step ∈ [(Call.restrictMany ⟨3, by decide⟩ bothTrue, .one),
      (.restrict ⟨3, by decide⟩ 1 true, ⟨2, by decide⟩), (.restrict ⟨2, by decide⟩ 2 true, .one),
      (.compose ⟨3, by decide⟩ 1 .one, ⟨2, by decide⟩), (.compose ⟨2, by decide⟩ 2 .one, .one)],
      twoVariables.Finds step.1 step.2 := by
    simp only [List.forall_mem_cons]
    refine ⟨⟨onBoth, trivial, bind_ok atOnce⟩, ⟨onBoth, trivial, ?_⟩, ⟨onSecond, trivial, ?_⟩,
      ⟨List.forall_mem_cons.mpr ⟨bothLive, onOne⟩, trivial, ?_⟩,
      ⟨List.forall_mem_cons.mpr ⟨secondLive, onOne⟩, trivial, ?_⟩,
      fun _ member => absurd member List.not_mem_nil⟩
    all_goals cbv
  have run := Uncollected.of_finds all
  have yields := Yields.of_finds all
  simp only [List.forall_mem_cons] at yields
  obtain ⟨many, restricts, restrictsNext, composes, composesNext, -⟩ := yields
  obtain ⟨fixes, agree⟩ := attained_fixes attained_twoVariables bothLive bothTrue
  have inTurn :
      YieldsInTurn _ twoVariables byRestriction [(1, true), (2, true)] ⟨3, by decide⟩ .one :=
    .cons restricts (.cons restrictsNext .nil)
  have otherInTurn :
      YieldsInTurn _ twoVariables byComposition [(1, true), (2, true)] ⟨3, by decide⟩ .one :=
    .cons composes (.cons composesNext .nil)
  have equal := agree _ run _ many _ perm_bothTrue .one
  exact ⟨_, _, _, _, attained_twoVariables, run, fixes, many, perm_bothTrue, inTurn, otherInTurn,
    equal.1 inTurn, equal.2 otherInTurn⟩

end DecisionDiagram.Manager
