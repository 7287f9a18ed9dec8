import DecisionDiagram.Proofs.Manager.Construct
import DecisionDiagram.Proofs.SortedList
import Mathlib.Order.Interval.Set.Basic

/-!
# Cubes and clauses

Both link one literal after the other to a function of later variables. Where a literal has the
absorbing value, false for a cube and true for a clause, so has the whole. What is built on the way
are cofactors of the result. The whole has the absorbing value throughout exactly if two literals are
opposed.
-/

set_option autoImplicit false

namespace DecisionDiagram.Manager

variable {scope : Scope} {store : Store Node}

/-! ## The order of the literals -/

theorem orderTest_literalBefore : OrderTest literalBefore where
  trans first second third before after := by
    simp only [literalBefore, Bool.or_eq_true, decide_eq_true_eq, Bool.and_eq_true,
      beq_iff_eq] at before after ⊢
    omega
  total first second := by
    simp only [literalBefore, Bool.or_eq_true, decide_eq_true_eq, Bool.and_eq_true, beq_iff_eq]
    omega
  antisymm first second before after := by
    simp only [literalBefore, Bool.or_eq_true, decide_eq_true_eq, Bool.and_eq_true,
      beq_iff_eq] at before after
    omega

/-- Larger variables first, and no variable twice. -/
def Descending (literals : List Int) : Prop :=
  literals.Pairwise fun first second => second.natAbs < first.natAbs

theorem opposedNeighbours_cons_cons {first second : Int} (rest : List Int)
    (inRange : second ≠ leastCode) : opposedNeighbours (first :: second :: rest) =
      if first = -second then .ok true else opposedNeighbours (second :: rest) := by
  have opposite : negateCode second = .ok (-second) := if_neg inRange
  rw [opposedNeighbours, opposite]
  rfl

theorem descending_of_opposedNeighbours {literals : List Int}
    (sorted : literals.Pairwise fun first second => literalBefore first second ∧ first ≠ second)
    (answer : opposedNeighbours literals = .ok false) : Descending literals := by
  induction literals using opposedNeighbours.induct with
  | case1 first second rest ih =>
    by_cases least : second = leastCode
    · rw [opposedNeighbours, negateCode, if_pos least] at answer
      cases answer
    rw [opposedNeighbours_cons_cons rest least] at answer
    obtain ⟨before, tail⟩ := List.pairwise_cons.mp sorted
    split at answer
    · cases answer
    · rename_i notOpposed
      refine List.pairwise_cons.mpr ⟨fun later member => ?_, ih tail answer⟩
      have next := before second List.mem_cons_self
      have further : later.natAbs ≤ second.natAbs := by
        rcases List.mem_cons.mp member with rfl | known
        · exact Nat.le_refl _
        · have ordered := ((List.pairwise_cons.mp tail).1 later known).1
          simp only [literalBefore, Bool.or_eq_true, decide_eq_true_eq, Bool.and_eq_true,
            beq_iff_eq] at ordered
          omega
      simp only [literalBefore, Bool.or_eq_true, decide_eq_true_eq, Bool.and_eq_true,
        beq_iff_eq] at next
      omega
  | case2 literals short =>
    cases literals with
    | nil => exact List.Pairwise.nil
    | cons first rest =>
      cases rest with
      | nil => exact List.pairwise_singleton _ _
      | cons second rest => exact (short first second rest rfl).elim

theorem opposed_of_opposedNeighbours {literals : List Int}
    (answer : opposedNeighbours literals = .ok true) :
    ∃ number ∈ literals, -number ∈ literals := by
  induction literals using opposedNeighbours.induct with
  | case1 first second rest ih =>
    by_cases least : second = leastCode
    · rw [opposedNeighbours, negateCode, if_pos least] at answer
      cases answer
    rw [opposedNeighbours_cons_cons rest least] at answer
    split at answer
    · rename_i opposed
      refine ⟨second, List.mem_cons_of_mem _ List.mem_cons_self, ?_⟩
      rw [← opposed]
      exact List.mem_cons_self
    · obtain ⟨number, member, opposite⟩ := ih answer
      exact ⟨number, List.mem_cons_of_mem _ member, List.mem_cons_of_mem _ opposite⟩
  | case2 literals short =>
    rw [opposedNeighbours] at answer
    · cases answer
    · exact short

/-- What the literals are put in order to: a descending list of the same literals, or nothing if two
are opposed. -/
theorem sortedLiterals_spec {literals : List Int} {outcome : Option (List Int)}
    (answer : sortedLiterals literals = .ok outcome) : 0 ∉ literals ∧
      match outcome with
      | some sorted => Descending sorted ∧ ∀ number, number ∈ sorted ↔ number ∈ literals
      | none => ∃ number ∈ literals, -number ∈ literals := by
  unfold sortedLiterals at answer
  by_cases zero : 0 ∈ literals
  · rw [if_pos zero] at answer
    cases answer
  rw [if_neg zero] at answer
  refine ⟨zero, ?_⟩
  have ordered := pairwise_sortDistinct orderTest_literalBefore literals
  cases opposed : opposedNeighbours (sortDistinct literalBefore literals) with
  | error fault =>
    simp only [opposed] at answer
    cases answer
  | ok found =>
    simp only [opposed] at answer
    cases found with
    | true =>
      cases answer
      obtain ⟨number, member, opposite⟩ := opposed_of_opposedNeighbours opposed
      exact ⟨number, mem_sortDistinct.mp member, mem_sortDistinct.mp opposite⟩
    | false =>
      cases answer
      exact ⟨descending_of_opposedNeighbours ordered opposed, fun number => mem_sortDistinct⟩

/-- Order and repeats in a list of literals make no difference. -/
theorem sortedLiterals_congr {literals others : List Int}
    (same : ∀ number, number ∈ others ↔ number ∈ literals) :
    sortedLiterals others = sortedLiterals literals := by
  unfold sortedLiterals
  simp only [same, sortDistinct_congr orderTest_literalBefore same]

/-- Literals that are signed 32-bit numbers. -/
def InWord (number : Int) : Prop := leastCode ≤ number ∧ number < 2147483648

/-- The least number comes first in the order, so it is never negated. -/
theorem opposedNeighbours_eq_ok {literals : List Int}
    (sorted : literals.Pairwise fun first second => literalBefore first second ∧ first ≠ second)
    (inWord : ∀ number ∈ literals, InWord number) :
    ∃ found, opposedNeighbours literals = .ok found := by
  induction literals using opposedNeighbours.induct with
  | case1 first second rest ih =>
    obtain ⟨before, tail⟩ := List.pairwise_cons.mp sorted
    have notLeast : second ≠ leastCode := by
      intro least
      obtain ⟨ordered, different⟩ := before second List.mem_cons_self
      have bounds := inWord first List.mem_cons_self
      simp only [literalBefore, Bool.or_eq_true, decide_eq_true_eq, Bool.and_eq_true,
        beq_iff_eq] at ordered
      simp only [InWord, leastCode] at bounds least
      omega
    rw [opposedNeighbours_cons_cons rest notLeast]
    split
    · exact ⟨true, rfl⟩
    · exact ih tail fun number member => inWord number (List.mem_cons_of_mem _ member)
  | case2 literals short =>
    refine ⟨false, ?_⟩
    rw [opposedNeighbours]
    · rfl
    · exact short

theorem sortedLiterals_eq_ok {literals : List Int} (nonzero : 0 ∉ literals)
    (inWord : ∀ number ∈ literals, InWord number) :
    ∃ outcome, sortedLiterals literals = .ok outcome := by
  obtain ⟨found, opposed⟩ := opposedNeighbours_eq_ok
    (pairwise_sortDistinct orderTest_literalBefore literals)
    fun number member => inWord number (mem_sortDistinct.mp member)
  unfold sortedLiterals
  rw [if_neg nonzero]
  simp only [opposed]
  cases found
  · exact ⟨_, rfl⟩
  · exact ⟨_, rfl⟩

/-! ## Linking one literal -/

/-- The edge of a truth value. -/
def constant (value : Bool) : Edge := if value then .one else .zero

theorem represents_constant (canonical : store.Canonical) (value : Bool) :
    store.Represents (constant value) fun _ => value := by
  cases value
  · exact canonical.represents_zero
  · exact canonical.represents_one

theorem dependsOn_constant (value : Bool) (vars : Set Nat) :
    DependsOn (fun _ : Valuation => value) vars :=
  (dependsOn_const value).mono (Set.empty_subset vars)

/-- Where the literal has the absorbing value the function has it too. -/
def linked (absorbing : Bool) (number : Int) (rest : BoolFunction) : BoolFunction := fun valuation =>
  if literalFunction number valuation = absorbing then absorbing else rest valuation

def link (absorbing : Bool) (rest : Edge) (number : Int) : Action Edge :=
  if decide (number < 0) = absorbing then node number.natAbs (constant absorbing) rest
  else node number.natAbs rest (constant absorbing)

theorem linked_eq_branch (absorbing : Bool) (number : Int) (rest : BoolFunction) :
    linked absorbing number rest =
      if decide (number < 0) = absorbing then branch number.natAbs rest fun _ => absorbing
      else branch number.natAbs (fun _ => absorbing) rest := by
  funext valuation
  by_cases sign : decide (number < 0) = absorbing
  · rw [if_pos sign]
    simp only [linked, branch, literalFunction, sign]
    cases valuation number.natAbs <;> cases absorbing <;> rfl
  · rw [if_neg sign]
    have opposite : decide (number < 0) = !absorbing := Bool.eq_not_of_ne sign
    simp only [linked, branch, literalFunction, opposite]
    cases valuation number.natAbs <;> cases absorbing <;> rfl

section

variable {absorbing : Bool} {number : Int} {rest : BoolFunction}

theorem dependsOn_linked (depends : DependsOn rest (Set.Ioi number.natAbs)) :
    DependsOn (linked absorbing number rest) (Set.Ici number.natAbs) := by
  rw [linked_eq_branch]
  split
  · exact dependsOn_branch depends (dependsOn_constant absorbing _)
  · exact dependsOn_branch (dependsOn_constant absorbing _) depends

/-- What is linked to a literal is a cofactor of the whole. -/
theorem mem_of_linked (depends : DependsOn rest (Set.Ioi number.natAbs))
    (member : linked absorbing number rest ∈ scope.family) : rest ∈ scope.family := by
  have below := scope.closed.cofactor _ member number.natAbs (dependsOn_linked depends)
  rw [linked_eq_branch] at below
  split at below
  · have onTrue := below true
    rw [cofactor_branch depends (dependsOn_constant absorbing _)] at onTrue
    exact onTrue
  · have onFalse := below false
    rw [cofactor_branch (dependsOn_constant absorbing _) depends] at onFalse
    exact onFalse

theorem link_confined {edge : Edge} (canonical : store.Canonical) (nonzero : number ≠ 0)
    (depends : DependsOn rest (Set.Ioi number.natAbs)) (represents : store.Represents edge rest)
    (member : linked absorbing number rest ∈ scope.family) :
    Confined steady scope (link absorbing edge number) store
      fun edge after => after.Represents edge (linked absorbing number rest) := by
  have absorbs := represents_constant canonical absorbing
  have independent := dependsOn_constant absorbing (Set.Ioi number.natAbs)
  have positive := Int.natAbs_ne_zero.mpr nonzero
  rw [linked_eq_branch] at member ⊢
  unfold link
  split at member
  · rename_i sign
    rw [if_pos sign, if_pos sign]
    exact (node_confined canonical _ absorbs represents (fun _ => member)
      fun misfit => absurd ⟨positive, Or.inr ⟨independent, depends⟩⟩ misfit).weaken
        fun _ _ _ result => result.2
  · rename_i sign
    rw [if_neg sign, if_neg sign]
    exact (node_confined canonical _ represents absorbs (fun _ => member)
      fun misfit => absurd ⟨positive, Or.inr ⟨depends, independent⟩⟩ misfit).weaken
        fun _ _ _ result => result.2

end

/-! ## Linking all literals -/

/-- The literals linked one after the other. -/
def linkedAll (absorbing : Bool) (literals : List Int) (rest : BoolFunction) : BoolFunction :=
  literals.foldl (fun function number => linked absorbing number function) rest

theorem linkedAll_apply (absorbing : Bool) (literals : List Int) (rest : BoolFunction)
    (valuation : Valuation) : linkedAll absorbing literals rest valuation =
      if ∃ number ∈ literals, literalFunction number valuation = absorbing then absorbing
      else rest valuation := by
  induction literals generalizing rest with
  | nil => simp [linkedAll]
  | cons number literals ih =>
    rw [linkedAll, List.foldl_cons, ← linkedAll, ih]
    by_cases later : ∃ other ∈ literals, literalFunction other valuation = absorbing
    · rw [if_pos later, if_pos]
      obtain ⟨other, member, absorbs⟩ := later
      exact ⟨other, List.mem_cons_of_mem _ member, absorbs⟩
    · rw [if_neg later]
      simp only [linked, List.exists_mem_cons_iff, later, or_false]

section

variable {absorbing : Bool} {literals : List Int} {rest : BoolFunction}

theorem mem_of_linkedAll (descending : Descending literals)
    (depends : ∀ number ∈ literals, DependsOn rest (Set.Ioi number.natAbs))
    (member : linkedAll absorbing literals rest ∈ scope.family) : rest ∈ scope.family := by
  induction literals generalizing rest with
  | nil => exact member
  | cons number literals ih =>
    obtain ⟨earlier, tail⟩ := List.pairwise_cons.mp descending
    have first := depends number List.mem_cons_self
    refine mem_of_linked first (ih tail (fun other known => ?_) member)
    exact (dependsOn_linked first).mono (Set.Ici_subset_Ioi.mpr (earlier other known))

theorem linkAll_confined {edge : Edge} (canonical : store.Canonical)
    (descending : Descending literals) (nonzero : 0 ∉ literals)
    (depends : ∀ number ∈ literals, DependsOn rest (Set.Ioi number.natAbs))
    (represents : store.Represents edge rest)
    (member : linkedAll absorbing literals rest ∈ scope.family) :
    Confined steady scope (literals.foldlM (link absorbing) edge) store
      fun edge after => after.Represents edge (linkedAll absorbing literals rest) := by
  induction literals generalizing rest edge store with
  | nil => exact Confined.pure canonical represents
  | cons number literals ih =>
    obtain ⟨earlier, tail⟩ := List.pairwise_cons.mp descending
    obtain ⟨different, others⟩ := not_or.mp (mt List.mem_cons.mpr nonzero)
    have first := depends number List.mem_cons_self
    have later : ∀ other ∈ literals,
        DependsOn (linked absorbing number rest) (Set.Ioi other.natAbs) := fun other known =>
      (dependsOn_linked first).mono (Set.Ici_subset_Ioi.mpr (earlier other known))
    rw [List.foldlM_cons]
    apply (link_confined canonical (Ne.symm different) first represents
      (mem_of_linkedAll tail later member)).bind
    intro joined after grown result
    exact ih grown.canonical tail others later result member

end

/-! ## Cubes and clauses -/

/-- The absorbing value, where some literal has it. -/
def junction (absorbing : Bool) (literals : List Int) : BoolFunction := fun valuation =>
  if ∃ number ∈ literals, literalFunction number valuation = absorbing then absorbing
  else !absorbing

theorem linkedAll_constant (absorbing : Bool) (literals : List Int) :
    linkedAll absorbing literals (fun _ => !absorbing) = junction absorbing literals :=
  funext fun valuation => linkedAll_apply absorbing literals _ valuation

theorem junction_false (literals : List Int) (valuation : Valuation) :
    junction false literals valuation =
      literals.all fun number => literalFunction number valuation := by
  apply Bool.eq_iff_iff.mpr
  simp [junction]

theorem junction_true (literals : List Int) (valuation : Valuation) :
    junction true literals valuation =
      literals.any fun number => literalFunction number valuation := by
  apply Bool.eq_iff_iff.mpr
  simp [junction]

theorem junction_congr {absorbing : Bool} {literals others : List Int}
    (same : ∀ number, number ∈ literals ↔ number ∈ others) :
    junction absorbing literals = junction absorbing others := by
  funext valuation
  simp only [junction, same]

theorem literalFunction_neg {number : Int} (nonzero : number ≠ 0) (valuation : Valuation) :
    literalFunction (-number) valuation = !literalFunction number valuation := by
  have sign : decide (-number < 0) = !decide (number < 0) := by
    by_cases negative : number < 0
    · simp [negative]
      omega
    · simp [negative]
      omega
  simp only [literalFunction, sign, Int.natAbs_neg, Bool.not_xor]

/-- One of two opposed literals has the absorbing value. -/
theorem junction_of_opposed {absorbing : Bool} {literals : List Int} {number : Int}
    (nonzero : 0 ∉ literals) (member : number ∈ literals) (opposite : -number ∈ literals) :
    junction absorbing literals = fun _ => absorbing := by
  funext valuation
  refine if_pos ?_
  have different : number ≠ 0 := fun zero => nonzero (zero ▸ member)
  by_cases holds : literalFunction number valuation = absorbing
  · exact ⟨number, member, holds⟩
  · refine ⟨-number, opposite, ?_⟩
    rw [literalFunction_neg different, Bool.eq_not_of_ne holds, Bool.not_not]

/-- The values that give every literal the value opposite to the absorbing one, unless two literals
are opposed. -/
def avoiding (absorbing : Bool) (literals : List Int) : Valuation := fun var =>
  decide ((var : Int) ∈ literals) ^^ absorbing

theorem literalFunction_avoiding {absorbing : Bool} {literals : List Int} {number : Int}
    (consistent : ∀ other ∈ literals, -other ∉ literals) (member : number ∈ literals) :
    literalFunction number (avoiding absorbing literals) = !absorbing := by
  by_cases negative : number < 0
  · have isNeg : (number.natAbs : Int) = -number := by omega
    simp [literalFunction, avoiding, negative, isNeg, consistent number member]
  · have isSame : (number.natAbs : Int) = number := by omega
    simp [literalFunction, avoiding, negative, isSame, member]

/-- The absorbing value is there throughout exactly if two literals are opposed. -/
theorem junction_eq_absorbing_iff {absorbing : Bool} {literals : List Int} (nonzero : 0 ∉ literals) :
    junction absorbing literals = (fun _ => absorbing) ↔
      ∃ number ∈ literals, -number ∈ literals := by
  constructor
  · intro absorbed
    by_contra consistent
    push Not at consistent
    have value := congrFun absorbed (avoiding absorbing literals)
    have none : ¬∃ number ∈ literals,
        literalFunction number (avoiding absorbing literals) = absorbing := by
      rintro ⟨number, member, holds⟩
      rw [literalFunction_avoiding consistent member] at holds
      exact Bool.not_ne_self absorbing holds
    rw [junction, if_neg none] at value
    exact Bool.not_ne_self absorbing value
  · rintro ⟨number, member, opposite⟩
    exact junction_of_opposed nonzero member opposite

/-- The conjunction or the disjunction of literals. -/
def joinLiterals (absorbing : Bool) (literals : List Int) : Action Edge := do
  match ← sortedLiterals literals with
  | none => return constant absorbing
  | some sorted => sorted.foldlM (link absorbing) (constant !absorbing)

theorem joinLiterals_congr (absorbing : Bool) {literals others : List Int}
    (same : ∀ number, number ∈ others ↔ number ∈ literals) :
    joinLiterals absorbing others = joinLiterals absorbing literals := by
  unfold joinLiterals
  rw [sortedLiterals_congr same]

theorem cube_eq (literals : List Int) : cube literals = joinLiterals false literals := by
  have step : (fun rest literal =>
      if literal < 0 then node literal.natAbs rest .zero else node literal.natAbs .zero rest) =
        link false := by
    funext rest literal
    by_cases negative : literal < 0 <;> simp [link, constant, negative]
  unfold cube joinLiterals
  rw [step]
  rfl

theorem clause_eq (literals : List Int) : clause literals = joinLiterals true literals := by
  have step : (fun rest literal =>
      if literal < 0 then node literal.natAbs .one rest else node literal.natAbs rest .one) =
        link true := by
    funext rest literal
    by_cases negative : literal < 0 <;> simp [link, constant, negative]
  unfold clause joinLiterals
  rw [step]
  rfl

theorem joinLiterals_confined (absorbing : Bool) (literals : List Int)
    (canonical : store.Canonical)
    (member : ∀ sorted, sortedLiterals literals = .ok sorted →
      junction absorbing literals ∈ scope.family)
    (misfit : ∀ fault, sortedLiterals literals = .error fault → scope.allows fault) :
    Confined steady scope (joinLiterals absorbing literals) store
      fun edge after => (∃ sorted, sortedLiterals literals = .ok sorted) ∧
        after.Represents edge (junction absorbing literals) := by
  refine Confined.read_any canonical misfit fun outcome answer => ?_
  obtain ⟨nonzero, sorts⟩ := sortedLiterals_spec answer
  cases outcome with
  | none =>
    obtain ⟨number, known, opposite⟩ := sorts
    refine Confined.pure canonical ⟨⟨_, answer⟩, ?_⟩
    rw [junction_of_opposed nonzero known opposite]
    exact represents_constant canonical absorbing
  | some sorted =>
    obtain ⟨descending, same⟩ := sorts
    have whole := (linkedAll_constant absorbing sorted).trans (junction_congr same)
    have target : linkedAll absorbing sorted (fun _ => !absorbing) ∈ scope.family := by
      rw [whole]
      exact member _ answer
    have built := linkAll_confined canonical descending (mt (same 0).mp nonzero)
      (fun _ _ => dependsOn_constant (!absorbing) _) (represents_constant canonical !absorbing) target
    rw [whole] at built
    exact built.weaken fun _ _ _ result => ⟨⟨_, answer⟩, result⟩

end DecisionDiagram.Manager
