import DecisionDiagram.Pairing
import Mathlib.Algebra.Group.Nat.Defs
import Mathlib.Data.Nat.Choose.Basic
import Mathlib.Data.Set.Function

/-!
# Pairs and triples that have a word of their own

The exact numbers run down one diagonal of a constant sum after the other, so every number is met
once. A pair is short where its number fits into a word. The words compute the number of a short pair
exactly, since its sum has no more than 33 bits and no product is greater than the number. Hence every
word belongs to one short pair, and to one short triple.
-/

set_option autoImplicit false

namespace DecisionDiagram.Pairing

/-! ## Unbounded numbers -/

section Exact

variable {first second otherFirst otherSecond : Nat}

/-- Triples are paired twice, as words are. -/
def exactTriple (first second third : Nat) : Nat :=
  exactCantor (exactCantor first second) third

theorem exactCantor_eq_choose (first second : Nat) :
    exactCantor first second = (first + second + 1).choose 2 + second := by
  rw [exactCantor, Nat.choose_two_right, Nat.add_sub_cancel, Nat.mul_comm (first + second)]

/-- The diagonal of a sum has one place more than the sum says. -/
theorem choose_next_diagonal (sum : Nat) :
    (sum + 2).choose 2 = (sum + 1).choose 2 + (sum + 1) := by
  rw [Nat.choose_succ_succ', Nat.choose_one_right, Nat.add_comm]

theorem exactCantor_lt_of_add_lt (before : first + second < otherFirst + otherSecond) :
    exactCantor first second < exactCantor otherFirst otherSecond := by
  rw [exactCantor_eq_choose, exactCantor_eq_choose]
  calc (first + second + 1).choose 2 + second
      < (first + second + 1).choose 2 + (first + second + 1) := by omega
    _ = (first + second + 2).choose 2 := (choose_next_diagonal _).symm
    _ ≤ (otherFirst + otherSecond + 1).choose 2 := Nat.choose_le_choose 2 (by omega)
    _ ≤ (otherFirst + otherSecond + 1).choose 2 + otherSecond := Nat.le_add_right _ _

theorem exactCantor_inj : exactCantor first second = exactCantor otherFirst otherSecond ↔
    first = otherFirst ∧ second = otherSecond := by
  constructor
  · intro same
    have sameSum : first + second = otherFirst + otherSecond := by
      rcases Nat.lt_trichotomy (first + second) (otherFirst + otherSecond) with before | equal | after
      · exact absurd same (exactCantor_lt_of_add_lt before).ne
      · exact equal
      · exact absurd same (exactCantor_lt_of_add_lt after).ne'
    rw [exactCantor_eq_choose, exactCantor_eq_choose, sameSum] at same
    omega
  · rintro ⟨rfl, rfl⟩
    rfl

theorem exactCantor_succ_right (first second : Nat) :
    exactCantor first (second + 1) = exactCantor (first + 1) second + 1 := by
  have sameSum : first + (second + 1) = first + 1 + second := by omega
  rw [exactCantor_eq_choose, exactCantor_eq_choose, sameSum, ← Nat.add_assoc _ second 1]

theorem exactCantor_succ_zero (sum : Nat) : exactCantor (sum + 1) 0 = exactCantor 0 sum + 1 := by
  rw [exactCantor_eq_choose, exactCantor_eq_choose, Nat.zero_add, Nat.add_zero,
    choose_next_diagonal]
  rfl

/-- The induction follows the numbers down a diagonal, and from its end to the next one. -/
theorem exists_exactCantor_eq (number : Nat) : ∃ first second, exactCantor first second = number := by
  induction number with
  | zero => exact ⟨0, 0, rfl⟩
  | succ number ih =>
    obtain ⟨first, second, rfl⟩ := ih
    cases first with
    | zero => exact ⟨second + 1, 0, exactCantor_succ_zero second⟩
    | succ first => exact ⟨first, second + 1, exactCantor_succ_right first second⟩

theorem add_le_exactCantor (first second : Nat) : first + second ≤ exactCantor first second := by
  rw [exactCantor_eq_choose, Nat.choose_succ_succ', Nat.choose_one_right]
  omega

end Exact

/-! ## Words -/

section Words

variable {first second third sum : UInt64}

theorem lt_of_triangular_lt (fits : sum.toNat * (sum.toNat + 1) / 2 < 2 ^ 64) :
    sum.toNat < 2 ^ 33 := by
  by_contra long
  have product : 2 ^ 33 * (2 ^ 33 + 1) ≤ sum.toNat * (sum.toNat + 1) :=
    Nat.mul_le_mul (by omega) (by omega)
  omega

theorem toNat_triangular (fits : sum.toNat * (sum.toNat + 1) / 2 < 2 ^ 64) :
    (triangular sum).toNat = sum.toNat * (sum.toNat + 1) / 2 := by
  have short := lt_of_triangular_lt fits
  have next : (sum + 1).toNat = sum.toNat + 1 := by
    rw [UInt64.toNat_add, UInt64.toNat_one]
    exact Nat.mod_eq_of_lt (by omega)
  have two : (2 : UInt64).toNat = 2 := rfl
  have parity : sum % 2 = 0 ↔ sum.toNat % 2 = 0 := by
    rw [← UInt64.toNat_inj, UInt64.toNat_mod, two, UInt64.toNat_zero]
  unfold triangular
  -- the neighbour that is halved is even, so halving first comes to the same as halving the product
  by_cases even : sum.toNat % 2 = 0
  · have halved : sum.toNat / 2 * (sum.toNat + 1) = sum.toNat * (sum.toNat + 1) / 2 :=
      Nat.div_mul_right_comm (Nat.dvd_of_mod_eq_zero even) _
    rw [if_pos (parity.mpr even), UInt64.toNat_mul, UInt64.toNat_div, next, two, halved,
      Nat.mod_eq_of_lt fits]
  · have halved : sum.toNat * ((sum.toNat + 1) / 2) = sum.toNat * (sum.toNat + 1) / 2 :=
      (Nat.mul_div_assoc _ (Nat.dvd_of_mod_eq_zero (by omega))).symm
    rw [if_neg (mt parity.mp even), UInt64.toNat_mul, UInt64.toNat_div, next, two, halved,
      Nat.mod_eq_of_lt fits]

theorem toNat_cantor (fits : exactCantor first.toNat second.toNat < 2 ^ 64) :
    (cantor first second).toNat = exactCantor first.toNat second.toNat := by
  have isSum : (first + second).toNat = first.toNat + second.toNat := by
    rw [UInt64.toNat_add]
    exact Nat.mod_eq_of_lt (Nat.lt_of_le_of_lt (add_le_exactCantor _ _) fits)
  have triangle : (triangular (first + second)).toNat =
      (first.toNat + second.toNat) * (first.toNat + second.toNat + 1) / 2 := by
    rw [← isSum]
    apply toNat_triangular
    rw [isSum]
    exact Nat.lt_of_le_of_lt (Nat.le_add_right _ _) fits
  rw [cantor, UInt64.toNat_add, triangle]
  exact Nat.mod_eq_of_lt fits

theorem toNat_triple (fits : exactTriple first.toNat second.toNat third.toNat < 2 ^ 64) :
    (triple first second third).toNat = exactTriple first.toNat second.toNat third.toNat := by
  have inner : exactCantor first.toNat second.toNat < 2 ^ 64 := by
    have := add_le_exactCantor (exactCantor first.toNat second.toNat) third.toNat
    rw [exactTriple] at fits
    omega
  unfold exactTriple at fits ⊢
  rw [← toNat_cantor inner] at fits ⊢
  exact toNat_cantor fits

end Words

/-! ## One short key for each word -/

/-- Numbers that differ, and among which is every word, leave each word to one key. -/
theorem bijOn_of_toNat_eq {Key : Type} {code : Key → UInt64} {number : Key → Nat}
    (agrees : ∀ key, number key < 2 ^ 64 → (code key).toNat = number key)
    (injective : Function.Injective number) (onto : ∀ word : UInt64, ∃ key, number key = word.toNat) :
    Set.BijOn code {key | number key < 2 ^ 64} Set.univ := by
  refine ⟨Set.mapsTo_univ _ _, ?_, ?_⟩
  · intro key short other otherShort same
    apply injective
    rw [← agrees key short, ← agrees other otherShort, same]
  · intro word _
    obtain ⟨key, isWord⟩ := onto word
    have short : number key < 2 ^ 64 := isWord ▸ word.toNat_lt
    exact ⟨key, short, UInt64.toNat_inj.mp ((agrees key short).trans isWord)⟩

theorem exists_words_exactCantor_eq {number : Nat} (fits : number < 2 ^ 64) :
    ∃ first second : UInt64, exactCantor first.toNat second.toNat = number := by
  obtain ⟨first, second, isNumber⟩ := exists_exactCantor_eq number
  have least := add_le_exactCantor first second
  have firstFits : first < UInt64.size := by rw [UInt64.size]; omega
  have secondFits : second < UInt64.size := by rw [UInt64.size]; omega
  refine ⟨UInt64.ofNat first, UInt64.ofNat second, ?_⟩
  rw [UInt64.toNat_ofNat_of_lt' firstFits, UInt64.toNat_ofNat_of_lt' secondFits, isNumber]

theorem exists_words_exactTriple_eq {number : Nat} (fits : number < 2 ^ 64) :
    ∃ first second third : UInt64,
      exactTriple first.toNat second.toNat third.toNat = number := by
  obtain ⟨inner, third, isNumber⟩ := exists_words_exactCantor_eq fits
  obtain ⟨first, second, isInner⟩ := exists_words_exactCantor_eq inner.toNat_lt
  exact ⟨first, second, third, by rw [exactTriple, isInner, isNumber]⟩

/-- The pairs whose number is a word. -/
def shortPairs : Set (UInt64 × UInt64) :=
  {pair | exactCantor pair.1.toNat pair.2.toNat < 2 ^ 64}

/-- The triples whose number is a word. -/
def shortTriples : Set (UInt64 × UInt64 × UInt64) :=
  {key | exactTriple key.1.toNat key.2.1.toNat key.2.2.toNat < 2 ^ 64}

theorem cantor_bijOn : Set.BijOn (fun pair => cantor pair.1 pair.2) shortPairs Set.univ := by
  refine bijOn_of_toNat_eq (fun pair fits => toNat_cantor fits) ?_ ?_
  · intro pair other same
    obtain ⟨sameFirst, sameSecond⟩ := exactCantor_inj.mp same
    exact Prod.ext (UInt64.toNat_inj.mp sameFirst) (UInt64.toNat_inj.mp sameSecond)
  · intro word
    obtain ⟨first, second, isWord⟩ := exists_words_exactCantor_eq word.toNat_lt
    exact ⟨(first, second), isWord⟩

theorem triple_bijOn :
    Set.BijOn (fun key => triple key.1 key.2.1 key.2.2) shortTriples Set.univ := by
  refine bijOn_of_toNat_eq (fun key fits => toNat_triple fits) ?_ ?_
  · intro key other same
    obtain ⟨sameInner, sameThird⟩ := exactCantor_inj.mp same
    obtain ⟨sameFirst, sameSecond⟩ := exactCantor_inj.mp sameInner
    exact Prod.ext (UInt64.toNat_inj.mp sameFirst)
      (Prod.ext (UInt64.toNat_inj.mp sameSecond) (UInt64.toNat_inj.mp sameThird))
  · intro word
    obtain ⟨first, second, third, isWord⟩ := exists_words_exactTriple_eq word.toNat_lt
    exact ⟨(first, second, third), isWord⟩

/-- **Short pairs and short triples are numbered exactly**, and every word is the number of one of
each. -/
theorem short_numbered :
    (∀ pair ∈ shortPairs, (cantor pair.1 pair.2).toNat = exactCantor pair.1.toNat pair.2.toNat) ∧
    Set.BijOn (fun pair => cantor pair.1 pair.2) shortPairs Set.univ ∧
    (∀ key ∈ shortTriples, (triple key.1 key.2.1 key.2.2).toNat =
      exactTriple key.1.toNat key.2.1.toNat key.2.2.toNat) ∧
    Set.BijOn (fun key => triple key.1 key.2.1 key.2.2) shortTriples Set.univ :=
  ⟨fun _ fits => toNat_cantor fits, cantor_bijOn, fun _ fits => toNat_triple fits, triple_bijOn⟩

/-- The pair and the triple of the greatest word. -/
theorem greatest_word_numbered :
    ((3327948884, 2746052115) : UInt64 × UInt64) ∈ shortPairs ∧
    (cantor 3327948884 2746052115).toNat = 18446744073709551615 ∧
    (∀ pair ∈ shortPairs, cantor pair.1 pair.2 = cantor 3327948884 2746052115 →
      pair = (3327948884, 2746052115)) ∧
    ((66435, 15148, 2746052115) : UInt64 × UInt64 × UInt64) ∈ shortTriples ∧
    (triple 66435 15148 2746052115).toNat = 18446744073709551615 ∧
    (∀ key ∈ shortTriples, triple key.1 key.2.1 key.2.2 = triple 66435 15148 2746052115 →
      key = (66435, 15148, 2746052115)) := by
  have pairNumber : exactCantor (3327948884 : UInt64).toNat (2746052115 : UInt64).toNat =
      18446744073709551615 := by decide
  have tripleNumber : exactTriple (66435 : UInt64).toNat (15148 : UInt64).toNat
      (2746052115 : UInt64).toNat = 18446744073709551615 := by decide
  have pairShort : ((3327948884, 2746052115) : UInt64 × UInt64) ∈ shortPairs :=
    Nat.lt_of_le_of_lt pairNumber.le (by decide)
  have tripleShort : ((66435, 15148, 2746052115) : UInt64 × UInt64 × UInt64) ∈ shortTriples :=
    Nat.lt_of_le_of_lt tripleNumber.le (by decide)
  obtain ⟨pairExact, pairBijOn, tripleExact, tripleBijOn⟩ := short_numbered
  exact ⟨pairShort, (pairExact _ pairShort).trans pairNumber,
    fun _ short same => pairBijOn.injOn short pairShort same,
    tripleShort, (tripleExact _ tripleShort).trans tripleNumber,
    fun _ short same => tripleBijOn.injOn short tripleShort same⟩

/-- The next pair of that diagonal is too long, and falls on the first word again. -/
example : exactCantor 3327948883 2746052116 = 2 ^ 64 ∧ cantor 3327948883 2746052116 = cantor 0 0 := by
  decide

end DecisionDiagram.Pairing
