import DecisionDiagram.Tree
import Mathlib.Data.List.TakeWhile

/-!
# Reading trees back

The printed form of a tree can be read back: after a bracket comes a number, which ends at the first
character that is no digit, and each branch says itself where it ends. So the printed form needs no
lengths, and different trees are printed differently.
-/

set_option autoImplicit false

namespace DecisionDiagram.Tree

def height : Tree → Nat
  | leaf _ => 0
  | branch _ high low => max high.height low.height + 1

/-- The leaf at the end of the path that a valuation of the variables takes. -/
def eval (valuation : Nat → Bool) : Tree → Bool
  | leaf value => value
  | branch var high low => if valuation var then high.eval valuation else low.eval valuation

/-- What follows a comma and a blank. -/
def afterComma : List Char → Option (List Char)
  | ',' :: ' ' :: rest => some rest
  | _ => none

/-- The tree at the front of a text, and what follows it. Trees with less than `fuel` levels of
brackets are read. -/
def read : Nat → List Char → Option (Tree × List Char)
  | 0, _ => none
  | _ + 1, '1' :: rest => some (leaf true, rest)
  | _ + 1, '0' :: rest => some (leaf false, rest)
  | fuel + 1, '(' :: rest => do
    let var := Nat.ofDigitChars 10 (rest.takeWhile Char.isDigit) 0
    let (high, rest) ← read fuel (← afterComma (rest.dropWhile Char.isDigit))
    let (low, rest) ← read fuel (← afterComma rest)
    match rest with
    | ')' :: rest => some (branch var high low, rest)
    | _ => none
  | _ + 1, _ => none

/-- The tree that a text is the printed form of. -/
def decode (text : String) : Option Tree :=
  match read text.toList.length text.toList with
  | some (tree, []) => some tree
  | _ => none

/-! ## Reading what was written -/

section

variable {var : Nat} {follow : Char} {rest : List Char}

theorem takeWhile_toDigits (stops : follow.isDigit = false) :
    (Nat.toDigits 10 var ++ follow :: rest).takeWhile Char.isDigit = Nat.toDigits 10 var := by
  have digits : ∀ char ∈ Nat.toDigits 10 var, char.isDigit = true := fun _ member =>
    Nat.isDigit_of_mem_toDigits (by decide) (by decide) member
  rw [List.takeWhile_append_of_pos digits, List.takeWhile_cons, stops]
  simp

theorem dropWhile_toDigits (stops : follow.isDigit = false) :
    (Nat.toDigits 10 var ++ follow :: rest).dropWhile Char.isDigit = follow :: rest := by
  have digits : ∀ char ∈ Nat.toDigits 10 var, char.isDigit = true := fun _ member =>
    Nat.isDigit_of_mem_toDigits (by decide) (by decide) member
  rw [List.dropWhile_append_of_pos digits, List.dropWhile_cons, stops]
  simp

end

/-- A tree is read up to its end, whatever follows. -/
theorem read_write {tree : Tree} {fuel : Nat} (enough : tree.height < fuel) (rest : List Char) :
    read fuel (tree.write rest) = some (tree, rest) := by
  induction tree generalizing fuel rest with
  | leaf value =>
    obtain ⟨fuel, rfl⟩ := Nat.exists_eq_succ_of_ne_zero (Nat.ne_of_gt enough)
    cases value <;> rfl
  | branch var high low onHigh onLow =>
    obtain ⟨fuel, rfl⟩ := Nat.exists_eq_succ_of_ne_zero (Nat.ne_of_gt (Nat.zero_lt_of_lt enough))
    have lower : high.height < fuel ∧ low.height < fuel := by
      rw [height] at enough
      omega
    simp only [write, read, takeWhile_toDigits (by decide : ','.isDigit = false),
      dropWhile_toDigits (by decide : ','.isDigit = false), Nat.ofDigitChars_ten_toDigits, afterComma,
      onHigh lower.1, onLow lower.2, Option.bind_eq_bind, Option.bind_some]

theorem height_lt_length_write (tree : Tree) (rest : List Char) :
    tree.height + rest.length < (tree.write rest).length := by
  induction tree generalizing rest with
  | leaf value => cases value <;> simp [height, write]
  | branch var high low onHigh onLow =>
    have ofLow := onLow (')' :: rest)
    have ofHigh := onHigh (',' :: ' ' :: low.write (')' :: rest))
    simp only [height, write, List.length_cons, List.length_append] at ofLow ofHigh ⊢
    omega

/-- The printed form determines the tree. -/
theorem decode_text (tree : Tree) : decode tree.text = some tree := by
  have enough := height_lt_length_write tree []
  rw [List.length_nil, Nat.add_zero] at enough
  rw [decode, text, String.toList_ofList, read_write enough]

theorem text_injective : Function.Injective text := by
  intro first second same
  have read := congrArg decode same
  rw [decode_text, decode_text] at read
  exact Option.some.inj read

example : decode "(1, (20, 1, 0), 0)" =
    some (branch 1 (branch 20 (leaf true) (leaf false)) (leaf false)) := by
  decide +kernel

end DecisionDiagram.Tree
