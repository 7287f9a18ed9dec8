import DecisionDiagram.Cache

/-!
# What memo tables hold

`Memo.Holds` says that every entry of a table has a property. Only what is put in has to be
checked; a look-up finds an entry or nothing.
-/

set_option autoImplicit false

namespace DecisionDiagram

variable {Key Value : Type} [BEq Key] [Hashable Key]

/-! ## Tables whose entries all have a property -/

theorem forall_entry_empty {property : Key → Value → Prop} (key : Key) (value : Value)
    (stored : (∅ : Std.HashMap Key Value)[key]? = some value) : property key value := by
  rw [Std.HashMap.getElem?_empty] at stored
  cases stored

theorem forall_entry_insert [LawfulBEq Key] {entries : Std.HashMap Key Value}
    {property : Key → Value → Prop}
    (holds : ∀ key value, entries[key]? = some value → property key value) {key : Key}
    {value : Value} (new : property key value) (other : Key) (found : Value)
    (stored : (entries.insert key value)[other]? = some found) : property other found := by
  rw [Std.HashMap.getElem?_insert] at stored
  split at stored
  · rename_i same
    rw [← eq_of_beq same, ← Option.some.inj stored]
    exact new
  · exact holds other found stored

namespace Memo

/-- Every entry has the property. -/
def Holds (memo : Memo Key Value) (property : Key → Value → Prop) : Prop :=
  ∀ key value, memo.entries[key]? = some value → property key value

variable {memo : Memo Key Value} {property weaker : Key → Value → Prop}

theorem Holds.mono (holds : memo.Holds property)
    (weakens : ∀ key value, property key value → weaker key value) : memo.Holds weaker :=
  fun key value stored => weakens key value (holds key value stored)

/-- What a look-up finds is an entry. -/
theorem entry_of_find? {key : Key} {value : Value} (found : memo.find? key = some value) :
    memo.entries[key]? = some value := by
  unfold find? at found
  split at found
  · exact found
  · cases found

theorem Holds.find? (holds : memo.Holds property) {key : Key} {value : Value}
    (found : memo.find? key = some value) : property key value :=
  holds key value (entry_of_find? found)

theorem find?_empty (recalls : Bool) (key : Key) :
    (empty recalls : Memo Key Value).find? key = none := by
  unfold empty find?
  rw [Std.HashMap.getElem?_empty, ite_self]

theorem holds_empty (recalls : Bool) : (empty recalls : Memo Key Value).Holds property :=
  forall_entry_empty

theorem Holds.insert [LawfulBEq Key] (holds : memo.Holds property) {key : Key} {value : Value}
    (new : property key value) : (memo.insert key value).Holds property :=
  forall_entry_insert holds new

end Memo

namespace Cache

theorem lookup_answer (cache : Cache Key Value) (key : Key) :
    (cache.lookup key).1 = cache.memo.find? key := by
  obtain ⟨name, memo, hits, misses⟩ := cache
  cases found : memo.find? key <;> simp only [lookup, found]

@[simp] theorem memo_lookup (cache : Cache Key Value) (key : Key) :
    (cache.lookup key).2.memo = cache.memo := by
  obtain ⟨name, memo, hits, misses⟩ := cache
  cases found : memo.find? key <;> simp only [lookup, found]

/-- Nothing is recalled and nothing ever was. -/
structure Forgetful (cache : Cache Key Value) : Prop where
  recalls : cache.memo.recalls = false
  hits : cache.hits = 0

namespace Forgetful

variable {cache : Cache Key Value}

theorem empty (name : String) : (empty name false : Cache Key Value).Forgetful := ⟨rfl, rfl⟩

theorem find?_eq_none (forgetful : cache.Forgetful) (key : Key) : cache.memo.find? key = none := by
  simp [Memo.find?, forgetful.recalls]

theorem lookup (forgetful : cache.Forgetful) (key : Key) : (cache.lookup key).2.Forgetful := by
  refine ⟨?_, ?_⟩
  · rw [memo_lookup, forgetful.recalls]
  · simp only [Cache.lookup, forgetful.find?_eq_none key, forgetful.hits]

theorem insert (forgetful : cache.Forgetful) (key : Key) (value : Value) :
    (cache.insert key value).Forgetful :=
  ⟨forgetful.recalls, forgetful.hits⟩

theorem clear (forgetful : cache.Forgetful) : cache.clear.Forgetful :=
  ⟨forgetful.recalls, forgetful.hits⟩

end Forgetful

end Cache

end DecisionDiagram
