import DecisionDiagram.Fault

/-!
# Running actions

An action that starts in a state ends in a state, with a result or with a fault. `Leads` states
both endings at once: a specification of an action says what a result comes with and which faults
are possible, and neither side can be forgotten. Specifications of composed actions follow from
those of their parts by `Leads.bind`.
-/

set_option autoImplicit false

namespace DecisionDiagram

variable {State Result Next : Type}

/-! ## One step -/

theorem bind_ok {action : EStateM Fault State Result} {next : Result → EStateM Fault State Next}
    {before after : State} {result : Result} (run : action before = .ok result after) :
    (action >>= next) before = next result after := by
  show EStateM.bind action next before = next result after
  simp only [EStateM.bind, run]

theorem bind_error {action : EStateM Fault State Result}
    {next : Result → EStateM Fault State Next} {before after : State} {fault : Fault}
    (run : action before = .error fault after) :
    (action >>= next) before = .error fault after := by
  show EStateM.bind action next before = .error fault after
  simp only [EStateM.bind, run]

/-- An action that returns went through its parts one after the other. -/
theorem bind_eq_ok {action : EStateM Fault State Result}
    {next : Result → EStateM Fault State Next} {before after : State} {last : Next}
    (run : (action >>= next) before = .ok last after) :
    ∃ result middle, action before = .ok result middle ∧ next result middle = .ok last after := by
  cases first : action before with
  | ok result middle =>
    rw [bind_ok first] at run
    exact ⟨result, middle, rfl, run⟩
  | error fault middle =>
    rw [bind_error first] at run
    cases run

theorem get_ok (state : State) : (get : EStateM Fault State State) state = .ok state state := rfl

theorem answer_bind {result : Result} (next : Result → Except Fault Next) :
    (Except.ok result >>= next) = next result := rfl

theorem answer_bind_eq_ok {question : Except Fault Result} {next : Result → Except Fault Next}
    {last : Next} (answer : (question >>= next) = .ok last) :
    ∃ result, question = .ok result ∧ next result = .ok last := by
  cases question with
  | ok result => exact ⟨result, rfl, answer⟩
  | error fault => cases answer

/-- A question that has an answer changes nothing. -/
theorem read_ok {question : Except Fault Result} {result : Result}
    (answer : question = .ok result) (state : State) :
    (liftM question : EStateM Fault State Result) state = .ok result state := by
  subst answer
  rfl

theorem read_error {question : Except Fault Result} {fault : Fault}
    (answer : question = .error fault) (state : State) :
    (liftM question : EStateM Fault State Result) state = .error fault state := by
  subst answer
  rfl

theorem get_bind_eq_ok {next : State → EStateM Fault State Next} {before after : State}
    {last : Next} (run : (get >>= next) before = .ok last after) :
    next before before = .ok last after := by
  rw [bind_ok (get_ok before)] at run
  exact run

/-- An action that returns after a question has had an answer to it. -/
theorem read_bind_eq_ok {question : Except Fault Result}
    {next : Result → EStateM Fault State Next} {before after : State} {last : Next}
    (run : (liftM question >>= next) before = .ok last after) :
    ∃ result, question = .ok result ∧ next result before = .ok last after := by
  cases answer : question with
  | ok result =>
    rw [bind_ok (read_ok answer before)] at run
    exact ⟨result, rfl, run⟩
  | error fault =>
    rw [bind_error (read_error answer before)] at run
    cases run

/-- Questions about the items of a list that all have answers. -/
theorem mapM_eq_ok {Item : Type} {question : Item → Except Fault Result} {answer : Item → Result}
    (items : List Item) (answers : ∀ item ∈ items, question item = .ok (answer item)) :
    items.mapM question = .ok (items.map answer) := by
  induction items with
  | nil => rfl
  | cons first rest ih =>
    rw [List.mapM_cons, answers first List.mem_cons_self,
      ih fun item member => answers item (List.mem_cons_of_mem _ member)]
    rfl

/-- Checks of the items of a list that all pass. -/
theorem forM_eq_ok {Item : Type} {check : Item → Except Fault Unit} (items : List Item)
    (passes : ∀ item ∈ items, check item = .ok ()) : items.forM check = .ok () := by
  induction items with
  | nil => rfl
  | cons first rest ih =>
    rw [List.forM, passes first List.mem_cons_self, answer_bind]
    exact ih fun item member => passes item (List.mem_cons_of_mem _ member)

/-! ## Both endings of an action -/

/-- From `before`, a result comes with `returns` and a fault with `faults`. -/
structure Leads (action : EStateM Fault State Result) (before : State)
    (returns : Result → State → Prop) (faults : Fault → State → Prop) : Prop where
  result : ∀ result after, action before = .ok result after → returns result after
  fault : ∀ fault after, action before = .error fault after → faults fault after

namespace Leads

variable {action : EStateM Fault State Result} {before after : State}
  {returns stronger : Result → State → Prop} {faults fewer : Fault → State → Prop}

theorem of_ok {result : Result} (run : action before = .ok result after)
    (holds : returns result after) : Leads action before returns faults where
  result other last same := by
    rw [run] at same
    cases same
    exact holds
  fault other last same := by
    rw [run] at same
    cases same

theorem of_error {fault : Fault} (run : action before = .error fault after)
    (holds : faults fault after) : Leads action before returns faults where
  result other last same := by
    rw [run] at same
    cases same
  fault other last same := by
    rw [run] at same
    cases same
    exact holds

theorem mono (leads : Leads action before stronger fewer)
    (onResult : ∀ result after, stronger result after → returns result after)
    (onFault : ∀ fault after, fewer fault after → faults fault after) :
    Leads action before returns faults where
  result result after run := onResult result after (leads.result result after run)
  fault fault after run := onFault fault after (leads.fault fault after run)

/-- An action leads to where an action with the same outcome leads. -/
theorem of_eq {same : EStateM Fault State Result} {start : State}
    (agree : action before = same start) (leads : Leads same start returns faults) :
    Leads action before returns faults where
  result result after run := leads.result result after (agree ▸ run)
  fault fault after run := leads.fault fault after (agree ▸ run)

theorem bind {next : Result → EStateM Fault State Next} {atEnd : Next → State → Prop}
    (first : Leads action before returns faults)
    (second : ∀ result after, returns result after → Leads (next result) after atEnd faults) :
    Leads (action >>= next) before atEnd faults := by
  cases run : action before with
  | ok result after => exact of_eq (bind_ok run) (second result after (first.result result after run))
  | error fault after => exact of_error (bind_error run) (first.fault fault after run)

end Leads

end DecisionDiagram
