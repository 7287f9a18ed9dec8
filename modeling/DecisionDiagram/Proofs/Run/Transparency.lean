import DecisionDiagram.Proofs.Manager.Run

/-!
# Remembering answers changes nothing but the time

A run is repeated with a manager that remembers nothing, neither between calls nor within one. Step by
step the calls end alike, with the same edges or the same fault, and the stores are the same to the
last slot: a remembered answer is one that the work, done again, would find in the store without
taking a slot.
-/

set_option autoImplicit false

namespace DecisionDiagram

/-- How a call ends. -/
def Call.outcome (call : Call) (manager : Manager) : Except Fault Answer :=
  match call.perform manager with
  | .ok answer _ => .ok answer
  | .error fault _ => .error fault

namespace Manager

/-- How the calls of a run end, with what is stored after each of them. -/
def history : List Call → Manager → List (Except Fault Answer × Store Node)
  | [], _ => []
  | call :: rest, manager =>
    (call.outcome manager, (call.leaves manager).store) :: history rest (call.leaves manager)

/-- Every call of a run is about edges in use. -/
def AdmissibleRun : List Call → Manager → Prop
  | [], _ => True
  | call :: rest, manager => call.Admissible manager ∧ AdmissibleRun rest (call.leaves manager)

/-- Nothing is recalled before, between or after the calls of a run. -/
def ForgetfulRun : List Call → Manager → Prop
  | [], manager => manager.Forgetful
  | call :: rest, manager => manager.Forgetful ∧ ForgetfulRun rest (call.leaves manager)

variable {first second : Manager}

theorem outcome_eq_of_twins (call : Call) (twins : first.Twins second)
    (admissible : call.Admissible first) : call.outcome second = call.outcome first := by
  obtain ⟨outcome, later, other, run, otherRun, _⟩ := call.perform_alike twins admissible
  unfold Call.outcome
  rw [run, otherRun]
  cases outcome <;> rfl

/-- Call by call, twins end alike. -/
theorem history_eq_of_twins {calls : List Call} (twins : first.Twins second)
    (admissible : AdmissibleRun calls first) : history calls second = history calls first := by
  induction calls generalizing first second with
  | nil => rfl
  | cons call rest ih =>
    obtain ⟨here, others⟩ := admissible
    have later := (call.leaves_twins twins here).1
    simp only [history, outcome_eq_of_twins call twins here, later.store, ih later others]

theorem forgetfulRun_of_twins {calls : List Call} (twins : first.Twins second)
    (forgetful : second.Forgetful) (admissible : AdmissibleRun calls first) :
    ForgetfulRun calls second := by
  induction calls generalizing first second with
  | nil => exact forgetful
  | cons call rest ih =>
    obtain ⟨here, others⟩ := admissible
    obtain ⟨later, forgets⟩ := call.leaves_twins twins here
    exact ⟨forgetful, ih later (forgets forgetful) others⟩

/-- **Remembering is transparent.** Call by call, a run ends in the same way and leaves the same store
if nothing is ever recalled. -/
theorem created_history_eq {config : Config} {manager : Manager} {calls : List Call}
    (made : create config = .ok manager) (admissible : AdmissibleRun calls manager) :
    ∃ forgetful, createWith false config = .ok forgetful ∧ ForgetfulRun calls forgetful ∧
      forgetful.store = manager.store ∧ history calls forgetful = history calls manager := by
  obtain ⟨store, canonical, makes⟩ := createWith_eq_ok (valid_of_create made)
  have sound : ∀ recalls, (⟨store, .empty recalls, [], recalls⟩ : Manager).Sound := fun recalls =>
    ⟨canonical, .empty _ _, fun _ member => absurd member List.not_mem_nil⟩
  obtain rfl := Except.ok.inj ((makes true).symm.trans made)
  have twins : (⟨store, .empty true, [], true⟩ : Manager).Twins ⟨store, .empty false, [], false⟩ :=
    ⟨sound true, sound false, rfl, rfl⟩
  exact ⟨_, makes false, forgetfulRun_of_twins twins ⟨rfl, .empty⟩ admissible, rfl,
    history_eq_of_twins twins admissible⟩

/-- What a collection keeps may be asked about after it, as before. -/
theorem admissibleRun_again {manager : Manager} {call : Call} (sound : manager.Sound)
    (admissible : call.Admissible manager) (builds : call.Builds) :
    AdmissibleRun [call, call, .collect call.edges, call] manager := by
  have grows := Call.leaves_of_builds sound admissible builds
  have again : call.Admissible (call.leaves manager) := fun edge member =>
    grows.live (admissible edge member)
  have more := Call.leaves_of_builds grows.sound again builds
  have live : ∀ edge ∈ call.edges, (call.leaves (call.leaves manager)).store.Live edge :=
    fun edge member => more.live (again edge member)
  obtain ⟨kept, collects, collected⟩ := collect_spec more.sound live
  refine ⟨admissible, again, live, ?_, trivial⟩
  rw [Call.leaves_of_ok (bind_ok collects)]
  exact fun edge member => collected.live (Store.mem_below_of_mem (List.mem_append_left _ member))
    (live edge member)

/-- A disjunction of literals is asked for twice, and again after a collection. -/
theorem history_of_repeated_or : ∃ manager forgetful calls, create ⟨3, 2, 2⟩ = .ok manager ∧
    calls = [.literal 1, .literal 2, .apply .or ⟨2, by decide⟩ ⟨3, by decide⟩,
      .apply .or ⟨2, by decide⟩ ⟨3, by decide⟩, .collect [⟨2, by decide⟩, ⟨3, by decide⟩],
      .apply .or ⟨2, by decide⟩ ⟨3, by decide⟩] ∧
    ForgetfulRun calls forgetful ∧ history calls forgetful = history calls manager := by
  have noEdges : ∀ (number : Int) (manager : Manager), (Call.literal number).Admissible manager :=
    fun _ _ _ member => absurd member List.not_mem_nil
  have started : ∃ manager, create ⟨3, 2, 2⟩ = .ok manager ∧
      (Call.apply .or ⟨2, by decide⟩ ⟨3, by decide⟩).Admissible
        ((Call.literal 2).leaves ((Call.literal 1).leaves manager)) := by
    refine ⟨_, rfl, List.forall_mem_cons.mpr ⟨⟨⟨1, .zero, .one⟩, ?_⟩,
      List.forall_mem_singleton.mpr ⟨⟨2, .zero, .one⟩, ?_⟩⟩⟩
    all_goals decide +kernel
  obtain ⟨manager, made, live⟩ := started
  have sound := (Call.literal 2).leaves_sound
    ((Call.literal 1).leaves_sound (create_sound made) (noEdges 1 _)) (noEdges 2 _)
  have admissible : AdmissibleRun (.literal 1 :: .literal 2 :: _) manager :=
    ⟨noEdges 1 _, noEdges 2 _, admissibleRun_again sound live trivial⟩
  obtain ⟨forgetful, _, forgets, _, same⟩ := created_history_eq made admissible
  exact ⟨manager, forgetful, _, made, rfl, forgets, same⟩

end Manager

end DecisionDiagram
