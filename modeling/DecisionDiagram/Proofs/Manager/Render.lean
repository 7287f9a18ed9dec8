import DecisionDiagram.Proofs.Circuit.Values
import DecisionDiagram.Proofs.Manager.Translate

/-!
# Translations stand for the functions of the gates

Layer by layer, every gate gets an edge for its function. The edges of the gates so far are the
roots of a collection between two layers, so that they still stand for the same functions after it.
The only fault is a full store: a gate's operands lie in lower layers, which are complete.
-/

set_option autoImplicit false

namespace DecisionDiagram

namespace Manager

/-- The edge stands for the function of a gate. -/
structure Renders (circuit : Circuit) (store : Store Node) (number : Nat) (edge : Edge) : Prop where
  placed : ∃ placedGate, circuit.placed number = .ok placedGate
  represents : store.Represents edge (circuit.function number)

/-- Every edge of the translation stands for the function of its gate. -/
def Faithful (circuit : Circuit) (store : Store Node) (translation : Translation) : Prop :=
  ∀ (number : Nat) (edge : Edge), translation[number]? = some edge → Renders circuit store number edge

/-- Every gate below a level has an edge. -/
def CompleteBelow (circuit : Circuit) (level : Nat) (translation : Translation) : Prop :=
  ∀ number placedGate, circuit.placed number = .ok placedGate → placedGate.level < level →
    number ∈ translation

variable {before : Manager} {circuit : Circuit} {store : Store Node} {translation : Translation}
  {number : Nat} {edge : Edge} {wire : Wire}

theorem faithful_empty (circuit : Circuit) (store : Store Node) : Faithful circuit store ∅ :=
  forall_entry_empty

namespace Faithful

theorem grow {after : Store Node} (faithful : Faithful circuit store translation)
    (grown : store.Grown after) : Faithful circuit after translation := by
  intro number edge found
  have renders := faithful number edge found
  exact ⟨renders.placed, grown.represents renders.represents⟩

theorem insert (faithful : Faithful circuit store translation)
    (renders : Renders circuit store number edge) :
    Faithful circuit store (translation.insert number edge) :=
  forall_entry_insert faithful renders

theorem live (faithful : Faithful circuit store translation) : LiveTranslation store translation :=
  fun number edge found => (faithful number edge found).represents.live

/-- The edge of a gate, complemented where a wire of the gate is. -/
theorem wire_spec (faithful : Faithful circuit store translation) (canonical : store.Canonical)
    (known : wire.gate ∈ translation) :
    ∃ edge, translation[wire.gate]? = some edge ∧
      edge.negateIf wire.inverted = .ok (edge.flip wire.inverted) ∧
        store.Represents (edge.flip wire.inverted) (circuit.wireFunction wire) := by
  obtain ⟨edge, found⟩ := Option.isSome_iff_exists.mp (Std.HashMap.isSome_getElem?_iff_mem.mpr known)
  have represents := (faithful _ edge found).represents
  exact ⟨edge, found, canonical.negateIf_eq_ok represents.live _, represents.flip _⟩

theorem resolve (faithful : Faithful circuit store translation) (canonical : store.Canonical)
    (known : wire.gate ∈ translation) :
    ∃ edge, resolve translation wire = .ok edge ∧
      store.Represents edge (circuit.wireFunction wire) := by
  obtain ⟨edge, found, answer, represents⟩ := faithful.wire_spec canonical known
  refine ⟨edge.flip wire.inverted, ?_, represents⟩
  rw [Manager.resolve, found]
  exact answer

end Faithful

/-- An action that faults only for want of space, and leaves a sound manager when it returns. -/
def Completes {Result : Type} (action : Action Result) (before : Manager)
    (post : Result → Manager → Prop) : Prop :=
  Leads action before (fun result after => after.Sound ∧ post result after) OutOfSpace

section

variable {Result Next : Type} {post : Result → Manager → Prop} {atEnd : Next → Manager → Prop}

theorem Confined.completes {action : Action Result} {post : Result → Store Node → Prop}
    (sound : before.Sound) (confined : Confined steady .faultless action before.store post) :
    Completes action before fun result after => post result after.store :=
  Leads.mono (confined.constructs sound fun _ impossible => impossible)
    (fun _ _ holds => ⟨holds.1.sound, holds.2⟩) fun _ _ holds => holds.2.resolve_right id

theorem Completes.bind {action : Action Result} {next : Result → Action Next}
    (first : Completes action before post)
    (second : ∀ result after, after.Sound → post result after →
      Completes (next result) after atEnd) : Completes (action >>= next) before atEnd :=
  Leads.bind first fun result after holds => second result after holds.1 holds.2

end

/-- Adding one gate and then the others adds them all. -/
theorem mem_of_inserted {first : Nat} {rest : List Nat} {result : Translation}
    (added : ∀ number, number ∈ translation.insert first edge ∨ number ∈ rest → number ∈ result)
    (known : number ∈ translation ∨ number ∈ first :: rest) : number ∈ result := by
  apply added
  rcases known with old | member
  · exact Or.inl (Std.HashMap.mem_insert.mpr (Or.inr old))
  · rcases List.mem_cons.mp member with rfl | later
    · exact Or.inl Std.HashMap.mem_insert_self
    · exact Or.inr later

theorem translateInputs_faithful {numbers : List Nat} {var : Nat} (canonical : store.Canonical)
    (faithful : Faithful circuit store translation) (positive : var ≠ 0)
    (inputs : ∀ (place number : Nat), numbers[place]? = some number →
      (∃ placedGate, circuit.placed number = .ok placedGate) ∧
        circuit.function number = fun valuation => valuation (place + var)) :
    Confined steady .faultless (translateInputs numbers var translation) store
      fun result after => Faithful circuit after result ∧
        ∀ number, number ∈ translation ∨ number ∈ numbers → number ∈ result := by
  induction numbers generalizing store var translation with
  | nil =>
    exact Confined.pure canonical ⟨faithful, fun _ known => known.resolve_right List.not_mem_nil⟩
  | cons first rest ih =>
    rw [translateInputs]
    have proper : Literal var := by
      unfold Literal leastCode
      omega
    refine (literal_confined canonical var (fun _ => Scope.mem_faultless _)
      fun improper => absurd proper improper).bind ?_
    rintro edge after grown ⟨_, literal⟩
    obtain ⟨placed, function⟩ := inputs 0 first rfl
    have renders : Renders circuit after first edge := by
      refine ⟨placed, literal.congr fun valuation => ?_⟩
      have plain : ¬(var : Int) < 0 := by omega
      simp [function, literalFunction, plain]
    have others : ∀ (place number : Nat), rest[place]? = some number →
        (∃ placedGate, circuit.placed number = .ok placedGate) ∧
          circuit.function number = fun valuation => valuation (place + (var + 1)) := by
      intro place number found
      have next := inputs (place + 1) number found
      rw [Nat.add_assoc, Nat.add_comm 1] at next
      exact next
    apply (ih grown.canonical ((faithful.grow grown).insert renders) (Nat.succ_ne_zero var)
      others).weaken
    intro result last _ holds
    exact ⟨holds.1, fun number => mem_of_inserted holds.2⟩

/-- The gate of a number, if it is a conjunction whose operands have edges. -/
def Ready (circuit : Circuit) (translation : Translation) (number : Nat) : Prop :=
  ∃ left right level, circuit.placed number = .ok ⟨.and left right, level⟩ ∧
    left.gate ∈ translation ∧ right.gate ∈ translation

theorem translateLayer_faithful {numbers : List Nat} (wellFormed : circuit.WellFormed)
    (canonical : store.Canonical) (faithful : Faithful circuit store translation)
    (ready : ∀ number ∈ numbers, Ready circuit translation number) :
    Confined steady .faultless (translateLayer circuit numbers translation) store
      fun result after => Faithful circuit after result ∧
        ∀ number, number ∈ translation ∨ number ∈ numbers → number ∈ result := by
  induction numbers generalizing store translation with
  | nil =>
    exact Confined.pure canonical ⟨faithful, fun _ known => known.resolve_right List.not_mem_nil⟩
  | cons first rest ih =>
    obtain ⟨left, right, level, known, leftReady, rightReady⟩ := ready first List.mem_cons_self
    have gate : circuit.gate first = .ok (.and left right) := by
      rw [Circuit.gate, known]
      rfl
    obtain ⟨leftEdge, leftAnswer, onLeft⟩ := faithful.resolve canonical leftReady
    obtain ⟨rightEdge, rightAnswer, onRight⟩ := faithful.resolve canonical rightReady
    rw [translateLayer]
    apply Confined.read_bind canonical gate
    apply Confined.read_bind canonical leftAnswer
    apply Confined.read_bind canonical rightAnswer
    apply (apply_confined .and canonical onLeft onRight (Scope.mem_faultless _)).bind
    intro edge after grown conjunction
    have renders : Renders circuit after first edge := by
      refine ⟨⟨_, known⟩, ?_⟩
      rw [Circuit.function_and wellFormed known]
      exact conjunction
    have others : ∀ number ∈ rest, Ready circuit (translation.insert first edge) number := by
      intro number member
      obtain ⟨left, right, level, known, leftReady, rightReady⟩ :=
        ready number (List.mem_cons_of_mem first member)
      exact ⟨left, right, level, known, Std.HashMap.mem_insert.mpr (Or.inr leftReady),
        Std.HashMap.mem_insert.mpr (Or.inr rightReady)⟩
    apply (ih grown.canonical ((faithful.grow grown).insert renders) others).weaken
    intro result last _ holds
    exact ⟨holds.1, fun number => mem_of_inserted holds.2⟩

/-- The gates of a layer above the lowest are ready when the layers below are complete. -/
theorem ready_of_completeBelow {level : Nat} (wellFormed : circuit.WellFormed) (above : 1 ≤ level)
    (complete : CompleteBelow circuit level translation) (member : number ∈ circuit.layer level) :
    Ready circuit translation number := by
  obtain ⟨⟨gate, same⟩, known, isLevel⟩ := Circuit.mem_layer_iff.mp member
  simp only at isLevel
  subst isLevel
  cases gate with
  | input =>
    have bottom := wellFormed.input number _ known
    omega
  | and left right =>
    obtain ⟨onLeft, onRight, leftPlaced, rightPlaced, _, _, higher⟩ :=
      wellFormed.and number left right _ known
    exact ⟨left, right, _, known, complete _ _ leftPlaced (by omega),
      complete _ _ rightPlaced (by omega)⟩

/-- Where everything in a layer is added, the next layer is the first that may be incomplete. -/
theorem completeBelow_succ {level : Nat} {result : Translation}
    (complete : CompleteBelow circuit level translation)
    (added : ∀ number, number ∈ translation ∨ number ∈ circuit.layer level → number ∈ result) :
    CompleteBelow circuit (level + 1) result := by
  intro number placedGate known below
  apply added
  by_cases same : placedGate.level = level
  · exact Or.inr (Circuit.mem_layer_iff.mpr ⟨placedGate, known, same⟩)
  · exact Or.inl (complete number placedGate known (by omega))

theorem translateLayers_spec (threshold : Option Nat) {start count : Nat}
    (wellFormed : circuit.WellFormed) (sound : before.Sound) (above : 1 ≤ start)
    (faithful : Faithful circuit before.store translation)
    (complete : CompleteBelow circuit start translation) :
    Completes (translateLayers circuit threshold ((List.range' start count).map circuit.layer)
        translation) before
      fun result after => Faithful circuit after.store result ∧
        CompleteBelow circuit (start + count) result := by
  induction count generalizing start before translation with
  | zero => exact Leads.of_ok rfl ⟨sound, faithful, complete⟩
  | succ count ih =>
    rw [List.range'_succ, List.map_cons, translateLayers]
    have ready : ∀ number ∈ circuit.layer start, Ready circuit translation number := fun _ member =>
      ready_of_completeBelow wellFormed above complete member
    refine ((translateLayer_faithful wellFormed sound.canonical faithful ready).completes sound).bind ?_
    intro translated middle middleSound holds
    obtain ⟨middleFaithful, added⟩ := holds
    have collects : Completes (collectAbove threshold translated) middle
        fun _ after => Faithful circuit after.store translated := by
      obtain ⟨after, _, run, _, twins, _, kept⟩ :=
        collectAbove_twins threshold (.refl middleSound) middleFaithful.live
      refine Leads.of_ok run ⟨twins.sound, fun number edge found => ?_⟩
      have renders := middleFaithful number edge found
      exact ⟨renders.placed, kept number edge _ found renders.represents⟩
    apply collects.bind
    intro _ after afterSound afterFaithful
    have rest := ih afterSound (Nat.le_succ_of_le above) afterFaithful
      (completeBelow_succ complete added)
    rw [Nat.succ_add_eq_add_succ] at rest
    exact rest

/-- **A translation is right**, whatever is collected on the way, and faults only when the store is
full. -/
theorem translate_spec (threshold : Option Nat) (wellFormed : circuit.WellFormed)
    (sound : before.Sound) :
    Completes (translate circuit threshold) before fun translation after =>
      Faithful circuit after.store translation ∧
        ∀ number placedGate, circuit.placed number = .ok placedGate → number ∈ translation := by
  have inputs : ∀ (place number : Nat), circuit.inputs[place]? = some number →
      (∃ placedGate, circuit.placed number = .ok placedGate) ∧
        circuit.function number = fun valuation => valuation (place + 1) := by
    intro place number found
    refine ⟨?_, Circuit.function_input found⟩
    obtain ⟨placedGate, known, _⟩ := Circuit.mem_select_iff.mp (List.mem_of_getElem? found)
    exact ⟨placedGate, known⟩
  unfold translate
  refine ((translateInputs_faithful sound.canonical (faithful_empty _ _) Nat.one_ne_zero
    inputs).completes sound).bind ?_
  intro translation middle middleSound holds
  obtain ⟨faithful, added⟩ := holds
  have complete : CompleteBelow circuit 1 translation := by
    intro number placedGate known bottom
    refine added number (Or.inr (Circuit.mem_select_iff.mpr ⟨placedGate, known, ?_⟩))
    obtain ⟨gate, level⟩ := placedGate
    cases gate with
    | input => rfl
    | and left right =>
      obtain ⟨_, _, _, _, _, _, higher⟩ := wellFormed.and number left right level known
      simp only at bottom
      omega
  rw [Circuit.layers_drop_one]
  refine (translateLayers_spec threshold wellFormed middleSound (Nat.le_refl 1) faithful complete).mono
    ?_ fun _ _ full => full
  intro result after holds
  obtain ⟨afterSound, afterFaithful, all⟩ := holds
  refine ⟨afterSound, afterFaithful, fun number placedGate known => all number placedGate known ?_⟩
  have := Circuit.level_lt_depth known
  omega

/-- Every output has an edge for its function. -/
theorem outputs_spec (wellFormed : circuit.WellFormed) (canonical : store.Canonical)
    (faithful : Faithful circuit store translation)
    (complete : ∀ number placedGate, circuit.placed number = .ok placedGate →
      number ∈ translation) :
    ∃ edges, translation.outputs circuit = .ok edges ∧ edges.length = circuit.outputs.size ∧
      ∀ (place : Nat) (wire : Wire), circuit.outputs[place]? = some wire →
        ∃ edge, edges[place]? = some edge ∧ store.Represents edge (circuit.wireFunction wire) := by
  have ready : ∀ wire ∈ circuit.outputs.toList, wire.gate ∈ translation := by
    intro wire member
    obtain ⟨placedGate, known⟩ := wellFormed.output wire (Array.mem_toList_iff.mp member)
    exact complete wire.gate placedGate known
  let edgeOf : Wire → Edge := fun wire => (translation[wire.gate]?.getD .one).flip wire.inverted
  refine ⟨circuit.outputs.toList.map edgeOf, mapM_eq_ok _ ?_, by simp, ?_⟩
  · intro wire member
    obtain ⟨edge, found, answer, _⟩ := faithful.wire_spec canonical (ready wire member)
    simp only [edgeOf, found, Option.getD_some]
    exact answer
  · intro place wire isOutput
    have member : wire ∈ circuit.outputs.toList :=
      Array.mem_toList_iff.mpr (Array.mem_of_getElem? isOutput)
    obtain ⟨edge, found, _, represents⟩ := faithful.wire_spec canonical (ready wire member)
    refine ⟨edgeOf wire, by simp [isOutput], ?_⟩
    simp only [edgeOf, found, Option.getD_some]
    exact represents

end Manager

end DecisionDiagram
