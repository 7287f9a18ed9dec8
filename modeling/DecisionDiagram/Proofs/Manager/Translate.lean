import DecisionDiagram.Manager.Translate
import DecisionDiagram.Proofs.Manager.Repeat
import DecisionDiagram.Proofs.Manager.Twins

/-!
# Translations keep a manager sound

A translation may collect between two layers, so it does not only build nodes. Its own edges are the
roots of every collection and stay live.
-/

set_option autoImplicit false

namespace DecisionDiagram.Manager

variable {store after : Store Node}

/-- Every gate that has an edge has a live one. -/
def LiveTranslation (store : Store Node) (translation : Translation) : Prop :=
  ∀ (number : Nat) (edge : Edge), translation[number]? = some edge → store.Live edge

theorem liveTranslation_empty (store : Store Node) : LiveTranslation store ∅ :=
  forall_entry_empty

namespace LiveTranslation

variable {translation : Translation}

theorem grow (kept : LiveTranslation store translation) (grown : store.Grown after) :
    LiveTranslation after translation :=
  fun number edge found => grown.live (kept number edge found)

theorem insert {edge : Edge} (kept : LiveTranslation store translation)
    (live : store.Live edge) (number : Nat) :
    LiveTranslation store (translation.insert number edge) :=
  @forall_entry_insert _ _ _ _ _ _ (fun _ edge => store.Live edge) kept number edge live

theorem resolve {wire : Wire} {edge : Edge}
    (kept : LiveTranslation store translation) (canonical : store.Canonical)
    (answer : resolve translation wire = .ok edge) : store.Live edge := by
  unfold Manager.resolve at answer
  split at answer
  · rename_i found known
    have live := kept _ found known
    rw [canonical.negateIf_eq_ok live] at answer
    cases answer
    exact Store.live_flip.mpr live
  · cases answer

/-- The edges of a translation, as the roots of a collection. -/
theorem roots (kept : LiveTranslation store translation) :
    ∀ edge ∈ translation.toList.map Prod.snd, store.Live edge := by
  intro edge member
  obtain ⟨⟨number, edge⟩, found, rfl⟩ := List.mem_map.mp member
  exact kept number edge (Std.HashMap.mem_toList_iff_getElem?_eq_some.mp found)

end LiveTranslation

theorem mem_roots_of_found {translation : Translation} {number : Nat} {edge : Edge}
    (found : translation[number]? = some edge) : edge ∈ translation.toList.map Prod.snd :=
  List.mem_map.mpr ⟨(number, edge), Std.HashMap.mem_toList_iff_getElem?_eq_some.mpr found, rfl⟩

/-! ## Without collections -/

theorem translateInputs_repeatable {numbers : List Nat} {var : Nat} {translation : Translation}
    (canonical : store.Canonical) (kept : LiveTranslation store translation) :
    Repeatable .any (translateInputs numbers var translation) store
      fun translation after => LiveTranslation after translation := by
  induction numbers generalizing store var translation with
  | nil => exact Repeatable.pure canonical kept
  | cons number rest ih =>
    rw [translateInputs]
    apply (literal_repeatable canonical var (Task.covered_any _)).bind
    intro edge after grown done
    exact ih grown.canonical ((kept.grow grown).insert done.live number)

theorem translateLayer_repeatable (circuit : Circuit) {numbers : List Nat}
    {translation : Translation} (canonical : store.Canonical)
    (kept : LiveTranslation store translation) :
    Repeatable .any (translateLayer circuit numbers translation) store
      fun translation after => LiveTranslation after translation := by
  induction numbers generalizing store translation with
  | nil => exact Repeatable.pure canonical kept
  | cons number rest ih =>
    rw [translateLayer]
    refine Repeatable.read_bind canonical (fun _ _ => trivial) fun gate _ => ?_
    cases gate with
    | input => exact Repeatable.throw canonical trivial
    | and left right =>
      refine Repeatable.read_bind canonical (fun _ _ => trivial) fun leftEdge leftAnswer => ?_
      refine Repeatable.read_bind canonical (fun _ _ => trivial) fun rightEdge rightAnswer => ?_
      refine (apply_repeatable .and canonical (kept.resolve canonical leftAnswer).represents
        (kept.resolve canonical rightAnswer).represents (Scope.mem_any _)).bind ?_
      intro edge after grown done
      exact ih grown.canonical ((kept.grow grown).insert done.live number)

/-- Without a threshold nothing is collected, and a translation only builds nodes. -/
theorem translateLayers_repeatable (circuit : Circuit) {layers : List (List Nat)}
    {translation : Translation} (canonical : store.Canonical)
    (kept : LiveTranslation store translation) :
    Repeatable .any (translateLayers circuit none layers translation) store
      fun translation after => LiveTranslation after translation := by
  induction layers generalizing store translation with
  | nil => exact Repeatable.pure canonical kept
  | cons layer rest ih =>
    rw [translateLayers]
    apply (translateLayer_repeatable circuit canonical kept).bind
    intro translated middle grown middleKept
    exact ih grown.canonical middleKept

theorem translate_repeatable (circuit : Circuit) (canonical : store.Canonical) :
    Repeatable .any (translate circuit none) store
      fun translation after => LiveTranslation after translation := by
  apply (translateInputs_repeatable canonical (liveTranslation_empty _)).bind
  intro translation after grown kept
  exact translateLayers_repeatable circuit grown.canonical kept

/-! ## With collections -/

variable {first second : Manager}

/-- Whether a collection is due between two layers is seen from the store alone. -/
theorem collectAbove_cases (threshold : Option Nat) (translation : Translation)
    (store : Store Node) :
    (∀ manager : Manager, manager.store = store →
      collectAbove threshold translation manager = .ok () manager) ∨
    ∀ manager : Manager, manager.store = store →
      collectAbove threshold translation manager =
        collect (translation.toList.map Prod.snd) manager := by
  unfold collectAbove
  cases threshold with
  | none => exact Or.inl fun _ _ => rfl
  | some threshold =>
    by_cases above : threshold < store.liveCount
    · refine Or.inr fun manager same => ?_
      simp only [bind_ok (get_ok manager), same, if_pos above]
    · refine Or.inl fun manager same => ?_
      simp only [bind_ok (get_ok manager), same, if_neg above]
      rfl

/-- A collection between two layers keeps what the edges of the translation stand for. -/
theorem collectAbove_twins (threshold : Option Nat) {translation : Translation}
    (twins : first.Twins second) (kept : LiveTranslation first.store translation) :
    ∃ later other, collectAbove threshold translation first = .ok () later ∧
      collectAbove threshold translation second = .ok () other ∧ later.Twins other ∧
        (second.Forgetful → other.Forgetful) ∧
          ∀ (number : Nat) (edge : Edge) (function : BoolFunction),
            translation[number]? = some edge → first.store.Represents edge function →
              later.store.Represents edge function := by
  rcases collectAbove_cases threshold translation first.store with skips | collects
  · exact ⟨first, second, skips first rfl, skips second twins.store, twins, id,
      fun _ _ _ _ represents => represents⟩
  · obtain ⟨later, other, run, otherRun, laterTwins, forgets, collected⟩ :=
      collect_twins twins kept.roots
    refine ⟨later, other, (collects first rfl).trans run,
      (collects second twins.store).trans otherRun, laterTwins, forgets, ?_⟩
    intro number edge function found represents
    refine collected.represents twins.sound ?_ represents
    exact Store.mem_below_of_mem (List.mem_append_left _ (mem_roots_of_found found))

theorem translateLayers_alike (circuit : Circuit) (threshold : Option Nat)
    {layers : List (List Nat)} {translation : Translation} (twins : first.Twins second)
    (kept : LiveTranslation first.store translation) :
    Alike (translateLayers circuit threshold layers translation) first second
      fun translation store => LiveTranslation store translation := by
  induction layers generalizing first second translation with
  | nil => exact Alike.returns twins kept
  | cons layer rest ih =>
    rw [translateLayers]
    apply ((translateLayer_repeatable circuit twins.sound.canonical kept).confined.alike twins).bind
    intro translated middle other twins middleKept
    obtain ⟨after, last, run, otherRun, twins, forgets, represents⟩ :=
      collectAbove_twins threshold twins middleKept
    have collects : Alike (collectAbove threshold translated) middle other fun _ store =>
        LiveTranslation store translated :=
      .of_ok run otherRun twins forgets fun number edge found =>
        (represents number edge _ found (middleKept number edge found).represents).live
    exact collects.bind fun _ _ _ twins kept => ih twins kept

theorem translate_alike (circuit : Circuit) (threshold : Option Nat) (twins : first.Twins second) :
    Alike (translate circuit threshold) first second
      fun translation store => LiveTranslation store translation := by
  refine ((translateInputs_repeatable twins.sound.canonical
    (liveTranslation_empty _)).confined.alike twins).bind ?_
  intro translation after other twins kept
  exact translateLayers_alike circuit threshold twins kept

end DecisionDiagram.Manager
