import DecisionDiagram.Manager.Model
import DecisionDiagram.Proofs.Manager.Run

/-!
# Collections are exact

After any run, a collection frees what cannot be reached from the given edges, the pinned ones or the
terminal, and nothing else. It keeps every surviving slot as it is, every chain in its order and
every value of a surviving edge, and a second collection with the same edges finds nothing to do.
-/

set_option autoImplicit false

namespace DecisionDiagram

namespace Caches

theorem clear_clear (caches : Caches) : caches.clear.clear = caches.clear := rfl

end Caches

namespace Manager

variable {before after manager : Manager} {edges : List Edge} {edge : Edge}

theorem survivors_live (sound : before.Sound) (live : ∀ edge ∈ edges, before.store.Live edge)
    {index : Nat} (survives : index ∈ before.survivors edges) :
    ∃ node, before.store.contents index = some node := by
  refine sound.canonical.below_live (fun edge member => ?_) survives
  rcases List.mem_append.mp member with given | pinned
  · exact live edge given
  · exact sound.pinned edge pinned

namespace Collected

theorem mem_liveSlots_iff (collected : Collected before edges after) (sound : before.Sound)
    (live : ∀ edge ∈ edges, before.store.Live edge) (index : Nat) :
    index ∈ after.store.liveSlots ↔ index ∈ before.survivors edges := by
  rw [Store.mem_liveSlots]
  constructor
  · rintro ⟨node, held⟩
    by_contra dead
    rw [collected.dropped index dead] at held
    cases held
  · intro survives
    rw [collected.kept index survives]
    exact survivors_live sound live survives

/-- What is left is marked entirely by a second collection. -/
theorem again (collected : Collected before edges after) (sound : before.Sound)
    (live : ∀ edge ∈ edges, before.store.Live edge) : collect edges after = .ok () after := by
  have liveAfter : ∀ edge ∈ edges, after.store.Live edge := fun edge member =>
    collected.live (Store.mem_below_of_mem (List.mem_append_left _ member)) (live edge member)
  obtain ⟨marked, isMarked, sweepOnly⟩ := collect_eq_sweep collected.sound liveAfter
  have unchanged : Store.sweep marked after.store = .ok () after.store := by
    refine Store.sweep_of_marked collected.sound.canonical.threaded fun index node _ held => ?_
    rw [isMarked, collected.survivors_eq sound]
    exact (collected.mem_liveSlots_iff sound live index).mp (Store.mem_liveSlots.mpr ⟨node, held⟩)
  have cleared : after.caches.clear = after.caches := by
    rw [collected.caches, Caches.clear_clear]
  rw [sweepOnly, cleared]
  exact onStore_ok unchanged

end Collected

end Manager

end DecisionDiagram
