import Wiring.Proofs.Resolution.Moment
import Wiring.Proofs.Resolution.Once

set_option autoImplicit false

namespace Wiring

open Relation

namespace World

variable {w v t u : World} {i : InjectorId} {p : Place} {a : Instance}

/-- The one moment comes after the other, in the same run or in a later one. -/
def Hereafter (v t : World) : Prop :=
  Path v t ∨ ∃ u s, Path v u ∧ u.Reachable ∧ Later u s ∧ Path s t

theorem Moment.path (hm : w.Moment) (h : Path w v) : v.Moment := by
  obtain ⟨u, hu, hp⟩ := hm
  exact ⟨u, hu, hp.trans h⟩

theorem Hereafter.moment (hv : v.Moment) (h : v.Hereafter t) : t.Moment := by
  rcases h with hp | ⟨u, s, _, hu, hus, hst⟩
  · exact hv.path hp
  · exact ⟨s, ReflTransGen.trans hu hus, hst⟩

theorem Next.keeps (h : Next w v) (hw : w.Quiet) :
    (∀ i p a, w.slot i p = some (.ready a) → v.slot i p = some (.ready a)) ∧
      ∃ new, v.events = new ++ w.events := by
  have settled : ∀ {v : World}, w.Settles v →
      (∀ i p a, w.slot i p = some (.ready a) → v.slot i p = some (.ready a)) ∧
        ∃ new, v.events = new ++ w.events :=
    fun hv => ⟨fun i p a ha => hv.path.ready ha, hv.path.events⟩
  cases h with
  | inject name hf hj => exact ⟨fun i p a ha => by rwa [slot_addInjector hj], [], rfl⟩
  | offer b =>
    unfold World.offer
    split <;> exact ⟨fun i p a ha => ha, [], rfl⟩
  | fetch i req => exact settled (settles_fetch hw.inv i req)
  | pull l => exact settled (settles_pull hw.inv l)
  | resolvePoints i ps => exact settled (settles_resolvePoints hw.inv i ps)
  | arrange => exact ⟨fun i p a ha => ha, [], rfl⟩

theorem Later.keeps (h : Later w v) (hw : w.Quiet) :
    (∀ i p a, w.slot i p = some (.ready a) → v.slot i p = some (.ready a)) ∧
      ∃ new, v.events = new ++ w.events := by
  induction h with
  | refl => exact ⟨fun i p a ha => ha, [], rfl⟩
  | tail hwb hs ih =>
    obtain ⟨hready, old, hold⟩ := ih
    obtain ⟨hready', new, hnew⟩ := hs.keeps (Later.quiet hwb hw)
    exact ⟨fun i p a ha => hready' i p a (hready i p a ha), new ++ old, by
      rw [hnew, hold, List.append_assoc]⟩

theorem Hereafter.ready (h : v.Hereafter t) (ha : v.slot i p = some (.ready a)) :
    t.slot i p = some (.ready a) := by
  rcases h with hp | ⟨u, s, hvu, hu, hus, hst⟩
  · exact hp.ready ha
  · exact hst.ready ((hus.keeps hu.quiet).1 i p a (hvu.ready ha))

theorem Hereafter.events (h : v.Hereafter t) : ∃ new, t.events = new ++ v.events := by
  rcases h with hp | ⟨u, s, hvu, hu, hus, hst⟩
  · exact hp.events
  · obtain ⟨first, hfirst⟩ := hvu.events
    obtain ⟨second, hsecond⟩ := (hus.keeps hu.quiet).2
    obtain ⟨third, hthird⟩ := hst.events
    exact ⟨third ++ second ++ first, by rw [hthird, hsecond, hfirst]; simp⟩

/-- What was handed out for a place that keeps its instance is kept there. -/
theorem Recorded.ready_of_yielded (h : w.Recorded) (hp : (w.registry i).Singleton p)
    (ha : .yielded i p a ∈ w.events) : w.slot i p = some (.ready a) := by
  obtain ⟨spot, hspot, hc⟩ := hp
  obtain ⟨later, earlier, hsplit⟩ := List.append_of_mem ha
  obtain ⟨spot', hspot', hstored⟩ := h.justified later _ earlier hsplit
  cases hspot.symm.trans hspot'
  obtain ⟨back, front, hback⟩ := List.append_of_mem (stored?_of_mem (hstored hc))
  have hall : w.events = (later ++ .yielded i p a :: back) ++ .stored i p a :: front := by
    rw [hsplit, hback]
    simp
  have hjust := h.justified
  rw [hall] at hjust
  rw [h.kept, hall]
  exact AllJustified.stored_stays hjust

/-- From here on the place keeps the instance, nothing is done to make it again, and no other was or will be
handed out for the place. -/
def Keeps (v : World) (i : InjectorId) (p : Place) (a : Instance) : Prop :=
  ∀ t, v.Hereafter t → t.slot i p = some (.ready a) ∧
    (∃ new, t.events = new ++ v.events ∧ ∀ e ∈ new, ¬ e.Makes i p) ∧
    ∀ b, .yielded i p b ∈ t.events → b = a

theorem Keeps.slot (h : v.Keeps i p a) : v.slot i p = some (.ready a) := (h v (.inl .refl)).1

theorem Moment.keeps (hv : v.Moment) (ha : v.slot i p = some (.ready a)) : v.Keeps i p a := by
  intro t h
  have ht := (h.moment hv).recorded
  have hready := h.ready ha
  obtain ⟨new, hnew⟩ := h.events
  refine ⟨hready, ⟨new, hnew, ?_⟩, fun b hb => ?_⟩
  · obtain ⟨old, earlier, hold⟩ :=
      List.append_of_mem (stored?_of_mem ((hv.recorded.kept i p a).mp ha))
    have hjust := ht.justified
    rw [hnew, hold, ← List.append_assoc] at hjust
    exact fun e he => (hjust.after_stored e (List.mem_append_left _ he)).1
  · cases (ht.ready_of_yielded (ht.singleton hready) hb).symm.trans hready
    rfl

end World

end Wiring
