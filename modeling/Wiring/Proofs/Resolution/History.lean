import Wiring.Proofs.Resolution.Step

/-!
What was noted of resolution, in the order it happened.

Every event is justified by those before it: an instance is handed out for a place that keeps its
instance only if it was stored there, the strategy of such a place is run only if nothing was, and a place
is never found reserved. A place that is found vacant has its strategy run at once.
-/

set_option autoImplicit false

namespace Wiring

/-- The instance that was stored for a place last. Events stand newest first. -/
def stored? (i : InjectorId) (p : Place) : List Event → Option Instance
  | [] => none
  | .stored j q a :: rest => if j = i ∧ q = p then some a else stored? i p rest
  | _ :: rest => stored? i p rest

namespace Event

/-- What makes it right that an event came after the earlier ones. -/
def Justified (registry : InjectorId → Registry) (earlier : List Event) : Event → Prop
  | requested .. => True
  | entered .. => True
  | produced i p s => ∃ spot, (registry i).spot? p = some spot ∧ spot.source? = some s ∧
      (spot.scope.isCached = true → stored? i p earlier = none)
  | assembled i k => ∃ spot, (registry i).spot? (.binding k) = some spot ∧
      (spot.scope.isCached = true → stored? i (.binding k) earlier = none)
  | acquired i p found => (registry i).Singleton p ∧
      ((∃ a, found = .ready a ∧ stored? i p earlier = some a) ∨
        found = .vacant ∧ stored? i p earlier = none)
  | stored i p _ => (registry i).Singleton p ∧ stored? i p earlier = none
  | yielded i p a => ∃ spot, (registry i).spot? p = some spot ∧
      (spot.scope.isCached = true → stored? i p earlier = some a)

end Event

def AllJustified (registry : InjectorId → Registry) (events : List Event) : Prop :=
  ∀ later e earlier, events = later ++ e :: earlier → e.Justified registry earlier

/-- A strategy is run as soon as the place that it fills is found vacant. -/
def AllPursued (registry : InjectorId → Registry) (events : List Event) : Prop :=
  ∀ later i p earlier spot s, events = later ++ .acquired i p .vacant :: earlier →
    (registry i).spot? p = some spot → spot.source? = some s →
    ∃ rest, later = rest ++ [.produced i p s]

variable {registry : InjectorId → Registry} {events : List Event} {e : Event} {i : InjectorId}
  {p : Place}

theorem allJustified_nil : AllJustified registry [] := by
  intro later e earlier h
  simp at h

theorem AllJustified.cons (h : AllJustified registry events) (he : e.Justified registry events) :
    AllJustified registry (e :: events) := by
  intro later e' earlier hsplit
  rcases List.cons_eq_append_iff.mp hsplit with ⟨rfl, heq⟩ | ⟨rest, rfl, heq⟩
  · cases heq
    exact he
  · exact h rest e' earlier heq

theorem allPursued_nil : AllPursued registry [] := by
  intro later i p earlier spot s h
  simp at h

theorem AllPursued.cons (h : AllPursued registry events)
    (he : ∀ i p spot s, e = .acquired i p .vacant → (registry i).spot? p = some spot →
      spot.source? ≠ some s) : AllPursued registry (e :: events) := by
  intro later j q earlier spot s hsplit hspot hs
  rcases List.cons_eq_append_iff.mp hsplit with ⟨rfl, heq⟩ | ⟨rest, rfl, heq⟩
  · obtain ⟨hacquired, rfl⟩ := List.cons.inj heq
    exact absurd hs (he j q spot s hacquired.symm hspot)
  · obtain ⟨front, rfl⟩ := h rest j q earlier spot s heq hspot hs
    exact ⟨e :: front, rfl⟩

theorem AllPursued.begun (h : AllPursued registry events) {spot : Spot}
    (hspot : (registry i).spot? p = some spot) {s : Source} (hs : spot.source? = some s) :
    AllPursued registry (.produced i p s :: .acquired i p .vacant :: events) := by
  intro later j q earlier spot' s' hsplit hspot' hs'
  rcases List.cons_eq_append_iff.mp hsplit with ⟨_, heq⟩ | ⟨rest, rfl, hrest⟩
  · cases heq
  · rcases List.cons_eq_append_iff.mp hrest with ⟨rfl, heq⟩ | ⟨older, rfl, holder⟩
    · cases heq
      cases hspot.symm.trans hspot'
      cases hs.symm.trans hs'
      exact ⟨[], rfl⟩
    · obtain ⟨front, rfl⟩ := h older j q earlier spot' s' holder hspot' hs'
      exact ⟨.produced i p s :: .acquired i p .vacant :: front, rfl⟩

theorem Event.Justified.mono {registry' : InjectorId → Registry}
    (hr : ∀ i p spot, (registry i).spot? p = some spot → (registry' i).spot? p = some spot)
    (h : e.Justified registry events) : e.Justified registry' events := by
  have singleton : ∀ {i p}, (registry i).Singleton p → (registry' i).Singleton p :=
    fun ⟨spot, hspot, hc⟩ => ⟨spot, hr _ _ _ hspot, hc⟩
  cases e with
  | requested => trivial
  | entered => trivial
  | produced i p s =>
    obtain ⟨spot, hspot, h⟩ := h
    exact ⟨spot, hr _ _ _ hspot, h⟩
  | assembled i k =>
    obtain ⟨spot, hspot, h⟩ := h
    exact ⟨spot, hr _ _ _ hspot, h⟩
  | acquired i p found => exact ⟨singleton h.1, h.2⟩
  | stored i p a => exact ⟨singleton h.1, h.2⟩
  | yielded i p a =>
    obtain ⟨spot, hspot, h⟩ := h
    exact ⟨spot, hr _ _ _ hspot, h⟩

theorem AllJustified.mono {registry' : InjectorId → Registry}
    (hr : ∀ i p spot, (registry i).spot? p = some spot → (registry' i).spot? p = some spot)
    (h : AllJustified registry events) : AllJustified registry' events :=
  fun later e earlier hsplit => (h later e earlier hsplit).mono hr

theorem AllPursued.mono {registry' : InjectorId → Registry}
    (hr : ∀ i p spot, (registry i).spot? p = some spot → (registry' i).spot? p = some spot)
    (hj : AllJustified registry events) (h : AllPursued registry events) :
    AllPursued registry' events := by
  intro later i p earlier spot s hsplit hspot hs
  obtain ⟨old, hold, _⟩ := (hj later _ earlier hsplit).1
  cases (hr i p old hold).symm.trans hspot
  exact h later i p earlier spot s hsplit hold hs

theorem AllJustified.stored_stays {later : List Event} {a : Instance} {earlier : List Event}
    (h : AllJustified registry (later ++ .stored i p a :: earlier)) :
    stored? i p (later ++ .stored i p a :: earlier) = some a := by
  induction later with
  | nil => simp [stored?]
  | cons e rest ih =>
    have hrest := ih fun l e' es hsplit => h (e :: l) e' es (by rw [List.cons_append, hsplit]; rfl)
    have he : e.Justified registry (rest ++ .stored i p a :: earlier) := h [] e _ rfl
    cases e with
    | stored j q b =>
      by_cases hjq : j = i ∧ q = p
      · obtain ⟨rfl, rfl⟩ := hjq
        exact absurd (hrest.symm.trans he.2) (by simp)
      · simpa [stored?, hjq] using hrest
    | _ => exact hrest

theorem stored?_of_mem {a : Instance} (h : stored? i p events = some a) :
    .stored i p a ∈ events := by
  induction events with
  | nil => contradiction
  | cons e rest ih =>
    cases e with
    | stored j q b =>
      simp only [stored?] at h
      split at h
      · rename_i hjq
        obtain ⟨rfl, rfl⟩ := hjq
        cases h
        exact List.mem_cons_self
      · exact List.mem_cons_of_mem _ (ih h)
    | _ => exact List.mem_cons_of_mem _ (ih h)

namespace World

structure Recorded (w : World) : Prop where
  reserved : ∀ i p, w.slot i p = some .pending → (w.registry i).Singleton p
  kept : ∀ i p a, w.slot i p = some (.ready a) ↔ stored? i p w.events = some a
  justified : AllJustified w.registry w.events
  pursued : AllPursued w.registry w.events

variable {w v : World}

theorem Recorded.stored_none (h : w.Recorded) (hp : ∀ a, w.slot i p ≠ some (.ready a)) :
    stored? i p w.events = none := by
  cases hs : stored? i p w.events with
  | none => rfl
  | some a => exact absurd ((h.kept i p a).mpr hs) (hp a)

theorem Recorded.singleton {x : Slot} (h : w.Recorded) (hp : w.slot i p = some x) :
    (w.registry i).Singleton p := by
  cases x with
  | pending => exact h.reserved i p hp
  | ready a =>
    obtain ⟨later, earlier, hsplit⟩ :=
      List.append_of_mem (stored?_of_mem ((h.kept i p a).mp hp))
    exact (h.justified later _ earlier hsplit).1

theorem Observes.justified (h : w.Recorded) (he : w.Observes e) :
    e.Justified w.registry w.events := by
  cases e with
  | requested => trivial
  | entered => trivial
  | produced j q s =>
    obtain ⟨spot, hspot, hs, hc⟩ := he
    exact ⟨spot, hspot, hs, by simp [hc]⟩
  | assembled j k =>
    obtain ⟨spot, hspot, hpending⟩ := he
    refine ⟨spot, hspot, fun hc => h.stored_none fun a ha => ?_⟩
    rw [hpending hc] at ha
    cases ha
  | acquired j q found =>
    obtain ⟨hs, a, rfl, ha⟩ := he
    exact ⟨hs, .inl ⟨a, rfl, (h.kept j q a).mp ha⟩⟩
  | stored => exact he.elim
  | yielded j q a =>
    obtain ⟨spot, hspot, hready⟩ := he
    exact ⟨spot, hspot, fun hc => (h.kept j q a).mp (hready hc)⟩

theorem stored?_of_observes (he : w.Observes e) (i : InjectorId) (p : Place)
    (events : List Event) : stored? i p (e :: events) = stored? i p events := by
  cases e with
  | stored => exact he.elim
  | _ => rfl

theorem Recorded.observe (h : w.Recorded) (he : w.Observes e) : (w.record e).Recorded := by
  refine ⟨h.reserved, fun i p a => ?_, h.justified.cons (he.justified h), h.pursued.cons ?_⟩
  · rw [slot_record, show (w.record e).events = e :: w.events from rfl, stored?_of_observes he]
    exact h.kept i p a
  · rintro i p spot s rfl _
    obtain ⟨_, a, ha, _⟩ := he
    contradiction

theorem Recorded.reserve {spot : Spot} (h : w.Recorded) (hspot : (w.registry i).spot? p = some spot)
    (hc : spot.scope.isCached = true) (hvacant : w.slot i p = none) :
    (w.reserved i p spot.source?).Recorded := by
  have hreg : (w.reserved i p spot.source?).registry = w.registry :=
    funext (registry_reserved w i p spot.source?)
  have hslots := slot_reserved (lt_of_spot hspot) p spot.source?
  have hreserved : ∀ j q, (w.reserved i p spot.source?).slot j q = some .pending →
      (w.registry j).Singleton q := by
    intro j q hq
    rw [hslots] at hq
    split at hq
    · rename_i heq
      obtain ⟨rfl, rfl⟩ := heq
      exact ⟨spot, hspot, hc⟩
    · exact h.reserved j q hq
  have hkept : ∀ j q a, (w.reserved i p spot.source?).slot j q = some (.ready a) ↔
      stored? j q w.events = some a := by
    intro j q a
    rw [hslots, ← h.kept]
    split
    · rename_i heq
      obtain ⟨rfl, rfl⟩ := heq
      simp [hvacant]
    · rfl
  have hnone : stored? i p w.events = none := h.stored_none fun a ha => by
    rw [hvacant] at ha
    contradiction
  have hacquired : (Event.acquired i p .vacant).Justified w.registry w.events :=
    ⟨⟨spot, hspot, hc⟩, .inr ⟨rfl, hnone⟩⟩
  cases hsource : spot.source? with
  | none =>
    rw [hsource] at hreserved hkept hreg
    refine ⟨by rw [hreg]; exact hreserved, hkept, ?_, ?_⟩ <;> rw [hreg]
    · exact h.justified.cons hacquired
    · refine h.pursued.cons fun j q spot' s heq hspot' hs' => ?_
      cases heq
      cases hspot.symm.trans hspot'
      rw [hsource] at hs'
      contradiction
  | some s =>
    rw [hsource] at hreserved hkept hreg
    refine ⟨by rw [hreg]; exact hreserved, hkept, ?_, ?_⟩ <;> rw [hreg]
    · exact (h.justified.cons hacquired).cons ⟨spot, hspot, hsource, fun _ => hnone⟩
    · exact h.pursued.begun hspot hsource

theorem Recorded.stored_pending (h : w.Recorded) (hpending : w.slot i p = some .pending) :
    stored? i p w.events = none := by
  refine h.stored_none fun a ha => ?_
  rw [hpending] at ha
  cases ha

theorem Recorded.fulfill {a : Instance} (h : w.Recorded) (hpending : w.slot i p = some .pending) :
    ((w.withCache i fun c => (c.fulfill p a).release p).record (.stored i p a)).Recorded := by
  have hreg : ((w.withCache i fun c => (c.fulfill p a).release p).record
      (.stored i p a)).registry = w.registry :=
    funext (registry_withCache w i fun c => (c.fulfill p a).release p)
  have hslots := slot_fulfill (lt_of_slot hpending) p a
  refine ⟨fun j q hq => ?_, fun j q b => ?_, ?_, ?_⟩
  · rw [slot_record, hslots] at hq
    rw [hreg]
    split at hq
    · cases hq
    · exact h.reserved j q hq
  · rw [slot_record, hslots]
    simp only [World.record, stored?]
    split
    · simp
    · exact h.kept j q b
  · rw [hreg]
    exact h.justified.cons ⟨h.reserved i p hpending, h.stored_pending hpending⟩
  · rw [hreg]
    exact h.pursued.cons fun j q spot s heq => by contradiction

theorem Recorded.release (h : w.Recorded) (hpending : w.slot i p = some .pending) :
    (w.withCache i fun c => c.release p).Recorded := by
  have hreg : (w.withCache i fun c => c.release p).registry = w.registry :=
    funext (registry_withCache w i fun c => c.release p)
  have hslots := slot_release hpending
  refine ⟨fun j q hq => ?_, fun j q b => ?_, by rw [hreg]; exact h.justified,
    by rw [hreg]; exact h.pursued⟩
  · rw [hslots] at hq
    rw [hreg]
    split at hq
    · cases hq
    · exact h.reserved j q hq
  · rw [hslots]
    split
    · rename_i heq
      obtain ⟨rfl, rfl⟩ := heq
      change none = some _ ↔ stored? i p w.events = _
      simp [h.stored_pending hpending]
    · exact h.kept j q b

theorem Step.recorded (hs : Step w v) (h : w.Recorded) : v.Recorded := by
  cases hs with
  | plain hi hf he ho =>
    have hslot : ∀ i p, v.slot i p = w.slot i p := by
      intro i p
      simp only [slot, cache, injector, hi]
    have hreg : v.registry = w.registry := funext (registry_congr (by rw [hi]))
    exact ⟨fun i p => by rw [hslot, hreg]; exact h.reserved i p,
      fun i p a => by rw [hslot, he]; exact h.kept i p a, by rw [hreg, he]; exact h.justified,
      by rw [hreg, he]; exact h.pursued⟩
  | observe he => exact h.observe he
  | push _ _ _ _ => exact ⟨h.reserved, h.kept, h.justified, h.pursued⟩
  | pop _ _ => exact ⟨h.reserved, h.kept, h.justified, h.pursued⟩
  | reserve hspot hc _ _ hvacant _ => exact h.reserve hspot hc hvacant
  | fulfill hpending _ _ => exact h.fulfill hpending
  | release hpending _ => exact h.release hpending

theorem Path.recorded (hp : Path w v) (h : w.Recorded) : v.Recorded := by
  induction hp with
  | refl => exact h
  | tail _ hs ih => exact hs.recorded ih

end World

end Wiring
