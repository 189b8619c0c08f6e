import Wiring.Proofs.Resolution.Reachable

/-!
The moments of a run, and why no thread waits for itself.

A moment is a world that a run passes through: any number of resolutions may be in progress. At every
moment a reserved place belongs to a key under construction by the same injector, and a request of such a
key is refused before the place is asked for. So no place is ever found reserved.
-/

set_option autoImplicit false

namespace Wiring

open Relation

namespace World

variable {w v m : World} {i : InjectorId} {key : Key} {p : Place}

/-- A world in the middle of a run: moves lead there from a world between two resolutions. -/
def Moment (m : World) : Prop := ∃ w : World, w.Reachable ∧ Path w m

theorem Reachable.moment (hw : w.Reachable) : w.Moment := ⟨w, hw, .refl⟩

theorem Moment.step (hm : m.Moment) (h : Step m v) : v.Moment := by
  obtain ⟨w, hw, hp⟩ := hm
  exact ⟨w, hw, hp.tail h⟩

theorem Moment.inv (hm : m.Moment) : m.Inv := by
  obtain ⟨w, hw, hp⟩ := hm
  exact hp.inv hw.quiet.inv

theorem Moment.recorded (hm : m.Moment) : m.Recorded := by
  obtain ⟨w, hw, hp⟩ := hm
  exact hp.recorded hw.quiet.recorded

/-- Only keys that are made are under construction, and while an element of a key is reserved, so is the
key's own place, if it is one that keeps its instance. -/
structure Nested (w : World) : Prop where
  made : ∀ f ∈ w.frames, f.key.isInjector = false
  own : ∀ i k n, w.slot i (.element k n) = some .pending → w.Holds i k

theorem Nested.of_idle (hw : w.Inv) (hidle : w.frames = []) : w.Nested := by
  refine ⟨fun f hf => ?_, fun i k n hp => absurd hp (hw.not_pending hidle)⟩
  rw [hidle] at hf
  contradiction

theorem Holds.congr {k : Ident} (h : w.Holds i k) (hr : v.registry i = w.registry i)
    (hs : w.slot i (.binding k) = some .pending → v.slot i (.binding k) = some .pending) :
    v.Holds i k := by
  intro hk
  rw [hr] at hk
  exact hs (h hk)

theorem Nested.reserve {spot : Spot} (hn : w.Nested) (hspot : (w.registry i).spot? p = some spot)
    (hown : p = .binding p.key ∨ w.Holds i p.key) : (w.reserved i p spot.source?).Nested := by
  have hslots := slot_reserved (lt_of_spot hspot) p spot.source?
  have keep : ∀ j k, w.Holds j k → (w.reserved i p spot.source?).Holds j k := by
    intro j k h
    refine h.congr (registry_reserved ..) fun hk => ?_
    rw [hslots]
    split
    · rfl
    · exact hk
  refine ⟨by rw [frames_reserved]; exact hn.made, fun j k n hp => ?_⟩
  rw [hslots] at hp
  split at hp
  · rename_i heq
    obtain ⟨rfl, rfl⟩ := heq
    rcases hown with hown | hown
    · cases hown
    · exact keep _ _ hown
  · exact keep _ _ (hn.own j k n hp)

theorem Nested.fulfill {a : Instance} (hn : w.Nested) (hpending : w.slot i p = some .pending)
    (halone : w.Alone i p) :
    ((w.withCache i fun c => (c.fulfill p a).release p).record (.stored i p a)).Nested := by
  have hslots := slot_fulfill (lt_of_slot hpending) p a
  refine ⟨hn.made, fun j k n hp => ?_⟩
  rw [slot_record, hslots] at hp
  split at hp
  · cases hp
  · refine (hn.own j k n hp).congr ?_ fun hk => ?_
    · rw [registry_record, registry_withCache]
    rw [slot_record, hslots, if_neg]
    · exact hk
    · rintro ⟨rfl, rfl⟩
      exact halone k n rfl hp

theorem Nested.release (hn : w.Nested) (hpending : w.slot i p = some .pending)
    (halone : w.Alone i p) : (w.withCache i fun c => c.release p).Nested := by
  have hslots := slot_release hpending
  refine ⟨hn.made, fun j k n hp => ?_⟩
  rw [hslots] at hp
  split at hp
  · cases hp
  · refine (hn.own j k n hp).congr (registry_withCache ..) fun hk => ?_
    rw [hslots, if_neg]
    · exact hk
    · rintro ⟨rfl, rfl⟩
      exact halone k n rfl hp

theorem Step.nested (h : Step w v) (hn : w.Nested) : v.Nested := by
  have hreg := h.registry
  cases h with
  | plain hi hf _ _ =>
    have hslot : ∀ i p, v.slot i p = w.slot i p := by
      intro i p
      simp only [slot, cache, injector, hi]
    refine ⟨by rw [hf]; exact hn.made, fun i k n hp => ?_⟩
    rw [hslot] at hp
    exact (hn.own i k n hp).congr (hreg i) fun h => by rwa [hslot]
  | observe => exact ⟨hn.made, hn.own⟩
  | push _ hinj _ _ =>
    refine ⟨fun f hf => ?_, hn.own⟩
    rcases List.mem_cons.mp hf with rfl | hf
    · exact hinj
    · exact hn.made f hf
  | pop hframes _ =>
    exact ⟨fun f hf => hn.made f (by rw [hframes]; exact List.mem_cons_of_mem _ hf), hn.own⟩
  | reserve hspot _ _ _ _ hown => exact hn.reserve hspot hown
  | fulfill hpending halone _ => exact hn.fulfill hpending halone
  | release hpending halone => exact hn.release hpending halone

theorem Moment.nested (hm : m.Moment) : m.Nested := by
  obtain ⟨w, hw, hp⟩ := hm
  induction hp with
  | refl => exact .of_idle hw.quiet.inv hw.quiet.idle
  | tail _ hs ih => exact hs.nested ih

theorem Moment.ready_eq_none (hm : m.Moment) (hp : m.slot i p = some .pending)
    (hkey : key.ident = p.key) : (m.cache i).ready? (.binding key.ident) = none := by
  cases p with
  | binding k =>
    obtain rfl : key.ident = k := hkey
    rw [cache_ready?, hp]
  | element k n =>
    obtain rfl : key.ident = k := hkey
    cases hready : (m.cache i).ready? (.binding key.ident) with
    | none => rfl
    | some a =>
      have hslot := ready?_eq_some.mp hready
      rw [hm.nested.own i _ n hp (hm.recorded.singleton hslot)] at hslot
      cases hslot

/-- Every request that was noted was made at a moment, with the stack, the caches and the notes of which
it was noted. -/
def Asked (events : List Event) : Prop :=
  ∀ later i key frames caches earlier, events = later ++ .requested i key frames caches :: earlier →
    ∃ m : World, m.Moment ∧ m.frames = frames ∧ m.caches = caches ∧ m.events = earlier

theorem Asked.cons {events : List Event} {e : Event} (h : Asked events)
    (he : ∀ i key frames caches, e = .requested i key frames caches →
      ∃ m : World, m.Moment ∧ m.frames = frames ∧ m.caches = caches ∧ m.events = events) :
    Asked (e :: events) := by
  intro later i key frames caches earlier hsplit
  rcases List.cons_eq_append_iff.mp hsplit with ⟨rfl, heq⟩ | ⟨rest, rfl, heq⟩
  · cases heq
    exact he i key frames caches rfl
  · exact h rest i key frames caches earlier heq

theorem Step.asked (h : Step w v) (hw : w.Moment) (ha : Asked w.events) : Asked v.events := by
  cases h with
  | plain _ _ he _ => rwa [he]
  | @observe e he =>
    refine ha.cons ?_
    rintro i key frames caches rfl
    exact ⟨w, hw, he.1.symm, he.2.symm, rfl⟩
  | push => exact ha
  | pop => exact ha
  | @reserve i p spot _ _ _ _ _ _ _ _ =>
    have hacquired : Asked (.acquired i p .vacant :: w.events) :=
      ha.cons fun i key frames caches h => by contradiction
    cases spot.source? with
    | none => exact hacquired
    | some s => exact hacquired.cons fun i key frames caches h => by contradiction
  | fulfill => exact ha.cons fun i key frames caches h => by contradiction
  | release => exact ha

theorem Path.asked (h : Path w v) (hw : w.Moment) (ha : Asked w.events) : Asked v.events := by
  have hv : v.Moment ∧ Asked v.events := by
    induction h with
    | refl => exact ⟨hw, ha⟩
    | tail _ hs ih => exact ⟨ih.1.step hs, hs.asked ih.1 ih.2⟩
  exact hv.2

theorem Reachable.asked (hw : w.Reachable) : Asked w.events := by
  induction hw with
  | refl =>
    intro later i key frames caches earlier h
    simp at h
  | @tail w v hreach hs ih =>
    have hq := Reachable.quiet hreach
    have hm := Reachable.moment hreach
    cases hs with
    | inject => exact ih
    | offer b =>
      unfold World.offer
      split <;> exact ih
    | fetch i req => exact (settles_fetch hq.inv i req).path.asked hm ih
    | pull l => exact (settles_pull hq.inv l).path.asked hm ih
    | resolvePoints i ps => exact (settles_resolvePoints hq.inv i ps).path.asked hm ih
    | arrange => exact ih

theorem Moment.asked (hm : m.Moment) : Asked m.events := by
  obtain ⟨w, hw, hp⟩ := hm
  exact hp.asked hw.moment hw.asked

end World

namespace Resolution

open World

variable {self : Resolver} {w : World} {i : InjectorId} {key : Key}

theorem request_circular {e : Entry} (hinj : key.isInjector = false)
    (hf : (w.registry i).find? key = some e)
    (hready : (w.cache i).ready? (.binding key.ident) = none) {f : Frame} (hmem : f ∈ w.frames)
    (hi : f.injector = i) (hkey : f.key.ident = key.ident) :
    ∃ path, request self i key w = .error (.error (.circular path)) (w.requested i key) := by
  have hcycle : (w.underConstruction i).dropWhile (fun k => k.ident ≠ key.ident) ≠ [] :=
    fun h => cycle_eq_nil_iff.mp h f hmem hi hkey
  refine ⟨(w.underConstruction i).dropWhile (fun k => k.ident ≠ key.ident) ++ [key], ?_⟩
  have hrefused : ∀ limit x, underConstruction i key limit x (w.requested i key) =
      .error (.error (.circular _)) (w.requested i key) := fun limit x => if_pos hcycle
  cases hc : e.scope.isCached with
  | true =>
    rw [request_kept hinj hf hc, hready]
    exact yielding_eq_error.mpr (hrefused _ _)
  | false =>
    rw [request_made hinj hf hc]
    exact yielding_eq_error.mpr (hrefused _ _)

end Resolution

namespace World

variable {w : World}

/-- No thread waits for itself. No place was ever found reserved, and every request that was made was made
at a moment of its run. At every moment no resolution ends up waiting, a reserved place belongs to a key
under construction by the same injector, and whoever requests that key again is refused at once. -/
theorem never_waits (hw : w.Reachable) :
    (∀ i p, .acquired i p .busy ∉ w.events) ∧
    Asked w.events ∧
    ∀ m : World, m.Moment →
      (∀ i key j p v, resolve i key m ≠ .error (.blocked j p) v) ∧
      ∀ i p, m.slot i p = some .pending →
        (∃ f ∈ m.frames, f.injector = i ∧ f.key.ident = p.key) ∧
        ∀ self key, key.ident = p.key →
          ∃ path, Resolution.request self i key m =
            .error (.error (.circular path)) (m.requested i key) := by
  refine ⟨fun i p hbusy => ?_, hw.asked, fun m hm => ⟨fun i key j p v h => ?_, fun i p hp => ?_⟩⟩
  · obtain ⟨later, earlier, hsplit⟩ := List.append_of_mem hbusy
    rcases (hw.quiet.recorded.justified later _ earlier hsplit).2 with ⟨a, h, _⟩ | ⟨h, _⟩ <;>
      cases h
  · have hgood := resolve_good hm.inv i key
    rw [h] at hgood
    exact hgood.2
  · obtain ⟨f, hf, hi, hkey⟩ := hm.inv.pending i p hp
    refine ⟨⟨f, hf, hi, hkey⟩, fun self key hk => ?_⟩
    obtain ⟨e, he⟩ := hm.inv.bound f hf
    have hident : f.key.ident = key.ident := hkey.trans hk.symm
    have hinj : key.isInjector = false := by
      have hmade := hm.nested.made f hf
      have ht : f.key.type.id = key.type.id := congrArg Ident.type hident
      simpa [Key.isInjector, ht] using hmade
    subst hi
    rw [hident] at he
    exact Resolution.request_circular hinj he (hm.ready_eq_none hp hk) hf rfl hident

def echoKey : Key := .of (.value .alpha)

/-- Its constructor asks the injector for the very instance that it is making. -/
def echoBinding : Binding where
  strategy := .construct (.value .alpha) [.injector] fun _ =>
    .get 0 (.of echoKey) fun _ => .done ⟨.alpha "echo", []⟩ rfl
  scope := some .singleton

def echoOperations : List Operation := [.register echoKey echoBinding .direct, .finalize]

def echoInjector : Injector where
  registry := (Operation.runAll {} echoOperations).2.finalized.getD {}

def echoed : World :=
  (({} : World).addInjector "main" echoInjector).after (fetch 0 (.of echoKey))

theorem reachable_echoed : echoed.Reachable := by
  have hfrozen : echoInjector.registry.Frozen :=
    ⟨{}, echoOperations, by simp [echoOperations, Operation.Typed], rfl⟩
  exact (ReflTransGen.single (.inject "main" hfrozen rfl)).tail (.fetch 0 _)

theorem echoed_moment : ∃ m : World, m.Moment ∧ m.frames = [⟨0, echoKey⟩] ∧
    m.slot 0 (.binding echoKey.ident) = some .pending := by
  obtain ⟨m, hm, hframes, hcaches, _⟩ := reachable_echoed.asked [.yielded 0 _ _, .stored 0 _ _] 0
    echoKey [⟨0, echoKey⟩] [[(.binding echoKey.ident, .pending)]] _ rfl
  refine ⟨m, hm, hframes, ?_⟩
  rw [slot, cache_eq_getD, hcaches]
  rfl

/-- A constructor that asks for its own instance is refused, while the place of the instance is reserved. -/
theorem never_waits_echo :
    ∃ m : World, m.frames = [⟨0, echoKey⟩] ∧ m.slot 0 (.binding echoKey.ident) = some .pending ∧
      ∃ path, Resolution.request resolve 0 echoKey m =
        .error (.error (.circular path)) (m.requested 0 echoKey) := by
  obtain ⟨m, hm, hframes, hslot⟩ := echoed_moment
  obtain ⟨_, _, hmoment⟩ := never_waits reachable_echoed
  exact ⟨m, hframes, hslot, ((hmoment m hm).2 0 _ hslot).2 resolve echoKey rfl⟩

end World

end Wiring
