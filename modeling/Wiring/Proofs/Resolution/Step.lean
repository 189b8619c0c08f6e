import Mathlib.Data.List.Nodup
import Wiring.Resolution
import Wiring.Proofs.Registry.Graph

/-!
The moves of resolution.

Whatever a resolution does to the world is a path of a few kinds of moves, each of which has a guard: a
key is put under construction only if it is bound and not under construction already, a place is reserved
only for the key on top of the stack, and so on. An invariant of all moves holds along every path.
-/

set_option autoImplicit false

namespace Wiring

open Relation

namespace World

def slot (w : World) (i : InjectorId) (p : Place) : Option Slot := (w.cache i).get? p

variable {w v : World} {i j : InjectorId} {p q : Place} {a : Instance}

theorem cache_eq_getD (w : World) (i : InjectorId) : w.cache i = w.caches.getD i [] := by
  simp only [cache, caches, injector, List.getD_eq_getElem?_getD, List.getElem?_map]
  cases w.injectors[i]? <;> rfl

theorem cache_find (w : World) (i : InjectorId) (p : Place) :
    (w.cache i).find p = match w.slot i p with
      | some (.ready a) => .ready a
      | some .pending => .busy
      | none => .vacant := rfl

theorem cache_ready? (w : World) (i : InjectorId) (p : Place) :
    (w.cache i).ready? p = match w.slot i p with
      | some (.ready a) => some a
      | _ => none := rfl

theorem ready?_eq_some : (w.cache i).ready? p = some a ↔ w.slot i p = some (.ready a) := by
  rw [cache_ready?]
  cases w.slot i p with
  | none => simp
  | some s => cases s <;> simp

theorem injector_withCache (w : World) (i : InjectorId) (f : Cache → Cache) (j : InjectorId) :
    (w.withCache i f).injector j =
      if i = j ∧ i < w.injectors.length then { w.injector j with cache := f (w.cache j) }
      else w.injector j := by
  simp only [injector, withCache, cache, List.getD_eq_getElem?_getD, List.getElem?_modify]
  by_cases hij : i = j
  · subst hij
    by_cases hi : i < w.injectors.length
    · simp [hi]
    · simp [hi]
  · simp [hij]

@[simp] theorem registry_withCache (w : World) (i : InjectorId) (f : Cache → Cache)
    (j : InjectorId) : (w.withCache i f).registry j = w.registry j := by
  simp only [registry, injector_withCache]
  split <;> rfl

@[simp] theorem registry_record (w : World) (e : Event) (j : InjectorId) :
    (w.record e).registry j = w.registry j := rfl

@[simp] theorem slot_record (w : World) (e : Event) (j : InjectorId) (q : Place) :
    (w.record e).slot j q = w.slot j q := rfl

theorem slot_withCache (w : World) (i : InjectorId) (f : Cache → Cache) (j : InjectorId)
    (q : Place) : (w.withCache i f).slot j q =
      if i = j ∧ i < w.injectors.length then (f (w.cache j)).get? q else w.slot j q := by
  simp only [slot, cache, injector_withCache]
  split <;> rfl

theorem injector_of_le (h : w.injectors.length ≤ i) : w.injector i = {} := by
  simp [injector, List.getD_eq_getElem?_getD, h]

theorem lt_of_bound {k : Ident} {e : Entry} (h : (w.registry i).at? k = some e) :
    i < w.injectors.length := by
  by_contra hi
  rw [registry, injector_of_le (Nat.le_of_not_lt hi), Registry.at?_empty] at h
  contradiction

theorem lt_of_spot {s : Spot} (h : (w.registry i).spot? p = some s) : i < w.injectors.length :=
  (Registry.bound_of_spot h).elim fun _ => lt_of_bound

theorem lt_of_slot {s : Slot} (h : w.slot i p = some s) : i < w.injectors.length := by
  by_contra hi
  rw [slot, cache, injector_of_le (Nat.le_of_not_lt hi)] at h
  contradiction

theorem slot_reserve (hi : i < w.injectors.length) (p : Place) (j : InjectorId) (q : Place) :
    (w.withCache i fun c => c.reserve p).slot j q =
      if i = j ∧ p = q then some .pending else w.slot j q := by
  rw [slot_withCache]
  by_cases hij : i = j
  · subst hij
    simp [hi, Cache.get?_reserve, slot]
  · simp [hij]

theorem slot_fulfill (hi : i < w.injectors.length) (p : Place) (a : Instance) (j : InjectorId)
    (q : Place) : (w.withCache i fun c => (c.fulfill p a).release p).slot j q =
      if i = j ∧ p = q then some (.ready a) else w.slot j q := by
  rw [slot_withCache]
  by_cases hij : i = j
  · subst hij
    simp [hi, Cache.get?_release, Cache.get?_fulfill, slot]
  · simp [hij]

theorem slot_release (hp : w.slot i p = some .pending) (j : InjectorId) (q : Place) :
    (w.withCache i fun c => c.release p).slot j q =
      if i = j ∧ p = q then none else w.slot j q := by
  rw [slot_withCache]
  by_cases hij : i = j
  · subst hij
    have hpending : (w.cache i).get? p = some .pending := hp
    simp [lt_of_slot hp, Cache.get?_release, hpending, slot]
  · simp [hij]

abbrev requested (w : World) (i : InjectorId) (key : Key) : World :=
  w.record (.requested i key w.frames w.caches)

def under (w : World) (i : InjectorId) (key : Key) : World :=
  { w with frames := ⟨i, key⟩ :: w.frames }

def begun (w : World) (i : InjectorId) (p : Place) : Option Source → World
  | some s => w.record (.produced i p s)
  | none => w

def reserved (w : World) (i : InjectorId) (p : Place) (source? : Option Source) : World :=
  ((w.record (.acquired i p .vacant)).withCache i fun c => c.reserve p).begun i p source?

/-- The own place of a key is reserved, if it is one that keeps its instance. -/
def Holds (w : World) (i : InjectorId) (k : Ident) : Prop :=
  (w.registry i).Singleton (.binding k) → w.slot i (.binding k) = some .pending

def Alone (w : World) (i : InjectorId) (p : Place) : Prop :=
  ∀ k n, p = .binding k → w.slot i (.element k n) ≠ some .pending

/-- What may be noted of a world that stays as it is. -/
def Observes (w : World) : Event → Prop
  | .requested _ _ frames caches => frames = w.frames ∧ caches = w.caches
  | .entered .. => True
  | .produced i p s => ∃ spot, (w.registry i).spot? p = some spot ∧ spot.source? = some s ∧
      spot.scope.isCached = false
  | .assembled i k => ∃ spot, (w.registry i).spot? (.binding k) = some spot ∧
      (spot.scope.isCached = true → w.slot i (.binding k) = some .pending)
  | .acquired i p found => (w.registry i).Singleton p ∧
      ∃ a, found = .ready a ∧ w.slot i p = some (.ready a)
  | .stored .. => False
  | .yielded i p a => ∃ spot, (w.registry i).spot? p = some spot ∧
      (spot.scope.isCached = true → w.slot i p = some (.ready a))

inductive Step : World → World → Prop where
  /-- Routines count their calls and write notes, and instances are numbered. -/
  | plain {w v : World} : v.injectors = w.injectors → v.frames = w.frames → v.events = w.events →
      v.offers = w.offers → Step w v
  | observe {w : World} {e : Event} : w.Observes e → Step w (w.record e)
  | push {w : World} {i : InjectorId} {key : Key} {e : Entry} :
      (w.registry i).at? key.ident = some e → key.isInjector = false →
      (∀ f ∈ w.frames, f.injector = i → f.key.ident ≠ key.ident) →
      (w.underConstruction i).length < (w.registry i).config.maxDepth →
      Step w (w.under i key)
  | pop {w : World} {f : Frame} {rest : List Frame} : w.frames = f :: rest →
      (∀ p, p.key = f.key.ident → w.slot f.injector p ≠ some .pending) →
      Step w { w with frames := rest }
  | reserve {w : World} {i : InjectorId} {p : Place} {spot : Spot} {key : Key}
      {rest : List Frame} : (w.registry i).spot? p = some spot → spot.scope.isCached = true →
      w.frames = ⟨i, key⟩ :: rest → key.ident = p.key → w.slot i p = none →
      (p = .binding p.key ∨ w.Holds i p.key) →
      Step w (w.reserved i p spot.source?)
  | fulfill {w : World} {i : InjectorId} {p : Place} {a : Instance} :
      w.slot i p = some .pending → w.Alone i p → (w.registry i).Sustains p a →
      Step w ((w.withCache i fun c => (c.fulfill p a).release p).record (.stored i p a))
  | release {w : World} {i : InjectorId} {p : Place} : w.slot i p = some .pending →
      w.Alone i p → Step w (w.withCache i fun c => c.release p)

abbrev Path : World → World → Prop := ReflTransGen Step

@[simp] theorem registry_reserved (w : World) (i : InjectorId) (p : Place) (s : Option Source)
    (j : InjectorId) : (w.reserved i p s).registry j = w.registry j := by
  cases s <;> simp [reserved, begun]

@[simp] theorem frames_reserved (w : World) (i : InjectorId) (p : Place) (s : Option Source) :
    (w.reserved i p s).frames = w.frames := by
  cases s <;> rfl

theorem slot_reserved (hi : i < w.injectors.length) (p : Place) (s : Option Source)
    (j : InjectorId) (q : Place) : (w.reserved i p s).slot j q =
      if i = j ∧ p = q then some .pending else w.slot j q := by
  have hrecord := slot_reserve (w := w.record (.acquired i p .vacant)) hi p j q
  cases s with
  | none => exact hrecord
  | some s => exact hrecord

theorem Step.injectors (h : Step w v) :
    v.injectors.map (·.registry) = w.injectors.map (·.registry) := by
  have modify : ∀ (w : World) (i : InjectorId) (f : Cache → Cache),
      (w.withCache i f).injectors.map (·.registry) = w.injectors.map (·.registry) := by
    intro w i f
    refine List.ext_getElem? fun j => ?_
    simp only [withCache, List.getElem?_map, List.getElem?_modify]
    cases w.injectors[j]? with
    | none => rfl
    | some x =>
      by_cases hij : i = j <;> simp [hij]
  cases h with
  | plain h => rw [h]
  | observe => rfl
  | push => rfl
  | pop => rfl
  | @reserve i p spot _ _ _ _ _ _ _ _ =>
    cases spot.source? <;>
      exact modify (w.record (.acquired i p .vacant)) i fun c => c.reserve p
  | @fulfill i p a _ _ _ => exact modify w i fun c => (c.fulfill p a).release p
  | @release i p _ _ => exact modify w i fun c => c.release p

theorem registry_congr (h : v.injectors.map (·.registry) = w.injectors.map (·.registry))
    (i : InjectorId) : v.registry i = w.registry i := by
  have hget := congrArg (fun l : List Registry => l[i]?) h
  simp only [List.getElem?_map] at hget
  simp only [registry, injector, List.getD_eq_getElem?_getD]
  cases hv : v.injectors[i]? <;> cases hw : w.injectors[i]? <;> simp_all

theorem Step.registry (h : Step w v) (i : InjectorId) : v.registry i = w.registry i :=
  registry_congr h.injectors i

theorem Path.injectors (h : Path w v) :
    v.injectors.map (·.registry) = w.injectors.map (·.registry) := by
  induction h with
  | refl => rfl
  | tail _ hs ih => exact hs.injectors.trans ih

theorem Path.registry (h : Path w v) (i : InjectorId) : v.registry i = w.registry i :=
  registry_congr h.injectors i

theorem Step.ready (h : Step w v) (hp : w.slot i p = some (.ready a)) :
    v.slot i p = some (.ready a) := by
  cases h with
  | plain h =>
    rw [← hp]
    simp only [slot, cache, injector, h]
  | observe => exact hp
  | push => exact hp
  | pop => exact hp
  | @reserve j q spot _ _ hs _ _ _ hv _ =>
    rw [slot_reserved (lt_of_spot hs)]
    split
    · rename_i heq
      obtain ⟨rfl, rfl⟩ := heq
      rw [hp] at hv
      contradiction
    · exact hp
  | @fulfill j q b hq _ _ =>
    rw [slot_record, slot_fulfill (lt_of_slot hq)]
    split
    · rename_i heq
      obtain ⟨rfl, rfl⟩ := heq
      rw [hp] at hq
      cases hq
    · exact hp
  | @release j q hq _ =>
    rw [slot_release hq]
    split
    · rename_i heq
      obtain ⟨rfl, rfl⟩ := heq
      rw [hp] at hq
      cases hq
    · exact hp

theorem Path.ready (h : Path w v) (hp : w.slot i p = some (.ready a)) :
    v.slot i p = some (.ready a) := by
  induction h with
  | refl => exact hp
  | tail _ hs ih => exact hs.ready ih

theorem Step.events (h : Step w v) : ∃ new, v.events = new ++ w.events := by
  cases h with
  | plain _ _ h => exact ⟨[], h⟩
  | @observe e _ => exact ⟨[e], rfl⟩
  | push => exact ⟨[], rfl⟩
  | pop => exact ⟨[], rfl⟩
  | @reserve i p spot _ _ _ _ _ _ _ _ =>
    cases spot.source? with
    | none => exact ⟨[.acquired i p .vacant], rfl⟩
    | some s => exact ⟨[.produced i p s, .acquired i p .vacant], rfl⟩
  | @fulfill i p a _ _ _ => exact ⟨[.stored i p a], rfl⟩
  | release => exact ⟨[], rfl⟩

theorem Path.events (h : Path w v) : ∃ new, v.events = new ++ w.events := by
  induction h with
  | refl => exact ⟨[], rfl⟩
  | tail _ hs ih =>
    obtain ⟨old, ho⟩ := ih
    obtain ⟨new, hn⟩ := hs.events
    exact ⟨new ++ old, by rw [hn, ho, List.append_assoc]⟩

/-- What holds of the world at every moment of a run. -/
structure Inv (w : World) : Prop where
  typed : ∀ i, (w.registry i).WellTyped
  offers : ∀ t name d, w.offers.get? (t, name) = some d → d.type = t
  distinct : (w.frames.map fun f => (f.injector, f.key.ident)).Nodup
  bound : ∀ f ∈ w.frames, ∃ e, (w.registry f.injector).at? f.key.ident = some e
  pending : ∀ i p, w.slot i p = some .pending →
    ∃ f ∈ w.frames, f.injector = i ∧ f.key.ident = p.key
  ready : ∀ i p a, w.slot i p = some (.ready a) → (w.registry i).Sustains p a

theorem underConstruction_of_idle (hidle : w.frames = []) : w.underConstruction i = [] := by
  simp [underConstruction, hidle]

theorem Inv.not_pending (hw : w.Inv) (hidle : w.frames = []) : w.slot i p ≠ some .pending := by
  intro h
  obtain ⟨f, hf, _⟩ := hw.pending i p h
  rw [hidle] at hf
  contradiction

theorem underConstruction_under (w : World) (i : InjectorId) (key : Key) :
    (w.under i key).underConstruction i = w.underConstruction i ++ [key] := by
  simp [underConstruction, under]

theorem requester_eq_getLast? (w : World) (i : InjectorId) :
    w.requester i = (w.underConstruction i).getLast? := by
  rw [requester, underConstruction, List.getLast?_reverse, List.head?_map, List.head?_filter]

theorem Inv.distinct_stack (hw : w.Inv) (i : InjectorId) :
    ((w.underConstruction i).map Key.ident).Nodup := by
  have hpairs := hw.distinct.sublist
    (List.Sublist.map (fun f : Frame => (f.injector, f.key.ident))
      (List.filter_sublist (p := fun f => decide (f.injector = i))))
  have hsame : ((w.frames.filter fun f => f.injector = i).map fun f => (f.injector, f.key.ident)) =
      ((w.frames.filter fun f => f.injector = i).map fun f => f.key.ident).map fun k => (i, k) := by
    rw [List.map_map]
    refine List.map_congr_left fun f hf => ?_
    rw [Function.comp_apply, of_decide_eq_true (List.mem_filter.mp hf).2]
  rw [hsame] at hpairs
  rw [underConstruction, List.map_reverse, List.nodup_reverse, List.map_map]
  exact hpairs.of_map

theorem Inv.vacant {k : Ident} (hw : w.Inv)
    (hfree : ∀ f ∈ w.frames, f.injector = i → f.key.ident ≠ k) (hp : p.key = k) :
    w.slot i p ≠ some .pending := by
  intro hpending
  obtain ⟨f, hf, hi, hkey⟩ := hw.pending i p hpending
  exact hfree f hf hi (hkey.trans hp)

theorem Inv.push {key : Key} {e : Entry} (hw : w.Inv)
    (hbound : (w.registry i).at? key.ident = some e)
    (hfree : ∀ f ∈ w.frames, f.injector = i → f.key.ident ≠ key.ident) : (w.under i key).Inv := by
  refine ⟨hw.typed, hw.offers, ?_, ?_, ?_, hw.ready⟩
  · refine List.nodup_cons.mpr ⟨fun hm => ?_, hw.distinct⟩
    obtain ⟨f, hf, heq⟩ := List.mem_map.mp hm
    simp only [Prod.mk.injEq] at heq
    exact hfree f hf heq.1 heq.2
  · rintro f hf
    rcases List.mem_cons.mp hf with rfl | hf
    · exact ⟨e, hbound⟩
    · exact hw.bound f hf
  · intro j p hp
    obtain ⟨f, hf, hinj, hkey⟩ := hw.pending j p hp
    exact ⟨f, List.mem_cons_of_mem _ hf, hinj, hkey⟩

theorem Inv.pop {f : Frame} {rest : List Frame} (hw : w.Inv) (hframes : w.frames = f :: rest)
    (hsettled : ∀ p, p.key = f.key.ident → w.slot f.injector p ≠ some .pending) :
    Inv { w with frames := rest } := by
  refine ⟨hw.typed, hw.offers, ?_, fun g hg => ?_, fun i p hp => ?_, hw.ready⟩
  · have := hw.distinct
    rw [hframes] at this
    exact (List.nodup_cons.mp this).2
  · exact hw.bound g (by rw [hframes]; exact List.mem_cons_of_mem _ hg)
  · obtain ⟨g, hg, hinj, hkey⟩ := hw.pending i p hp
    rw [hframes] at hg
    rcases List.mem_cons.mp hg with rfl | hg
    · subst hinj
      exact absurd hp (hsettled p hkey.symm)
    · exact ⟨g, hg, hinj, hkey⟩

theorem Inv.reserve {spot : Spot} {key : Key} {rest : List Frame} (hw : w.Inv)
    (hspot : (w.registry i).spot? p = some spot) (hframes : w.frames = ⟨i, key⟩ :: rest)
    (hkey : key.ident = p.key) : (w.reserved i p spot.source?).Inv := by
  have hslot := slot_reserved (lt_of_spot hspot) p spot.source?
  refine ⟨fun j => by rw [registry_reserved]; exact hw.typed j, ?_, ?_, ?_, ?_, ?_⟩
  · cases spot.source? <;> exact hw.offers
  · rw [frames_reserved]
    exact hw.distinct
  · intro f hf
    rw [frames_reserved] at hf
    rw [registry_reserved]
    exact hw.bound f hf
  · intro j q hq
    rw [frames_reserved]
    rw [hslot] at hq
    split at hq
    · rename_i heq
      obtain ⟨rfl, rfl⟩ := heq
      exact ⟨_, by rw [hframes]; exact List.mem_cons_self, rfl, hkey⟩
    · exact hw.pending j q hq
  · intro j q a hq
    rw [registry_reserved]
    rw [hslot] at hq
    split at hq
    · cases hq
    · exact hw.ready j q a hq

theorem Inv.fulfill (hw : w.Inv) (hpending : w.slot i p = some .pending)
    (hsustains : (w.registry i).Sustains p a) :
    ((w.withCache i fun c => (c.fulfill p a).release p).record (.stored i p a)).Inv := by
  have hslot := slot_fulfill (lt_of_slot hpending) p a
  refine ⟨fun j => ?_, hw.offers, hw.distinct, fun f hf => ?_, fun j q hq => ?_, fun j q b hq => ?_⟩
  · rw [registry_record, registry_withCache]
    exact hw.typed j
  · rw [registry_record, registry_withCache]
    exact hw.bound f hf
  · rw [slot_record, hslot] at hq
    split at hq
    · cases hq
    · exact hw.pending j q hq
  · rw [registry_record, registry_withCache]
    rw [slot_record, hslot] at hq
    split at hq
    · rename_i heq
      obtain ⟨rfl, rfl⟩ := heq
      cases hq
      exact hsustains
    · exact hw.ready j q b hq

theorem Inv.release (hw : w.Inv) (hpending : w.slot i p = some .pending) :
    (w.withCache i fun c => c.release p).Inv := by
  have hslot := slot_release hpending
  refine ⟨fun j => ?_, hw.offers, hw.distinct, fun f hf => ?_, fun j q hq => ?_, fun j q b hq => ?_⟩
  · rw [registry_withCache]
    exact hw.typed j
  · rw [registry_withCache]
    exact hw.bound f hf
  · rw [hslot] at hq
    split at hq
    · cases hq
    · exact hw.pending j q hq
  · rw [registry_withCache]
    rw [hslot] at hq
    split at hq
    · cases hq
    · exact hw.ready j q b hq

theorem Step.inv (h : Step w v) (hw : w.Inv) : v.Inv := by
  have hreg := h.registry
  cases h with
  | plain hi hf he ho =>
    have hslot : ∀ i p, v.slot i p = w.slot i p := by
      intro i p
      simp only [slot, cache, injector, hi]
    exact ⟨fun i => by rw [hreg]; exact hw.typed i, by rw [ho]; exact hw.offers,
      by rw [hf]; exact hw.distinct, fun f => by rw [hf, hreg]; exact hw.bound f,
      fun i p => by rw [hf, hslot]; exact hw.pending i p,
      fun i p a => by rw [hreg, hslot]; exact hw.ready i p a⟩
  | observe _ => exact ⟨hw.typed, hw.offers, hw.distinct, hw.bound, hw.pending, hw.ready⟩
  | push hbound _ hfree _ => exact hw.push hbound hfree
  | pop hframes hsettled => exact hw.pop hframes hsettled
  | reserve hspot _ hframes hkey _ _ => exact hw.reserve hspot hframes hkey
  | fulfill hpending _ hsustains => exact hw.fulfill hpending hsustains
  | release hpending _ => exact hw.release hpending

theorem Path.inv (h : Path w v) (hw : w.Inv) : v.Inv := by
  induction h with
  | refl => exact hw
  | tail _ hs ih => exact hs.inv ih

end World

end Wiring
