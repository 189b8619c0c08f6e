import Wiring.Proofs.Resolution.Step
import Wiring.Proofs.Resolution.Traversal

set_option autoImplicit false

namespace Wiring

def Event.bare : Event → Event
  | .requested i key _ caches => .requested i key [] caches
  | e => e

namespace World

/-- The worlds, of the given registries, agree on what resolution by certain injectors depends on, and on
what it has done. -/
structure Alike (S : InjectorId → Prop) (r : InjectorId → Registry) (w u : World) : Prop where
  registry : ∀ i, w.registry i = r i
  injectors : u.injectors = w.injectors
  directory : u.directory = w.directory
  holdings : u.holdings = w.holdings
  tallies : u.tallies = w.tallies
  made : u.made = w.made
  notes : u.notes = w.notes
  events : u.events.map Event.bare = w.events.map Event.bare
  underway : ∀ i, S i → u.underConstruction i = w.underConstruction i
  shared : ∀ i, S i → ∀ a e, (r i).at? a = some e → ∀ name d, .shared name d ∈ e.strategies →
    u.shared name d = w.shared name d

structure Rests (w v : World) : Prop where
  frames : v.frames = w.frames
  offers : v.offers = w.offers

structure Onward (S : InjectorId → Prop) (r : InjectorId → Registry) (w u v t : World) : Prop where
  alike : Alike S r v t
  left : w.Rests v
  right : u.Rests t

variable {S : InjectorId → Prop} {r : InjectorId → Registry} {w u v t : World} {i : InjectorId}

theorem Rests.refl (w : World) : w.Rests w := ⟨rfl, rfl⟩

theorem Rests.trans {x : World} (h : w.Rests v) (h' : v.Rests x) : w.Rests x :=
  ⟨h'.frames.trans h.frames, h'.offers.trans h.offers⟩

theorem Alike.onward (h : Alike S r w u) : Onward S r w u w u := ⟨h, .refl w, .refl u⟩

theorem Onward.of (h : Onward S r w u v t) {w' u' : World} (hw : w'.Rests w) (hu : u'.Rests u) :
    Onward S r w' u' v t := ⟨h.alike, hw.trans h.left, hu.trans h.right⟩

theorem Alike.registry_eq (h : Alike S r w u) (i : InjectorId) : u.registry i = w.registry i := by
  simp only [World.registry, injector, h.injectors]

theorem Alike.cache_eq (h : Alike S r w u) (i : InjectorId) : u.cache i = w.cache i := by
  simp only [cache, injector, h.injectors]

theorem Alike.requester_eq (h : Alike S r w u) (hi : S i) : u.requester i = w.requester i := by
  rw [requester_eq_getLast?, requester_eq_getLast?, h.underway i hi]

theorem Alike.record (h : Alike S r w u) {e f : Event} (he : f.bare = e.bare) :
    Alike S r (w.record e) (u.record f) := by
  refine ⟨h.registry, h.injectors, h.directory, h.holdings, h.tallies, h.made, h.notes, ?_, h.underway,
    h.shared⟩
  simp only [World.record, List.map_cons, he, h.events]

theorem Alike.withCache (h : Alike S r w u) (i : InjectorId) (f : Cache → Cache) :
    Alike S r (w.withCache i f) (u.withCache i f) := by
  refine ⟨fun j => ?_, ?_, h.directory, h.holdings, h.tallies, h.made, h.notes, h.events, h.underway,
    h.shared⟩
  · rw [registry_withCache, h.registry]
  · simp only [World.withCache, h.injectors]

theorem Alike.withFrames (h : Alike S r w u) {fs gs : List Frame}
    (hs : ∀ i, S i → underConstruction { u with frames := gs } i =
      underConstruction { w with frames := fs } i) :
    Alike S r { w with frames := fs } { u with frames := gs } :=
  ⟨h.registry, h.injectors, h.directory, h.holdings, h.tallies, h.made, h.notes, h.events, hs, h.shared⟩

theorem Alike.under (h : Alike S r w u) (i : InjectorId) (key : Key) :
    Alike S r (w.under i key) (u.under i key) := by
  refine h.withFrames fun j hj => ?_
  have hstack := h.underway j hj
  by_cases hij : i = j
  · subst hij
    exact (underConstruction_under u i key).trans (hstack ▸ (underConstruction_under w i key).symm)
  · simpa [underConstruction, hij] using hstack

end World

namespace Act

open World

variable {α β : Type} {S : InjectorId → Prop} {r : InjectorId → Registry} {Q : α → Prop}
  {R : β → Prop}

def Agree (S : InjectorId → Prop) (r : InjectorId → Registry) (Q : α → Prop) (w u : World) :
    EStateM.Result Stop World α → EStateM.Result Stop World α → Prop
  | .ok a v, .ok b t => b = a ∧ Q a ∧ Onward S r w u v t
  | .error stop v, .error halt t => halt = stop ∧ Onward S r w u v t
  | _, _ => False

/-- The action does the same in worlds that agree. -/
def Blind (S : InjectorId → Prop) (r : InjectorId → Registry) (x : Act α) (Q : α → Prop) : Prop :=
  ∀ w u : World, Alike S r w u → Agree S r Q w u (x w) (x u)

variable {w u v t : World}

theorem agree_ok {a : α} (hq : Q a) (h : Onward S r w u v t) :
    Agree S r Q w u (.ok a v) (.ok a t) := ⟨rfl, hq, h⟩

theorem agree_error {stop : Stop} (h : Onward S r w u v t) :
    Agree S r Q w u (.error stop v) (.error stop t) := ⟨rfl, h⟩

theorem Agree.cases {s s' : EStateM.Result Stop World α} (h : Agree S r Q w u s s') :
    (∃ a v t, s = .ok a v ∧ s' = .ok a t ∧ Q a ∧ Onward S r w u v t) ∨
    ∃ stop v t, s = .error stop v ∧ s' = .error stop t ∧ Onward S r w u v t := by
  cases s with
  | ok a v =>
    cases s' with
    | ok b t =>
      obtain ⟨rfl, hq, h⟩ := h
      exact .inl ⟨b, v, t, rfl, rfl, hq, h⟩
    | error stop t => exact h.elim
  | error stop v =>
    cases s' with
    | ok b t => exact h.elim
    | error halt t =>
      obtain ⟨rfl, h⟩ := h
      exact .inr ⟨halt, v, t, rfl, rfl, h⟩

theorem Agree.of {s s' : EStateM.Result Stop World α} {w' u' : World} (h : Agree S r Q w u s s')
    (hw : w'.Rests w) (hu : u'.Rests u) : Agree S r Q w' u' s s' := by
  rcases h.cases with ⟨a, v, t, rfl, rfl, ha, hvt⟩ | ⟨stop, v, t, rfl, rfl, hvt⟩
  · exact agree_ok ha (hvt.of hw hu)
  · exact agree_error (hvt.of hw hu)

theorem Blind.imp {P : α → Prop} {x : Act α} (h : Blind S r x Q) (hq : ∀ a, Q a → P a) :
    Blind S r x P := by
  intro w u hwu
  rcases (h w u hwu).cases with ⟨a, v, t, hv, ht, ha, hvt⟩ | ⟨stop, v, t, hv, ht, hvt⟩ <;> rw [hv, ht]
  · exact agree_ok (hq a ha) hvt
  · exact agree_error hvt

theorem blind_pure {a : α} (h : Q a) : Blind S r (pure a) Q := fun _ _ hwu => agree_ok h hwu.onward

theorem blind_throw (stop : Stop) : Blind S r (throw stop : Act α) Q :=
  fun _ _ hwu => agree_error hwu.onward

theorem Blind.bind {x : Act α} {f : α → Act β} (hx : Blind S r x Q)
    (hf : ∀ a, Q a → Blind S r (f a) R) : Blind S r (x >>= f) R := by
  intro w u hwu
  change Agree S r R w u (EStateM.bind x f w) (EStateM.bind x f u)
  simp only [EStateM.bind]
  rcases (hx w u hwu).cases with ⟨a, v, t, hv, ht, ha, h⟩ | ⟨stop, v, t, hv, ht, h⟩ <;> rw [hv, ht]
  · exact (hf a ha v t h.alike).of h.left h.right
  · exact agree_error h

theorem blind_look {f : World → α} (h : ∀ w u, Alike S r w u → f u = f w) :
    Blind S r (look f) fun _ => True :=
  fun w u hwu => ⟨h w u hwu, trivial, hwu.onward⟩

theorem blind_record (e : Event) : Blind S r (record e) fun _ => True :=
  fun _ _ hwu => agree_ok trivial ⟨hwu.record rfl, ⟨rfl, rfl⟩, ⟨rfl, rfl⟩⟩

theorem blind_note (n : Note) : Blind S r (modify fun w => w.note n) fun _ => True := by
  intro w u h
  refine agree_ok trivial ⟨⟨h.registry, h.injectors, h.directory, h.holdings, h.tallies, h.made, ?_,
    h.events, h.underway, h.shared⟩, ⟨rfl, rfl⟩, ⟨rfl, rfl⟩⟩
  simp only [World.note, h.notes]

theorem blind_count (tally : Nat) : Blind S r (count tally) fun _ => True := by
  intro w u h
  simp only [count, h.tallies]
  exact agree_ok trivial ⟨⟨h.registry, h.injectors, h.directory, h.holdings, rfl, h.made, h.notes,
    h.events, h.underway, h.shared⟩, ⟨rfl, rfl⟩, ⟨rfl, rfl⟩⟩

theorem blind_fresh : Blind S r fresh fun _ => True := by
  intro w u h
  simp only [fresh, h.made]
  exact agree_ok trivial ⟨⟨h.registry, h.injectors, h.directory, h.holdings, h.tallies, rfl, h.notes,
    h.events, h.underway, h.shared⟩, ⟨rfl, rfl⟩, ⟨rfl, rfl⟩⟩

theorem Blind.attempt {x : Act α} (h : Blind S r x Q) : Blind S r (attempt x) fun _ => True := by
  intro w u hwu
  simp only [Act.attempt]
  rcases (h w u hwu).cases with ⟨a, v, t, hv, ht, _, h⟩ | ⟨stop, v, t, hv, ht, h⟩ <;> rw [hv, ht]
  · exact agree_ok trivial h
  · cases stop with
    | error e => exact agree_ok trivial h
    | _ => exact agree_error h

end Act

namespace Resolution

open World Act

variable {S : InjectorId → Prop} {r : InjectorId → Registry} {self : Resolver} {i : InjectorId}
  {key : Key} {p : Place} {x : Act Instance}

def blindness (S : InjectorId → Prop) (r : InjectorId → Registry) : Judgement where
  Asks := S
  Law _ _ _ := True
  Shares name d := ∃ i, S i ∧ ∃ a e, (r i).at? a = some e ∧ .shared name d ∈ e.strategies
  Offers _ _ _ := True
  Notes _ := True
  Holds x _ Q := Blind S r x Q
  holds_pure := blind_pure
  holds_refuse _ := blind_throw _
  holds_panic _ := blind_throw _
  holds_bind := Blind.bind
  holds_attempt := Blind.attempt
  holds_live _ := blind_look fun w u h => by simp only [isLive, h.directory, h.holdings]
  holds_named _ := blind_look fun w u h => by simp only [h.directory]
  holds_shared := by
    rintro name d ⟨i, hi, a, e, he, hd⟩
    exact blind_look fun w u h => h.shared i hi a e he name d hd
  holds_count := blind_count
  holds_note := blind_note
  holds_fresh := blind_fresh
  holds_record _ := blind_record _

theorem blind_kept (hx : Blind S r x fun _ => True) (i : InjectorId) (p : Place) :
    Blind S r (kept i p x) fun _ => True := by
  intro w u hwu
  simp only [kept, hwu.cache_eq]
  generalize (w.cache i).find p = found
  have hacquired : Alike S r (w.record (.acquired i p found)) (u.record (.acquired i p found)) :=
    hwu.record rfl
  cases found with
  | ready a => exact agree_ok trivial (hacquired.onward.of ⟨rfl, rfl⟩ ⟨rfl, rfl⟩)
  | busy => exact agree_error (hacquired.onward.of ⟨rfl, rfl⟩ ⟨rfl, rfl⟩)
  | vacant =>
    dsimp only
    rcases (hx _ _ (hacquired.withCache i fun c => c.reserve p)).cases with
      ⟨a, v, t, hv, ht, _, h⟩ | ⟨stop, v, t, hv, ht, h⟩ <;> rw [hv, ht]
    · exact agree_ok trivial ⟨(h.alike.withCache i _).record rfl, ⟨h.left.frames, h.left.offers⟩,
        ⟨h.right.frames, h.right.offers⟩⟩
    · exact agree_error ⟨h.alike.withCache i _, ⟨h.left.frames, h.left.offers⟩,
        ⟨h.right.frames, h.right.offers⟩⟩

theorem blind_underConstruction (hi : S i) (hx : Blind S r x fun _ => True) (key : Key) (limit : Nat) :
    Blind S r (underConstruction i key limit x) fun _ => True := by
  intro w u hwu
  simp only [underConstruction, hwu.underway i hi]
  split
  · exact agree_error hwu.onward
  · split
    · exact agree_error hwu.onward
    · -- The frames are the ones from before once the frame of the key is taken off.
      have finish : ∀ {v t}, Onward S r (w.under i key) (u.under i key) v t →
          Onward S r w u { v with frames := v.frames.tail } { t with frames := t.frames.tail } := by
        intro v t h
        have hl : v.frames.tail = w.frames := by rw [h.left.frames]; rfl
        have hr : t.frames.tail = u.frames := by rw [h.right.frames]; rfl
        refine ⟨h.alike.withFrames fun j hj => ?_, ⟨hl, h.left.offers⟩, ⟨hr, h.right.offers⟩⟩
        simpa [World.underConstruction, hl, hr] using hwu.underway j hj
      have h := hx _ _ (hwu.under i key)
      simp only [Act.withFrame]
      change Agree S r _ (w.under i key) (u.under i key) (x { w with frames := ⟨i, key⟩ :: w.frames })
        (x { u with frames := ⟨i, key⟩ :: u.frames }) at h
      rcases h.cases with ⟨a, v, t, hv, ht, _, h⟩ | ⟨stop, v, t, hv, ht, h⟩ <;> rw [hv, ht]
      · exact agree_ok trivial (finish h)
      · exact agree_error (finish h)

/-- The registries of certain injectors keep to these. -/
def SelfContained (S : InjectorId → Prop) (r : InjectorId → Registry) : Prop :=
  ∀ i, S i → ∀ a e, (r i).at? a = some e → ∀ s ∈ e.strategies, s.Confined S

theorem surrounds_blindness (hi : S i) : (blindness S r).Surrounds i where
  notes _ _ := trivial
  kept h := blind_kept h _ _
  underConstruction h := blind_underConstruction hi h _ _

theorem SelfContained.admits (hc : SelfContained S r) (hi : S i) {a : Ident} {e : Entry}
    (he : (r i).at? a = some e) : ∀ s ∈ e.strategies, (blindness S r).Admits s :=
  fun s hs => ⟨hc i hi a e he s hs, fun _ _ h => ⟨i, hi, a, e, he, h ▸ hs⟩⟩

theorem blindness_request (hc : SelfContained S r) (hs : (blindness S r).Resolves self self) :
    (blindness S r).Resolves (request self) (request self) := by
  intro i key hi w u hwu
  have hrequested : Alike S r (w.requested i key) (u.requested i key) := by
    refine hwu.record ?_
    simp only [Event.bare, caches, hwu.injectors]
  have hadmits : ∀ e, (w.registry i).find? key = some e → ∀ s ∈ e.strategies, (blindness S r).Admits s :=
    fun e he => hc.admits hi (hwu.registry i ▸ he)
  rw [request_eq_respond, request_eq_respond, hwu.registry_eq, hwu.cache_eq, hwu.requester_eq hi]
  have hblind := Judgement.holds_respond (surrounds_blindness hi) hs hi key hadmits
    (w.requester i) ((w.cache i).ready? (.binding key.ident)) (w.registry i).config.maxDepth
  exact (hblind _ _ hrequested).of ⟨rfl, rfl⟩ ⟨rfl, rfl⟩

theorem blindness_resolve (hc : SelfContained S r) : (blindness S r).Resolves resolve resolve := by
  intro i key hi w u hwu
  have hcapacity : u.capacity = w.capacity := by simp only [capacity, hwu.injectors]
  simp only [resolve, hcapacity]
  exact Judgement.resolves_resolveWithin (fun _ _ => blind_throw _) (fun _ => blindness_request hc)
    w.capacity i key hi w u hwu

end Resolution

end Wiring
