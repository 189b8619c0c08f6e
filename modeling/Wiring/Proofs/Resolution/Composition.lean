import Wiring.Proofs.Resolution.Law

set_option autoImplicit false

namespace Wiring

open Relation

structure Drawn (i : InjectorId) (a : Ident) (events : List Event) (c : Contribution × Nat)
    (o : Option MapKey × Object) : Prop where
  mapKey : o.1 = c.1.mapKey
  yielded : .yielded i (.element a c.2) (.object o.2) ∈ events

/-- The collection is put together from what was yielded for its contributions. -/
def Composed (i : InjectorId) (a : Ident) (g : Aggregate) (events : List Event) (x : Instance) : Prop :=
  ∃ id os, List.Forall₂ (Drawn i a events) g.contributions.zipIdx os ∧
    x = .collection id g.shape (Aggregate.gather g.shape os)

theorem Drawn.mono {i : InjectorId} {a : Ident} {events more : List Event} {c : Contribution × Nat}
    {o : Option MapKey × Object} (h : Drawn i a events c o) (hs : ∀ e ∈ events, e ∈ more) :
    Drawn i a more c o := ⟨h.mapKey, hs _ h.yielded⟩

theorem Composed.mono {i : InjectorId} {a : Ident} {g : Aggregate} {events more : List Event}
    {x : Instance} (h : Composed i a g events x) (hs : ∀ e ∈ events, e ∈ more) :
    Composed i a g more x := by
  obtain ⟨id, os, hos, rfl⟩ := h
  exact ⟨id, os, hos.imp fun _ _ h => h.mono hs, rfl⟩

/-- An aggregate of an injector, and what was noted and kept when it began to be observed. -/
structure Watch where
  injector : InjectorId
  key : Ident
  aggregate : Aggregate
  start : List Event
  kept? : Option Instance

namespace Watch

variable {t : Watch} {events more : List Event} {x : Instance}

def Explains (t : Watch) (events : List Event) (x : Instance) : Prop :=
  t.kept? = some x ∨
    ∃ new, events = new ++ t.start ∧ Composed t.injector t.key t.aggregate new x

theorem Explains.mono (h : t.Explains events x) (hs : events <:+ more) : t.Explains more x := by
  obtain ⟨later, rfl⟩ := hs
  refine h.imp_right fun ⟨new, hnew, hx⟩ => ⟨later ++ new, by rw [hnew, List.append_assoc], ?_⟩
  exact hx.mono fun _ => List.mem_append_right _

theorem composed_of_explains {i : InjectorId} {a : Ident} {g : Aggregate}
    (h : (Watch.mk i a g [] none).Explains events x) : Composed i a g events x := by
  obtain ⟨new, hnew, hx⟩ := h.resolve_left (by simp)
  rw [hnew, List.append_nil]
  exact hx

end Watch

namespace World

structure Observed (t : Watch) (w : World) : Prop where
  bound : (w.registry t.injector).at? t.key = some (.aggregate t.aggregate)
  since : t.start <:+ w.events
  kept : ∀ x, w.slot t.injector (.binding t.key) = some (.ready x) → t.Explains w.events x
  yielded : ∀ new x, w.events = new ++ t.start → .yielded t.injector (.binding t.key) x ∈ new →
    t.Explains w.events x

variable {t : Watch} {w v : World} {i : InjectorId} {p : Place} {x : Instance}

theorem Observed.congr (hw : w.Observed t) (hi : v.injectors = w.injectors)
    (he : v.events = w.events) : v.Observed t := by
  have hregistry : v.registry = w.registry := by
    funext i
    simp only [World.registry, World.injector, hi]
  have hslot : v.slot = w.slot := by
    funext i p
    simp only [slot, cache, World.injector, hi]
  exact ⟨hregistry ▸ hw.bound, he ▸ hw.since, hslot ▸ he ▸ hw.kept, he ▸ hw.yielded⟩

theorem Observed.record (hw : w.Observed t) {e : Event}
    (he : ∀ x, e = .yielded t.injector (.binding t.key) x → t.Explains w.events x) :
    (w.record e).Observed t := by
  have hlater : w.events <:+ (w.record e).events := List.suffix_cons e w.events
  refine ⟨hw.bound, hw.since.trans hlater, fun x h => (hw.kept x h).mono hlater, fun new x hnew h => ?_⟩
  obtain ⟨old, hold⟩ := hw.since
  have hsplit : new = e :: old := by
    have : new ++ t.start = (e :: old) ++ t.start := by rw [← hnew, List.cons_append, hold]; rfl
    exact List.append_cancel_right this
  rw [hsplit] at h
  rcases List.mem_cons.mp h with h | h
  · exact (he x h.symm).mono hlater
  · exact (hw.yielded old x hold.symm h).mono hlater

theorem Observed.withCache (hw : w.Observed t) {f : Cache → Cache}
    (hf : ∀ y, (f (w.cache i)).get? (.binding t.key) = some (.ready y) →
      (w.cache i).get? (.binding t.key) = some (.ready y) ∨ (i = t.injector → t.Explains w.events y)) :
    (w.withCache i f).Observed t := by
  refine ⟨by simpa using hw.bound, hw.since, fun y h => ?_, hw.yielded⟩
  rw [slot_withCache] at h
  split at h
  · rename_i heq
    rw [← heq.1] at h
    rcases hf y h with hold | hnew
    · exact hw.kept y (heq.1 ▸ hold)
    · exact hnew heq.1
  · exact hw.kept y h

theorem Observed.reserve (hw : w.Observed t) (i : InjectorId) (p : Place) :
    (w.withCache i fun c => c.reserve p).Observed t :=
  hw.withCache fun _ h => .inl (Cache.ready_of_reserve h)

theorem Observed.release (hw : w.Observed t) (i : InjectorId) (p : Place) :
    (w.withCache i fun c => c.release p).Observed t :=
  hw.withCache fun _ h => .inl (Cache.ready_of_release h)

theorem Observed.fulfill (hw : w.Observed t)
    (hx : i = t.injector → p = .binding t.key → t.Explains w.events x) :
    (w.withCache i fun c => (c.fulfill p x).release p).Observed t := by
  refine hw.withCache fun y h => ?_
  rcases Cache.ready_of_fulfill h with ⟨hp, rfl⟩ | hold
  · exact .inr fun hi => hx hi hp
  · exact .inl hold

theorem Observed.yield (hw : w.Observed t)
    (hx : i = t.injector → p = .binding t.key → t.Explains w.events x) :
    (w.record (.yielded i p x)).Observed t := by
  refine hw.record fun y h => ?_
  obtain ⟨hi, hp, rfl⟩ := Event.yielded.inj h
  exact hx hi hp

end World

namespace Act

open World

variable {α β : Type} {t : Watch} {x : Act α} {Q R : World → α → World → Prop}

def Followed (t : Watch) (Q : World → α → World → Prop) (w : World) :
    EStateM.Result Stop World α → Prop
  | .ok a v => v.Observed t ∧ w.events <:+ v.events ∧ Q w a v
  | .error _ v => v.Observed t ∧ w.events <:+ v.events

def Tracks (t : Watch) (x : Act α) (Q : World → α → World → Prop) : Prop :=
  ∀ w : World, w.Observed t → Followed t Q w (x w)

theorem Tracks.imp (h : Tracks t x Q) (hq : ∀ w a v, w.Observed t → Q w a v → R w a v) :
    Tracks t x R := by
  intro w hw
  have hx := h w hw
  generalize x w = r at hx ⊢
  cases r with
  | ok a v => exact ⟨hx.1, hx.2.1, hq w a v hw hx.2.2⟩
  | error stop v => exact hx

theorem Tracks.bind {f : α → Act β} {R : α → World → β → World → Prop} (h : Tracks t x Q)
    (hf : ∀ a w v, Q w a v → Tracks t (f a) (R a)) : Tracks t (x >>= f) fun w b v =>
      ∃ a u, w.events <:+ u.events ∧ u.events <:+ v.events ∧ Q w a u ∧ R a u b v := by
  intro w hw
  have hx := h w hw
  change Followed t _ w (EStateM.bind x f w)
  simp only [EStateM.bind]
  generalize x w = r at hx ⊢
  cases r with
  | error stop u => exact hx
  | ok a u =>
    have hrest := hf a w u hx.2.2 u hx.1
    dsimp only
    generalize f a u = r at hrest ⊢
    cases r with
    | error stop v => exact ⟨hrest.1, hx.2.1.trans hrest.2⟩
    | ok b v => exact ⟨hrest.1, hx.2.1.trans hrest.2.1, a, u, hx.2.1, hrest.2.1, hx.2.2, hrest.2.2⟩

theorem Tracks.then {f : α → Act β} {P : β → Prop} (h : Tracks t x Q)
    (hf : ∀ a w v, Q w a v → Tracks t (f a) fun _ b _ => P b) : Tracks t (x >>= f) fun _ b _ => P b :=
  (h.bind hf).imp fun _ _ _ _ ⟨_, _, _, _, _, hb⟩ => hb

theorem Tracks.after (h : Tracks t x Q) {w : World} (hw : w.Observed t) :
    (w.after x).Observed t := by
  have hx := h w hw
  unfold World.after
  generalize x w = r at hx ⊢
  cases r with
  | ok a v => exact hx.1
  | error stop v => exact hx.1

theorem tracks_pure {a : α} (h : ∀ w, Q w a w) : Tracks t (pure a) Q :=
  fun w hw => ⟨hw, List.suffix_refl _, h w⟩

theorem tracks_throw (stop : Stop) : Tracks t (throw stop : Act α) Q :=
  fun _ hw => ⟨hw, List.suffix_refl _⟩

theorem tracks_record {e : Event} (he : ∀ x, e ≠ .yielded t.injector (.binding t.key) x) :
    Tracks t (record e) fun w _ v => v.events = e :: w.events :=
  fun _ hw => ⟨hw.record fun x h => absurd h (he x), List.suffix_cons _ _, rfl⟩

theorem tracks_note (n : Note) : Tracks t (modify fun w => w.note n) fun _ _ _ => True :=
  fun _ hw => ⟨hw.congr rfl rfl, List.suffix_refl _, trivial⟩

theorem tracks_count (tally : Nat) : Tracks t (count tally) fun _ _ _ => True :=
  fun _ hw => ⟨hw.congr rfl rfl, List.suffix_refl _, trivial⟩

theorem tracks_fresh : Tracks t fresh fun w _ v => v.events = w.events :=
  fun _ hw => ⟨hw.congr rfl rfl, List.suffix_refl _, rfl⟩

theorem tracks_look (f : World → α) : Tracks t (look f) fun _ _ _ => True :=
  fun _ hw => ⟨hw, List.suffix_refl _, trivial⟩

theorem tracks_ofExcept (x : Except ResolveError α) :
    Tracks t (ofExcept x) fun w a v => x = .ok a ∧ v.events = w.events := by
  cases x with
  | ok a => exact tracks_pure fun _ => ⟨rfl, rfl⟩
  | error e => exact tracks_throw _

theorem Tracks.attempt (h : Tracks t x Q) : Tracks t (attempt x) fun _ _ _ => True := by
  intro w hw
  have hx := h w hw
  simp only [Act.attempt]
  generalize x w = r at hx ⊢
  cases r with
  | ok a v => exact ⟨hx.1, hx.2.1, trivial⟩
  | error stop v =>
    cases stop with
    | error e => exact ⟨hx.1, hx.2, trivial⟩
    | _ => exact hx

end Act

namespace Resolution

open World Act

def Explained (t : Watch) (i : InjectorId) (p : Place) : World → Instance → World → Prop :=
  fun _ x v => i = t.injector → p = .binding t.key → t.Explains v.events x

def Tracked (t : Watch) (self : Resolver) : Prop :=
  ∀ i key, Tracks t (self i key) (Explained t i (.binding key.ident))

variable {t : Watch} {self : Resolver} {i : InjectorId} {key : Key} {p : Place} {x : Act Instance}

def observation (t : Watch) : Judgement where
  Asks _ := True
  Law _ _ _ := True
  Shares _ _ := True
  Offers _ _ _ := True
  Notes e := ∀ x, e ≠ .yielded t.injector (.binding t.key) x
  Holds x _ Q := Tracks t x fun _ a _ => Q a
  holds_pure h := tracks_pure fun _ => h
  holds_refuse _ := tracks_throw _
  holds_panic _ := tracks_throw _
  holds_bind h hf := h.then fun a _ _ ha => hf a ha
  holds_attempt := Tracks.attempt
  holds_live _ := tracks_look _
  holds_named _ := tracks_look _
  holds_shared _ := tracks_look _
  holds_count := tracks_count
  holds_note := tracks_note
  holds_fresh := tracks_fresh.imp fun _ _ _ _ _ => trivial
  holds_record h := (tracks_record h).imp fun _ _ _ _ _ => trivial

theorem Tracked.resolves (hs : Tracked t self) : (observation t).Resolves self self :=
  fun i key _ => (hs i key).imp fun _ _ _ _ _ => trivial

theorem tracks_produce (hs : Tracked t self) (s : Strategy) :
    Tracks t (produce self i key s) fun _ _ _ => True := by
  have hadmits : (observation t).Admits s := ⟨s.confined_univ, fun _ _ _ => trivial⟩
  exact Tracks.imp (Judgement.holds_produce hs.resolves trivial (fun _ h => by cases h) hadmits)
    fun _ _ _ _ _ => trivial

theorem tracks_yielding (hx : Tracks t x (Explained t i p)) :
    Tracks t (yielding i p x) fun w a v => Explained t i p w a v ∧
      ∃ new, v.events = new ++ w.events ∧ .yielded i p a ∈ new := by
  intro w hw
  have h := hx w hw
  change Followed t _ w (EStateM.bind x _ w)
  simp only [EStateM.bind]
  generalize x w = r at h ⊢
  cases r with
  | error stop v => exact h
  | ok a v =>
    obtain ⟨hv, ⟨new, hnew⟩, hexplained⟩ := h
    have hlater : v.events <:+ (v.record (.yielded i p a)).events := List.suffix_cons _ _
    refine ⟨hv.yield hexplained, .trans ⟨new, hnew⟩ hlater,
      fun hi hp => (hexplained hi hp).mono hlater, .yielded i p a :: new, ?_, List.mem_cons_self⟩
    change _ :: v.events = _
    rw [← hnew, List.cons_append]

theorem tracks_kept (hx : Tracks t x (Explained t i p)) :
    Tracks t (kept i p x) (Explained t i p) := by
  intro w hw
  have hacquired : ∀ found, (w.record (.acquired i p found)).Observed t :=
    fun found => hw.record fun _ h => by cases h
  have hlater : ∀ found, w.events <:+ (w.record (.acquired i p found)).events :=
    fun found => List.suffix_cons _ _
  rcases kept_cases i p x w with
    ⟨a, hslot, h⟩ | ⟨_, h⟩ | ⟨_, ⟨a, v, hrun, h⟩ | ⟨stop, v, hrun, h⟩⟩ <;> rw [h]
  · refine ⟨hacquired _, hlater _, fun hi hp => ?_⟩
    subst hi hp
    exact (hw.kept a hslot).mono (hlater _)
  · exact ⟨hacquired _, hlater _⟩
  · have hmade := hx _ ((hacquired .vacant).reserve i p)
    rw [hrun] at hmade
    obtain ⟨hv, hevents, hexplained⟩ := hmade
    refine ⟨(hv.fulfill hexplained).record (fun _ h => by cases h),
      ((hlater .vacant).trans hevents).trans (List.suffix_cons _ _), fun hi hp => ?_⟩
    exact (hexplained hi hp).mono (List.suffix_cons _ _)
  · have hmade := hx _ ((hacquired .vacant).reserve i p)
    rw [hrun] at hmade
    exact ⟨hmade.1.release i p, (hlater .vacant).trans hmade.2⟩

theorem tracks_underConstruction {limit : Nat}
    (hx : Tracks t x (Explained t i p)) :
    Tracks t (underConstruction i key limit x) (Explained t i p) := by
  intro w hw
  have hmade := hx (w.under i key) (hw.congr rfl rfl)
  rcases underConstruction_cases i key limit x w with
    ⟨_, h⟩ | ⟨_, ⟨_, h⟩ | ⟨_, ⟨a, v, hrun, h⟩ | ⟨stop, v, hrun, h⟩⟩⟩ <;> rw [h]
  · exact ⟨hw, List.suffix_refl _⟩
  · exact ⟨hw, List.suffix_refl _⟩
  · rw [hrun] at hmade
    exact ⟨hmade.1.congr rfl rfl, hmade.2.1, hmade.2.2⟩
  · rw [hrun] at hmade
    exact ⟨hmade.1.congr rfl rfl, hmade.2⟩

/-- What is answered for a contribution was yielded for it on the way. -/
theorem tracks_element (hs : Tracked t self) (index : Nat) (c : Contribution) :
    Tracks t (element self i key index c) fun w a v =>
      ∃ new, v.events = new ++ w.events ∧ .yielded i (.element key.ident index) a ∈ new := by
  have hproduce : Tracks t (do
      Act.record (.produced i (.element key.ident index) c.source)
      produce self i key c.binding.strategy) (Explained t i (.element key.ident index)) := by
    refine ((tracks_record fun _ h => by cases h).then fun _ _ _ _ => tracks_produce hs _).imp ?_
    intro _ _ _ _ _ _ hp
    cases hp
  refine (tracks_yielding ?_).imp fun _ _ _ _ h => h.2
  split
  · exact tracks_kept hproduce
  · exact hproduce

theorem tracks_elements (hs : Tracked t self) (cs : List Contribution) (index : Nat) :
    Tracks t (elements self i key index cs) fun w es v =>
      ∃ new, v.events = new ++ w.events ∧ List.Forall₂ (fun c e => e.1 = c.1.mapKey ∧
        .yielded i (.element key.ident c.2) e.2 ∈ new) (cs.zipIdx index) es := by
  induction cs generalizing index with
  | nil => exact tracks_pure fun _ => ⟨[], rfl, .nil⟩
  | cons c rest ih =>
    refine ((tracks_element hs index c).bind fun a _ _ _ => (ih (index + 1)).bind fun others _ _ _ =>
      tracks_pure (Q := fun w es v => v.events = w.events ∧ es = (c.mapKey, a) :: others)
        fun _ => ⟨rfl, rfl⟩).imp ?_
    rintro w es v _ ⟨a, u, _, _, ⟨new, hu, ha⟩, others, m, _, _, ⟨later, hm, hothers⟩, hv, rfl⟩
    refine ⟨later ++ new, by rw [hv, hm, hu, List.append_assoc], .cons ⟨rfl, ?_⟩ ?_⟩
    · exact List.mem_append_right _ ha
    · exact hothers.imp fun _ _ h => ⟨h.1, List.mem_append_left _ h.2⟩

theorem drawn_of_carries {a : Ident} {e : Base} {events : List Event} {cs : List (Contribution × Nat)}
    {es : List (Option MapKey × Instance)} {os : List (Option MapKey × Object)}
    (hes : List.Forall₂ (fun c e => e.1 = c.1.mapKey ∧ .yielded i (.element a c.2) e.2 ∈ events) cs es)
    (hos : List.Forall₂ (Aggregate.Carries e) es os) : List.Forall₂ (Drawn i a events) cs os := by
  induction hes generalizing os with
  | nil =>
    cases hos
    exact .nil
  | cons hyielded _ ih =>
    cases hos with
    | cons hcarries hrest =>
      refine .cons ⟨hcarries.mapKey.trans hyielded.1, ?_⟩ (ih hrest)
      rw [← hcarries.object]
      exact hyielded.2

theorem tracks_construct (hs : Tracked t self) {e : Entry}
    (he : i = t.injector → key.ident = t.key → e = .aggregate t.aggregate) :
    Tracks t (construct self i key e) (Explained t i (.binding key.ident)) := by
  cases e with
  | binding c =>
    refine ((tracks_record fun _ h => by cases h).then fun _ _ _ _ => tracks_produce hs _).imp ?_
    intro _ _ _ _ _ hi hp
    exact absurd (he hi (Place.binding.inj hp)) (by simp)
  | aggregate g =>
    refine ((tracks_elements hs g.contributions 0).bind fun es _ _ _ =>
      (tracks_ofExcept (g.assemble key es)).bind fun items _ _ _ =>
        (tracks_record (e := .assembled i key.ident) fun _ h => by cases h).bind fun _ _ _ _ =>
          tracks_fresh.bind fun id _ _ _ =>
            tracks_pure (Q := fun w x v => v.events = w.events ∧ x = Instance.collection id g.shape items)
              fun _ => ⟨rfl, rfl⟩).imp ?_
    intro w x v hw hx hi hp
    obtain ⟨es, u, _, _, ⟨new, hu, hes⟩, items, m, _, _, ⟨hitems, hm⟩, _, n, _, _, hn, id, o, _, _, ho,
      hv, rfl⟩ := hx
    cases he hi (Place.binding.inj hp)
    obtain ⟨os, hos, rfl⟩ := Aggregate.assemble_eq_ok.mp hitems
    obtain ⟨old, hold⟩ := hw.since
    have hdrawn := drawn_of_carries hes (Aggregate.objects_eq_ok.mp hos).2
    rw [Place.binding.inj hp, hi] at hdrawn
    refine .inr ⟨.assembled i key.ident :: (new ++ old), ?_, id, os, ?_, rfl⟩
    · rw [hv, ho, hn, hm, hu, ← hold]
      simp
    · exact hdrawn.imp fun _ _ h => h.mono fun _ h => List.mem_cons_of_mem _ (List.mem_append_left _ h)

theorem tracked_request (hkey : t.key.type ≠ .injector) (hs : Tracked t self) :
    Tracked t (request self) := by
  intro i key w hw
  have hrequested : (w.requested i key).Observed t := hw.record fun _ h => by cases h
  have hlater : w.events <:+ (w.requested i key).events := List.suffix_cons _ _
  have hentry : ∀ {e}, (w.registry i).find? key = some e → i = t.injector → key.ident = t.key →
      e = .aggregate t.aggregate := by
    intro e he hi hk
    rw [Registry.find?_eq_at, hi, hk, hw.bound] at he
    exact (Option.some.inj he).symm
  -- What holds from the request on holds from the world in which it was made.
  have hstart : ∀ {x : Act Instance}, Tracks t x (Explained t i (.binding key.ident)) →
      Followed t (Explained t i (.binding key.ident)) w (x (w.requested i key)) := by
    intro x hx
    have h := hx _ hrequested
    generalize x (w.requested i key) = r at h ⊢
    cases r with
    | ok a v => exact ⟨h.1, hlater.trans h.2.1, h.2.2⟩
    | error stop v => exact ⟨h.1, hlater.trans h.2⟩
  have hyielding : ∀ {x : Act Instance}, Tracks t x (Explained t i (.binding key.ident)) →
      Tracks t (yielding i (.binding key.ident) x) (Explained t i (.binding key.ident)) :=
    fun hx => (tracks_yielding hx).imp fun _ _ _ _ h => h.1
  rcases request_cases self i key w with
    ⟨hinj, h⟩ | ⟨_, _, h⟩ | ⟨e, _, hf, ⟨a, _, hslot, h⟩ | h⟩ <;> rw [h]
  · refine ⟨hrequested, hlater, fun hi hp => absurd ?_ hkey⟩
    rw [← Place.binding.inj hp]
    change key.type.id = .injector
    simpa [Key.isInjector] using hinj
  · exact ⟨hrequested, hlater⟩
  · have hkept : i = t.injector → .binding key.ident = Place.binding t.key →
        t.Explains (w.requested i key).events a := by
      intro hi hp
      subst hi
      rw [Place.binding.inj hp] at hslot
      exact (hw.kept a hslot).mono hlater
    have hyielded : (w.requested i key).events <:+
        ((w.requested i key).record (.yielded i (.binding key.ident) a)).events :=
      List.suffix_cons _ _
    exact ⟨hrequested.yield hkept, hlater.trans hyielded, fun hi hp => (hkept hi hp).mono hyielded⟩
  · have hconstruct : Tracks t (construct self i key e) (Explained t i (.binding key.ident)) :=
      tracks_construct hs (hentry hf)
    refine hstart (hyielding (tracks_underConstruction ?_))
    split
    · exact tracks_kept hconstruct
    · exact hconstruct

theorem tracked_resolveWithin (hkey : t.key.type ≠ .injector) (d : Nat) :
    Tracked t (resolveWithin d) := by
  induction d with
  | zero => exact fun _ _ => tracks_throw _
  | succ d ih => exact tracked_request hkey ih

end Resolution

namespace World

open Act

variable {t : Watch} {w v : World} {i : InjectorId} {a : Ident} {g : Aggregate}

theorem tracked_resolve (hkey : t.key.type ≠ .injector) : Resolution.Tracked t resolve :=
  fun i key w hw => Resolution.tracked_resolveWithin hkey w.capacity i key w hw

theorem Next.observed (hkey : t.key.type ≠ .injector) (h : Next w v) (ho : w.Observed t)
    (hr : v.registry t.injector = w.registry t.injector) : v.Observed t := by
  have hresolve := (tracked_resolve hkey).resolves
  cases h with
  | inject name hf hj =>
    refine ⟨hr ▸ ho.bound, ho.since, fun x hx => ho.kept x ?_, ho.yielded⟩
    rwa [slot_addInjector hj] at hx
  | offer b =>
    unfold World.offer
    split
    · exact ho.congr rfl rfl
    · exact ho
  | fetch i req => exact Tracks.after (Resolution.Judgement.holds_serve hresolve trivial req) ho
  | pull l => exact Tracks.after (Resolution.Judgement.holds_pull hresolve trivial) ho
  | resolvePoints i ps => exact Tracks.after (Resolution.Judgement.holds_points hresolve trivial ps) ho
  | arrange => exact ho.congr rfl rfl

theorem Reachable.observed (hw : w.Reachable) (hkey : a.type ≠ .injector)
    (hg : (w.registry i).at? a = some (.aggregate g)) : w.Observed ⟨i, a, g, [], none⟩ := by
  induction hw with
  | refl =>
    rw [registry, injector_of_le (Nat.zero_le i)] at hg
    contradiction
  | @tail u v hreach hs ih =>
    have hu := Reachable.quiet hreach
    rcases hs.registry_cases hu i with hsame | ⟨name, j, hj, hi, rfl⟩
    · exact hs.observed hkey (ih (hsame ▸ hg)) hsame
    · refine ⟨hg, List.nil_suffix, fun x hx => ?_, fun new x hnew hx => ?_⟩
      · rw [slot_addInjector hj] at hx
        exact absurd (lt_of_slot hx) (hi ▸ Nat.lt_irrefl _)
      · rw [List.append_nil] at hnew
        obtain ⟨spot, hspot⟩ := hu.yielded_spot (hnew ▸ hx)
        exact absurd (lt_of_spot hspot) (hi ▸ Nat.lt_irrefl _)

theorem Reachable.composed_of_yielded (hw : w.Reachable) (hkey : a.type ≠ .injector)
    (hg : (w.registry i).at? a = some (.aggregate g)) {x : Instance}
    (h : .yielded i (.binding a) x ∈ w.events) : Composed i a g w.events x :=
  Watch.composed_of_explains ((hw.observed hkey hg).yielded w.events x (List.append_nil _).symm h)

/-- A collection that is resolved was kept before, or is put together on the way. -/
theorem Reachable.composed_of_resolve (hw : w.Reachable) {key : Key} (hkey : key.ident.type ≠ .injector)
    (hg : (w.registry i).at? key.ident = some (.aggregate g)) {x : Instance}
    (h : resolve i key w = .ok x v) :
    w.slot i (.binding key.ident) = some (.ready x) ∧ Composed i key.ident g w.events x ∨
      ∃ new, v.events = new ++ w.events ∧ Composed i key.ident g new x := by
  let t : Watch := ⟨i, key.ident, g, w.events, (w.cache i).ready? (.binding key.ident)⟩
  have hstart : w.Observed t := by
    refine ⟨hg, List.suffix_refl _, fun x hx => .inl (ready?_eq_some.mpr hx), fun new x hnew hx => ?_⟩
    rw [List.self_eq_append_left.mp hnew] at hx
    contradiction
  have hfollowed := tracked_resolve (t := t) hkey i key w hstart
  rw [h] at hfollowed
  rcases hfollowed.2.2 rfl rfl with hkept | hnew
  · have hready := ready?_eq_some.mp hkept
    exact .inl ⟨hready, Watch.composed_of_explains ((hw.observed hkey hg).kept x hready)⟩
  · exact .inr hnew

end World

end Wiring
